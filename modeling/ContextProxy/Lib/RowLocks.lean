import ContextProxy.Lib.Transaction

/-!
# Transactions that lock single rows

A second way to run transactions together. Every statement is about one row. It reads the committed version under the transaction's own pending writes, and waits for the lock of the row, held to commit or abort. A statement may go without the lock only if it writes nothing and any version of the row gives it the same answer. Rows are never deleted.

When a transaction commits, it has done what it would do alone on the tables of that moment (`Step.effect`). So a property of the tables that every transaction keeps alone holds in every reachable world (`store_invariant`).
-/

namespace ContextProxy

/-- Statements on single rows, and the transactions that send them. -/
structure RowSystem (K : Type) (R : K → Type) (ι : Type) {Q : Type} (A : Q → Type) (ε α : Type) where
  key : Q → K
  /-- On the current version of its row: the answer, and the version it writes. -/
  exec : (q : Q) → Option (R (key q)) → Except ε (A q × Option (R (key q)))
  locks : (q : Q) → Option (R (key q)) → Bool
  unlocked : ∀ q v a new, locks q v = false → exec q v = .ok (a, new) →
    new = none ∧ v.isSome = true ∧ ∀ r, locks q (some r) = false ∧ exec q (some r) = .ok (a, none)
  prog : ι → Prog A ε α

namespace RowSystem

variable {K : Type} {R : K → Type} {ι Q : Type} {A : Q → Type} {ε α : Type} [DecidableEq K]

abbrev Store (R : K → Type) : Type := (k : K) → Option (R k)

abbrev RowWrite (R : K → Type) : Type := (k : K) × R k

variable (S : RowSystem K R ι A ε α)

def tables : Tables Unit (Store R) (Store R) (RowWrite R) A ε where
  part := fun _ store => store
  exec := fun q store => (S.exec q (store (S.key q))).map fun out => (out.1, out.2.toList.map fun r => ⟨S.key q, r⟩)
  apply := fun _ w store => Function.update store w.1 (some w.2)
  applyPart := fun w store => Function.update store w.1 (some w.2)
  part_apply := fun _ _ _ => rfl
  part_apply_of_ne := fun _ _ _ _ h => absurd rfl h

def under (ws : List (RowWrite R)) (store : Store R) : Store R := S.tables.applyParts ws store

def init (store : Store R) : World K (Store R) ι (RowWrite R) A ε α where
  store := store
  owner := fun _ => none
  proc := fun i => .active (S.prog i) []
  history := []

/-! ### What a transaction has done so far -/

/-- A program leads to a rest of it with some writes, where every statement so far was on a row of its own or needed no lock. -/
inductive Replays (store : Store R) (mine : K → Prop) (p : Prog A ε α) : Prog A ε α → List (RowWrite R) → Prop
  | start : Replays store mine p p []
  | locked {q : Q} {next : A q → Prog A ε α} {ws : List (RowWrite R)} {a : A q} {new : Option (R (S.key q))}
      (h : Replays store mine p (.ask q next) ws) (hmine : mine (S.key q))
      (hexec : S.exec q (S.under ws store (S.key q)) = .ok (a, new)) :
      Replays store mine p (next a) (ws ++ new.toList.map fun r => ⟨S.key q, r⟩)
  | unlocked {q : Q} {next : A q → Prog A ε α} {ws : List (RowWrite R)} {a : A q} {new : Option (R (S.key q))}
      (h : Replays store mine p (.ask q next) ws) (hlocks : S.locks q (S.under ws store (S.key q)) = false)
      (hexec : S.exec q (S.under ws store (S.key q)) = .ok (a, new)) :
      Replays store mine p (next a) (ws ++ new.toList.map fun r => ⟨S.key q, r⟩)

variable {S} {store store' : Store R} {mine mine' : K → Prop} {p rest : Prog A ε α} {ws : List (RowWrite R)} {k : K}

theorem under_congr (ws : List (RowWrite R)) (h : store k = store' k) : S.under ws store k = S.under ws store' k := by
  induction ws generalizing store store' with
  | nil => exact h
  | cons w ws ih =>
    apply ih
    by_cases hk : k = w.1
    · subst hk
      simp [tables]
    · simp [tables, Function.update_of_ne hk, h]

theorem under_isSome (ws : List (RowWrite R)) (h : (store k).isSome = true → (store' k).isSome = true) :
    (S.under ws store k).isSome = true → (S.under ws store' k).isSome = true := by
  induction ws generalizing store store' with
  | nil => exact h
  | cons w ws ih =>
    apply ih
    by_cases hk : k = w.1
    · subst hk
      simp [tables]
    · simpa [tables, Function.update_of_ne hk] using h

theorem isSome_under (ws : List (RowWrite R)) (h : (store k).isSome = true) : (S.under ws store k).isSome = true := by
  induction ws generalizing store with
  | nil => exact h
  | cons w ws ih =>
    apply ih
    by_cases hk : k = w.1
    · subst hk
      simp [tables]
    · simpa [tables, Function.update_of_ne hk] using h

theorem under_of_forall_ne (h : ∀ w ∈ ws, w.1 ≠ k) : S.under ws store k = store k := by
  induction ws generalizing store with
  | nil => rfl
  | cons w ws ih =>
    obtain ⟨hw, hws⟩ := List.forall_mem_cons.mp h
    exact (ih hws).trans (Function.update_of_ne (Ne.symm hw) _ _)

/-- What was read under a lock has to stay, what was read without one only has to stay there. -/
theorem Replays.mono (h : S.Replays store mine p rest ws) (hagree : ∀ k, mine k → store' k = store k)
    (hkeep : ∀ k, (store k).isSome = true → (store' k).isSome = true) (hmine : ∀ k, mine k → mine' k) :
    S.Replays store' mine' p rest ws := by
  induction h with
  | start => exact .start
  | @locked q next ws a new _ hown hexec ih =>
    refine .locked ih (hmine _ hown) ?_
    rw [under_congr ws (hagree _ hown)]
    exact hexec
  | @unlocked q next ws a new _ hlocks hexec ih =>
    obtain ⟨rfl, hsome, hany⟩ := S.unlocked _ _ _ _ hlocks hexec
    obtain ⟨r, hr⟩ := Option.isSome_iff_exists.mp (under_isSome ws (hkeep _) hsome)
    refine .unlocked ih ?_ ?_
    · rw [hr]
      exact (hany r).1
    · rw [hr]
      exact (hany r).2

/-- So far the program has done what it would do alone. -/
theorem Replays.run (h : S.Replays store mine p rest ws) : S.tables.run p store = S.tables.runFrom rest ws store := by
  have hexec : ∀ {q : Q} {ws : List (RowWrite R)} {a : A q} {new : Option (R (S.key q))},
      S.exec q (S.under ws store (S.key q)) = .ok (a, new) →
        S.tables.exec q (S.tables.applyParts ws store) = .ok (a, new.toList.map fun r => ⟨S.key q, r⟩) := by
    intro q ws a new h
    change (S.exec q (S.under ws store (S.key q))).map _ = _
    rw [h]
    rfl
  induction h with
  | start => exact (S.tables.runFrom_nil p store).symm
  | locked _ _ hstatement ih => exact ih.trans (S.tables.runFrom_ask (hexec hstatement))
  | unlocked _ _ hstatement ih => exact ih.trans (S.tables.runFrom_ask (hexec hstatement))

/-! ### Interleaved transactions -/

variable (S)

/-- The locks after a statement of transaction `i` on a version of its row. -/
def lockRow (i : ι) (q : Q) (v : Option (R (S.key q))) (owner : K → Option ι) : K → Option ι :=
  if S.locks q v then Function.update owner (S.key q) (some i) else owner

/-- What holds in every reachable world: a transaction under way has done what it would do alone now, and it has the locks of the rows it writes. -/
structure Inv (w : World K (Store R) ι (RowWrite R) A ε α) : Prop where
  replays : ∀ i rest ws, w.proc i = .active rest ws → S.Replays w.store (fun k => w.owner k = some i) (S.prog i) rest ws
  owned : ∀ i rest ws, w.proc i = .active rest ws → ∀ x ∈ ws, w.owner x.1 = some i

variable {S}

variable {owner : K → Option ι} {P : Store R → Prop}

theorem lockRow_of_owned {i j : ι} {q : Q} {v : Option (R (S.key q))}
    (hlock : S.locks q v = true → owner (S.key q) = none ∨ owner (S.key q) = some i) (h : owner k = some j) :
    S.lockRow i q v owner k = some j := by
  rw [lockRow]
  split
  · rename_i hq
    by_cases hkey : k = S.key q
    · subst hkey
      rw [Function.update_self]
      rcases hlock hq with hnone | hself
      · simp [hnone] at h
      · exact hself.symm.trans h
    · rw [Function.update_of_ne hkey, h]
  · exact h

theorem lockRow_self {i : ι} {q : Q} {v : Option (R (S.key q))} (h : S.locks q v = true) :
    S.lockRow i q v owner (S.key q) = some i := by
  rw [lockRow, if_pos h, Function.update_self]

theorem inv_init (store : Store R) : S.Inv (S.init store) where
  replays := by
    intro i rest ws hproc
    obtain ⟨rfl, rfl⟩ : S.prog i = rest ∧ [] = ws := by simpa [init] using hproc
    exact .start
  owned := by
    intro i rest ws hproc x hx
    obtain ⟨-, rfl⟩ : S.prog i = rest ∧ [] = ws := by simpa [init] using hproc
    cases hx

variable (S)

variable [DecidableEq ι]

inductive Step (i : ι) (w : World K (Store R) ι (RowWrite R) A ε α) : World K (Store R) ι (RowWrite R) A ε α → Prop
  | statement {q : Q} {next : A q → Prog A ε α} {writes : List (RowWrite R)} {answer : A q} {new : Option (R (S.key q))}
      (hproc : w.proc i = .active (.ask q next) writes)
      (hlock : S.locks q (S.under writes w.store (S.key q)) = true →
        w.owner (S.key q) = none ∨ w.owner (S.key q) = some i)
      (hexec : S.exec q (S.under writes w.store (S.key q)) = .ok (answer, new)) :
      Step i w { w with
        owner := S.lockRow i q (S.under writes w.store (S.key q)) w.owner
        proc := Function.update w.proc i
          (.active (next answer) (writes ++ new.toList.map fun r => ⟨S.key q, r⟩)) }
  | commit {result : α} {writes : List (RowWrite R)} (hproc : w.proc i = .active (.ret result) writes) :
      Step i w {
        store := S.under writes w.store
        owner := System.release i w.owner
        proc := Function.update w.proc i (.committed result)
        history := w.history ++ [i] }
  | raise {error : ε} {writes : List (RowWrite R)} (hproc : w.proc i = .active (.raise error) writes) :
      Step i w { w with
        owner := System.release i w.owner, proc := Function.update w.proc i (.aborted (some error)) }
  | statementFails {q : Q} {next : A q → Prog A ε α} {writes : List (RowWrite R)} {error : ε}
      (hproc : w.proc i = .active (.ask q next) writes)
      (hexec : S.exec q (S.under writes w.store (S.key q)) = .error error) :
      Step i w { w with
        owner := System.release i w.owner, proc := Function.update w.proc i (.aborted (some error)) }
  | crash {rest : Prog A ε α} {writes : List (RowWrite R)} (hproc : w.proc i = .active rest writes) :
      Step i w { w with owner := System.release i w.owner, proc := Function.update w.proc i (.aborted none) }

def Steps : World K (Store R) ι (RowWrite R) A ε α → World K (Store R) ι (RowWrite R) A ε α → Prop :=
  Relation.ReflTransGen fun w w' => ∃ i, S.Step i w w'

variable {S} {w w' : World K (Store R) ι (RowWrite R) A ε α} {i : ι}

theorem Inv.ended (h : S.Inv w) (hstore : ∀ k, w.owner k ≠ some i → store' k = w.store k)
    (hkeep : ∀ k, (w.store k).isSome = true → (store' k).isSome = true) (ended : Proc A ε α (RowWrite R))
    (hended : ended.Ended) (history : List ι) :
    S.Inv ⟨store', System.release i w.owner, Function.update w.proc i ended, history⟩ := by
  have hother : ∀ j rest ws, Function.update w.proc i ended j = .active rest ws → j ≠ i ∧ w.proc j = .active rest ws := by
    intro j rest ws hproc
    by_cases hj : j = i
    · subst hj
      rw [Function.update_self] at hproc
      exact absurd hended (by simp [hproc, Proc.Ended])
    · exact ⟨hj, (Function.update_of_ne hj ..).symm.trans hproc⟩
  constructor
  · intro j rest ws hproc
    obtain ⟨hj, hproc⟩ := hother j rest ws hproc
    refine (h.replays j rest ws hproc).mono (fun k hk => hstore k ?_) hkeep fun k hk => System.release_of_ne hj hk
    rw [hk]
    exact fun heq => hj (Option.some.inj heq)
  · intro j rest ws hproc x hx
    obtain ⟨hj, hproc⟩ := hother j rest ws hproc
    exact System.release_of_ne hj (h.owned j rest ws hproc x hx)

theorem Inv.statement (h : S.Inv w) {q : Q} {next : A q → Prog A ε α} {writes : List (RowWrite R)} {answer : A q}
    {new : Option (R (S.key q))} (hproc : w.proc i = .active (.ask q next) writes)
    (hlock : S.locks q (S.under writes w.store (S.key q)) = true → w.owner (S.key q) = none ∨ w.owner (S.key q) = some i)
    (hexec : S.exec q (S.under writes w.store (S.key q)) = .ok (answer, new)) : S.Inv { w with
      owner := S.lockRow i q (S.under writes w.store (S.key q)) w.owner
      proc := Function.update w.proc i (.active (next answer) (writes ++ new.toList.map fun r => ⟨S.key q, r⟩)) } := by
  have howner : ∀ j k, w.owner k = some j → S.lockRow i q (S.under writes w.store (S.key q)) w.owner k = some j :=
    fun j k => lockRow_of_owned hlock
  have hreplays := h.replays i _ _ hproc
  have hother : ∀ j, j ≠ i → Function.update w.proc i
      (.active (next answer) (writes ++ new.toList.map fun r => ⟨S.key q, r⟩)) j = w.proc j :=
    fun j hj => Function.update_of_ne hj ..
  constructor
  · intro j rest ws hactive
    by_cases hj : j = i
    · subst hj
      obtain ⟨rfl, rfl⟩ : next answer = rest ∧ writes ++ new.toList.map (fun r => ⟨S.key q, r⟩) = ws := by
        simpa using hactive
      have hmono : S.Replays w.store
          (fun k => S.lockRow j q (S.under writes w.store (S.key q)) w.owner k = some j) _ _ _ :=
        hreplays.mono (fun _ _ => rfl) (fun _ hk => hk) (howner j)
      cases hq : S.locks q (S.under writes w.store (S.key q)) with
      | true => exact hmono.locked (lockRow_self hq) hexec
      | false => exact hmono.unlocked hq hexec
    · have hactive := (hother j hj).symm.trans hactive
      exact (h.replays j rest ws hactive).mono (fun _ _ => rfl) (fun _ hk => hk) (howner j)
  · intro j rest ws hactive x hx
    by_cases hj : j = i
    · subst hj
      obtain ⟨rfl, rfl⟩ : next answer = rest ∧ writes ++ new.toList.map (fun r => ⟨S.key q, r⟩) = ws := by
        simpa using hactive
      rcases List.mem_append.mp hx with hx | hx
      · exact howner j x.1 (h.owned j _ _ hproc x hx)
      · obtain ⟨r, hr, rfl⟩ := List.mem_map.mp hx
        cases hq : S.locks q (S.under writes w.store (S.key q)) with
        | true => exact lockRow_self hq
        | false =>
          rw [(S.unlocked _ _ _ _ hq hexec).1] at hr
          cases hr
    · have hactive := (hother j hj).symm.trans hactive
      exact howner j x.1 (h.owned j rest ws hactive x hx)

theorem Inv.step (h : S.Inv w) (hstep : S.Step i w w') : S.Inv w' := by
  cases hstep with
  | statement hproc hlock hexec => exact h.statement hproc hlock hexec
  | @commit result writes hproc =>
    refine h.ended (fun k hk => under_of_forall_ne fun x hx hkey => ?_) (fun k hk => ?_) (.committed result) trivial _
    · exact hk (hkey ▸ h.owned i _ _ hproc x hx)
    · exact isSome_under writes hk
  | raise hproc => exact h.ended (fun _ _ => rfl) (fun _ hk => hk) (.aborted _) trivial _
  | statementFails hproc _ => exact h.ended (fun _ _ => rfl) (fun _ hk => hk) (.aborted _) trivial _
  | crash hproc => exact h.ended (fun _ _ => rfl) (fun _ hk => hk) (.aborted _) trivial _

theorem inv_of_steps (h : S.Steps (S.init store) w) : S.Inv w := by
  induction h with
  | refl => exact inv_init store
  | tail _ hstep ih =>
    obtain ⟨i, hstep⟩ := hstep
    exact ih.step hstep

/-- A step commits its transaction, with the effect it has alone on the tables of that moment, or leaves the tables as they are. -/
theorem Step.effect (h : S.Step i w w') (hinv : S.Inv w) :
    (w'.store = w.store ∧ ∀ result, w'.proc i ≠ .committed result) ∨
      ∃ result ws, S.tables.run (S.prog i) w.store = .ok (result, ws) ∧ w'.store = S.tables.applyParts ws w.store := by
  cases h with
  | @commit result writes hproc =>
    refine .inr ⟨result, writes, ?_, rfl⟩
    rw [(hinv.replays i _ _ hproc).run]
    simp [Tables.runFrom, Tables.run, Except.map]
  | statement | raise | statementFails | crash => exact .inl ⟨rfl, by simp⟩

theorem Steps.proc_of_ended (h : S.Steps w w') (hended : (w.proc i).Ended) : w'.proc i = w.proc i := by
  induction h with
  | refl => rfl
  | @tail u v _ hstep ih =>
    obtain ⟨j, hstep⟩ := hstep
    have hu : (u.proc i).Ended := ih ▸ hended
    have hij : i ≠ j := by
      rintro rfl
      cases hstep with
      | statement hproc | commit hproc | raise hproc | statementFails hproc | crash hproc =>
        simp [hproc, Proc.Ended] at hu
    rw [← ih]
    cases hstep <;> exact Function.update_of_ne hij ..

/-- A transaction that ends with an error has not changed the tables at any point. -/
theorem Step.store_of_aborted (hstep : S.Step i w w') {u : World K (Store R) ι (RowWrite R) A ε α}
    (hsteps : S.Steps w' u) {error : Option ε} (herror : u.proc i = .aborted error) : w'.store = w.store := by
  cases hstep with
  | commit hproc =>
    have hkeeps := hsteps.proc_of_ended (i := i) (by simp [Proc.Ended])
    rw [herror] at hkeeps
    simp at hkeeps
  | statement | raise | statementFails | crash => rfl

/-- A property of the tables that every transaction keeps when it runs alone holds in every reachable world. -/
theorem store_invariant (hcall : ∀ i, S.tables.Ensures P (S.prog i) fun _ => P) (h : S.Steps (S.init store) w)
    (hstore : P store) : P w.store := by
  induction h with
  | refl => exact hstore
  | tail hsteps hstep ih =>
    obtain ⟨i, hstep⟩ := hstep
    rcases hstep.effect (inv_of_steps hsteps) with ⟨hsame, -⟩ | ⟨result, ws, hrun, hstore⟩
    · rw [hsame]
      exact ih
    · rw [hstore]
      exact hcall i _ ih result ws hrun

/-- A relation between the tables of two moments that every transaction respects when it runs alone. -/
theorem store_rel {r : Store R → Store R → Prop} (hrefl : ∀ s, r s s) (htrans : ∀ s s' s'', r s s' → r s' s'' → r s s'')
    (hcall : ∀ i, S.tables.Ensures P (S.prog i) fun _ => P)
    (hrel : ∀ i s, S.tables.Ensures (fun s' => P s' ∧ s' = s) (S.prog i) fun _ s' => r s s') (hstore : P store)
    (h : S.Steps (S.init store) w) (hsteps : S.Steps w w') : r w.store w'.store := by
  induction hsteps with
  | refl => exact hrefl _
  | @tail u v hsteps hstep ih =>
    obtain ⟨i, hstep⟩ := hstep
    have hu := h.trans hsteps
    rcases hstep.effect (inv_of_steps hu) with ⟨hsame, -⟩ | ⟨result, ws, hrun, hcommit⟩
    · rw [hsame]
      exact ih
    · rw [hcommit]
      exact htrans _ _ _ ih (hrel i u.store u.store ⟨store_invariant hcall hu hstore, rfl⟩ result ws hrun)

end RowSystem

end ContextProxy
