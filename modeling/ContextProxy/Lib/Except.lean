import Mathlib.Algebra.BigOperators.Group.List.Basic
import Mathlib.Algebra.GroupWithZero.Nat
import Mathlib.Data.List.Forall2
import Mathlib.Tactic.Common

/-!
# Computations that may raise

What a sequence of computations returns, and a loop that reads each item of a list and stops at the first one that raises. What such a loop returns is related to its input item by item.
-/

namespace ContextProxy

open List

variable {α β ε : Type}

variable {b : β} {f : α → Except ε β} {x : Except ε α} {a : α} {as : List α} {bs : List β} {r : α → β → Prop}
  {step : β → α → Except ε β}

theorem bind_eq_ok : (x >>= f) = .ok b ↔ ∃ a, x = .ok a ∧ f a = .ok b := by
  cases x with
  | error e => simp [bind, Except.bind]
  | ok a => simp [bind, Except.bind]

theorem bind_unit_eq_ok {x : Except ε Unit} {f : Unit → Except ε β} : (x >>= f) = .ok b ↔ x = .ok () ∧ f () = .ok b := by
  rw [bind_eq_ok]
  exact ⟨fun ⟨_, hx, hf⟩ => ⟨hx, hf⟩, fun ⟨hx, hf⟩ => ⟨(), hx, hf⟩⟩

theorem bind_eq_error {e : ε} : (x >>= f) = .error e ↔ x = .error e ∨ ∃ a, x = .ok a ∧ f a = .error e := by
  cases x with
  | error e => simp [bind, Except.bind]
  | ok a => simp [bind, Except.bind]

theorem pure_eq_ok {b : α} : (pure a : Except ε α) = .ok b ↔ a = b := by
  simp [pure, Except.pure]

theorem exists_bind_pure {f : α → β} : (∃ b, (x >>= fun a => pure (f a)) = .ok b) ↔ ∃ a, x = .ok a := by
  simp only [bind_eq_ok, pure_eq_ok]
  exact ⟨fun ⟨_, a, h, _⟩ => ⟨a, h⟩, fun ⟨a, h⟩ => ⟨f a, a, h, rfl⟩⟩

theorem mapError_eq_ok {δ : Type} {f : ε → δ} : x.mapError f = .ok a ↔ x = .ok a := by
  cases x with
  | error e => simp [Except.mapError]
  | ok b => simp [Except.mapError]

theorem mapM_eq_ok : as.mapM f = .ok bs ↔ List.Forall₂ (fun a b => f a = .ok b) as bs := by
  induction as generalizing bs with
  | nil => rw [mapM_nil, pure_eq_ok, forall₂_nil_left_iff, eq_comm]
  | cons a as ih =>
    simp only [mapM_cons, bind_eq_ok, pure_eq_ok, forall₂_cons_left_iff, ih]
    constructor
    · rintro ⟨b, hb, rest, hrest, rfl⟩
      exact ⟨b, rest, hb, hrest, rfl⟩
    · rintro ⟨b, rest, hb, hrest, rfl⟩
      exact ⟨b, hb, rest, hrest, rfl⟩

theorem exists_mem_of_mapM_eq_error {e : ε} (h : as.mapM f = .error e) : ∃ a ∈ as, f a = .error e := by
  induction as with
  | nil => cases h
  | cons a as ih =>
    rw [mapM_cons, bind_eq_error] at h
    rcases h with h | ⟨b, -, h⟩
    · exact ⟨a, mem_cons_self, h⟩
    · rcases bind_eq_error.mp h with h | ⟨bs, -, h⟩
      · obtain ⟨a', ha', hf⟩ := ih h
        exact ⟨a', mem_cons_of_mem _ ha', hf⟩
      · cases h

theorem mapM_eq_none_of_mem {f : α → Option β} (ha : a ∈ as) (hf : f a = none) : as.mapM f = none := by
  induction as with
  | nil => cases ha
  | cons b as ih =>
    rw [mapM_cons]
    rcases mem_cons.mp ha with rfl | ha
    · rw [hf]
      rfl
    · rw [ih ha]
      cases f b with
      | none => rfl
      | some c => rfl

theorem exists_mapM_eq_some {f : α → Option β} (h : ∀ a ∈ as, f a ≠ none) : ∃ bs, as.mapM f = some bs := by
  induction as with
  | nil => exact ⟨[], rfl⟩
  | cons a as ih =>
    rw [forall_mem_cons] at h
    obtain ⟨b, hb⟩ := Option.ne_none_iff_exists'.mp h.1
    obtain ⟨bs, hbs⟩ := ih h.2
    refine ⟨b :: bs, ?_⟩
    rw [mapM_cons, hb, hbs]
    rfl

theorem exists_mapM_eq_ok : (∃ bs, as.mapM f = .ok bs) ↔ ∀ a ∈ as, ∃ b, f a = .ok b := by
  induction as with
  | nil => simp [pure_eq_ok]
  | cons a as ih =>
    simp only [mapM_cons, bind_eq_ok, pure_eq_ok, forall_mem_cons, ← ih]
    constructor
    · rintro ⟨_, b, hb, rest, hrest, -⟩
      exact ⟨⟨b, hb⟩, rest, hrest⟩
    · rintro ⟨⟨b, hb⟩, rest, hrest⟩
      exact ⟨_, b, hb, rest, hrest, rfl⟩

theorem exists_right_of_forall₂ (h : List.Forall₂ r as bs) {a : α} (ha : a ∈ as) : ∃ b ∈ bs, r a b := by
  induction h with
  | nil => simp at ha
  | cons hr _ ih =>
    rcases mem_cons.mp ha with rfl | ha
    · exact ⟨_, mem_cons_self, hr⟩
    · obtain ⟨b, hb, hrb⟩ := ih ha
      exact ⟨b, mem_cons_of_mem _ hb, hrb⟩

theorem exists_left_of_forall₂ (h : List.Forall₂ r as bs) {b : β} (hb : b ∈ bs) : ∃ a ∈ as, r a b :=
  exists_right_of_forall₂ h.flip hb

theorem exists_forall₂_of_mem (h : ∀ b ∈ bs, ∃ a ∈ as, r a b) :
    ∃ chosen, List.Forall₂ r chosen bs ∧ ∀ a ∈ chosen, a ∈ as := by
  induction bs with
  | nil => exact ⟨[], .nil, by simp⟩
  | cons b bs ih =>
    obtain ⟨a, ha, hr⟩ := h b mem_cons_self
    obtain ⟨chosen, hchosen, hmem⟩ := ih fun b' hb' => h b' (mem_cons_of_mem b hb')
    exact ⟨a :: chosen, .cons hr hchosen, forall_mem_cons.mpr ⟨ha, hmem⟩⟩

variable {γ : Type}

theorem forall₂_of_common {q : α → γ → Prop} {s : β → γ → Prop} {cs : List γ} (hr : List.Forall₂ r as bs)
    (hq : List.Forall₂ q as cs) (h : ∀ a ∈ as, ∀ b c, r a b → q a c → s b c) : List.Forall₂ s bs cs := by
  induction hr generalizing cs with
  | nil =>
    cases hq
    exact .nil
  | cons hb _ ih =>
    cases hq with
    | cons hc hrest =>
      obtain ⟨hhead, htail⟩ := forall_mem_cons.mp h
      exact .cons (hhead _ _ hb hc) (ih hrest htail)

theorem flatMap_eq_of_forall₂ {f : α → List γ} {g : β → List γ} (hr : ∀ a b, r a b → f a = g b) (h : List.Forall₂ r as bs) :
    as.flatMap f = bs.flatMap g := by
  induction h with
  | nil => rfl
  | cons hab _ ih => rw [flatMap_cons, flatMap_cons, hr _ _ hab, ih]

def okOrZero (x : Except ε ℕ) : ℕ :=
  match x with
  | .ok n => n
  | .error _ => 0

def sumM (f : α → Except ε ℕ) (as : List α) : Except ε ℕ := do
  let ns ← as.mapM f
  return ns.sum

theorem sumM_eq_ok {f : α → Except ε ℕ} {n : ℕ} :
    sumM f as = .ok n ↔ (∀ a ∈ as, ∃ k, f a = .ok k) ∧ n = (as.map fun a => okOrZero (f a)).sum := by
  have hsum : ∀ {ns : List ℕ}, List.Forall₂ (fun a k => f a = .ok k) as ns →
      ns = as.map fun a => okOrZero (f a) := by
    intro ns h
    induction h with
    | nil => rfl
    | cons hk _ ih => rw [map_cons, ← ih, hk, okOrZero]
  simp only [sumM, bind_eq_ok, pure_eq_ok]
  constructor
  · rintro ⟨ns, hns, rfl⟩
    exact ⟨exists_mapM_eq_ok.mp ⟨ns, hns⟩, by rw [hsum (mapM_eq_ok.mp hns)]⟩
  · rintro ⟨h, rfl⟩
    obtain ⟨ns, hns⟩ := exists_mapM_eq_ok.mpr h
    exact ⟨ns, hns, by rw [hsum (mapM_eq_ok.mp hns)]⟩

/-! ### Loops -/

/-- What every iteration keeps holds after the loop, of all the items. -/
theorem foldlM_invariant (inv : List α → β → Prop) {init : β} (hinit : inv [] init)
    (hstep : ∀ done b a b', inv done b → step b a = .ok b' → inv (done ++ [a]) b') (h : as.foldlM step init = .ok b) :
    inv as b := by
  suffices ∀ done b₀, inv done b₀ → as.foldlM step b₀ = .ok b → inv (done ++ as) b by
    simpa using this [] init hinit h
  clear h hinit
  induction as with
  | nil =>
    intro done b₀ hinv h
    rw [foldlM_nil, pure_eq_ok] at h
    rwa [append_nil, ← h]
  | cons a as ih =>
    intro done b₀ hinv h
    rw [foldlM_cons, bind_eq_ok] at h
    obtain ⟨b₁, hb₁, hrest⟩ := h
    simpa using ih (done ++ [a]) b₁ (hstep done b₀ a b₁ hinv hb₁) hrest

theorem exists_foldlM_eq_ok (inv : β → Prop) (hstep : ∀ b, inv b → ∀ a ∈ as, ∃ b', step b a = .ok b' ∧ inv b') {init : β}
    (hinit : inv init) : ∃ b, as.foldlM step init = .ok b ∧ inv b := by
  induction as generalizing init with
  | nil => exact ⟨init, by rw [foldlM_nil, pure_eq_ok], hinit⟩
  | cons a as ih =>
    obtain ⟨b₁, hb₁, hinv⟩ := hstep init hinit a mem_cons_self
    obtain ⟨b, hb, hinvb⟩ := ih (fun b hb a' ha' => hstep b hb a' (mem_cons_of_mem a ha')) hinv
    exact ⟨b, by rw [foldlM_cons, bind_eq_ok]; exact ⟨b₁, hb₁, hb⟩, hinvb⟩

/-- A loop whose iterations raise or not whatever came before raises exactly when one of them does. -/
theorem exists_foldlM_iff {P : α → Prop} (hstep : ∀ b a, (∃ b', step b a = .ok b') ↔ P a) (init : β) :
    (∃ b, as.foldlM step init = .ok b) ↔ ∀ a ∈ as, P a := by
  induction as generalizing init with
  | nil => simp [pure_eq_ok]
  | cons a as ih =>
    simp only [foldlM_cons, bind_eq_ok, forall_mem_cons, ← hstep init a]
    constructor
    · intro ⟨b, b₁, hb₁, hb⟩
      exact ⟨⟨b₁, hb₁⟩, (ih b₁).mp ⟨b, hb⟩⟩
    · intro ⟨⟨b₁, hb₁⟩, h⟩
      obtain ⟨b, hb⟩ := (ih b₁).mpr h
      exact ⟨b, b₁, hb₁, hb⟩

/-! ### Two runs side by side -/

/-- Two computations raise the same, or return related values. -/
inductive SameOutcome (R : α → β → Prop) : Except ε α → Except ε β → Prop where
  | error (e : ε) : SameOutcome R (.error e) (.error e)
  | ok {a : α} {b : β} (h : R a b) : SameOutcome R (.ok a) (.ok b)

namespace SameOutcome

variable {α' β' δ : Type} {R : α → β → Prop} {S : α' → β' → Prop} {x : Except ε α} {y : Except ε β}

theorem bind {f : α → Except ε α'} {g : β → Except ε β'} (h : SameOutcome R x y)
    (hf : ∀ a b, R a b → SameOutcome S (f a) (g b)) : SameOutcome S (x >>= f) (y >>= g) := by
  cases h with
  | error e => exact .error e
  | ok hab => exact hf _ _ hab

theorem mapError (h : SameOutcome R x y) (f : ε → δ) : SameOutcome R (x.mapError f) (y.mapError f) := by
  cases h with
  | error e => exact .error (f e)
  | ok hab => exact .ok hab

theorem foldlM {f : α' → α → Except ε α'} {g : β' → β → Except ε β'}
    (hf : ∀ s s' a b, S s s' → R a b → SameOutcome S (f s a) (g s' b)) {as : List α} {bs : List β}
    (h : List.Forall₂ R as bs) {s : α'} {s' : β'} (hs : S s s') : SameOutcome S (as.foldlM f s) (bs.foldlM g s') := by
  induction h generalizing s s' with
  | nil => exact .ok hs
  | cons hab _ ih =>
    rw [foldlM_cons, foldlM_cons]
    exact (hf _ _ _ _ hs hab).bind fun _ _ => ih

theorem imp {T : α → β → Prop} (hRT : ∀ a b, R a b → T a b) (h : SameOutcome R x y) : SameOutcome T x y := by
  cases h with
  | error e => exact .error e
  | ok hab => exact .ok (hRT _ _ hab)

theorem exists_ok (h : SameOutcome R x y) {a : α} (hx : x = .ok a) : ∃ b, y = .ok b ∧ R a b := by
  cases h with
  | error e => cases hx
  | @ok a' b hab =>
    obtain rfl := Except.ok.inj hx
    exact ⟨b, rfl, hab⟩

end SameOutcome

theorem mapM_congr_forall₂ {f : α → Except ε γ} {g : β → Except ε γ} (h : List.Forall₂ (fun a b => f a = g b) as bs) :
    as.mapM f = bs.mapM g := by
  induction h with
  | nil => rfl
  | cons hab _ ih => rw [mapM_cons, mapM_cons, hab, ih]

theorem sumM_congr_forall₂ {f : α → Except ε ℕ} {g : β → Except ε ℕ} (h : List.Forall₂ (fun a b => f a = g b) as bs) :
    sumM f as = sumM g bs := by
  rw [sumM, sumM, mapM_congr_forall₂ h]

theorem sumM_cons (f : α → Except ε ℕ) (a : α) (as : List α) :
    sumM f (a :: as) = (f a >>= fun n => sumM f as >>= fun k => pure (n + k)) := by
  simp only [sumM, mapM_cons, bind_assoc, pure_bind, sum_cons]

end ContextProxy
