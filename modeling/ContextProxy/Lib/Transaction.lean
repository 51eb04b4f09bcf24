import Mathlib.Data.List.Nodup
import Mathlib.Logic.Function.Basic
import Mathlib.Logic.Relation
import Mathlib.Tactic.Common

/-!
# Transactions that lock a row first

Calls run as transactions against shared tables. A transaction is a program of statements, each of which reads the committed rows of the transaction's key under its own pending writes; the writes become visible at commit. Some statements take an exclusive lock on the key, held to commit or abort, which may depend on the rows they find. Statements of different calls interleave freely, and a call may abort at any point.

In the runs in which every call takes the lock with its first statement, a call behaves as if it ran alone at the moment it commits: the committed tables are those of the committed calls one after the other (`Inv.serial`), and a step changes the rows of one key as such a call does (`Step.part_cases`). What a call does alone is said with `Ensures`, pre- and postconditions over the rows of its key.
-/

namespace ContextProxy

open List

/-! ### Programs -/

/-- A program sends statements and continues with their answers, until it returns or raises. -/
inductive Prog {Q : Type} (A : Q → Type) (ε α : Type) where
  | ret (result : α)
  | raise (error : ε)
  | ask (q : Q) (next : A q → Prog A ε α)

namespace Prog

variable {Q : Type} {A : Q → Type} {ε α β : Type}

def bind : Prog A ε α → (α → Prog A ε β) → Prog A ε β
  | ret a, f => f a
  | raise e, _ => raise e
  | ask q next, f => ask q fun answer => (next answer).bind f

instance : Monad (Prog A ε) where
  pure := ret
  bind := bind

def send (q : Q) : Prog A ε (A q) := ask q ret

def ofExcept : Except ε α → Prog A ε α
  | .ok a => ret a
  | .error e => raise e

def lift {Q' : Type} {A' : Q' → Type} (embed : Q → Q') (back : ∀ q, A' (embed q) → A q) : Prog A ε α → Prog A' ε α
  | ret a => ret a
  | raise e => raise e
  | ask q next => ask (embed q) fun answer => (next (back q answer)).lift embed back

def LocksFirst (locks : Q → Bool) : Prog A ε α → Prop
  | ask q _ => locks q = true
  | _ => True

/-- Whatever the answers are, every statement the program sends and every error it raises is of the given kinds. -/
def Emits (stmt : Q → Prop) (err : ε → Prop) : Prog A ε α → Prop
  | ret _ => True
  | raise e => err e
  | ask q next => stmt q ∧ ∀ answer, (next answer).Emits stmt err

variable {stmt stmt' : Q → Prop} {err err' : ε → Prop}

variable {p : Prog A ε α}

theorem Emits.bind {f : α → Prog A ε β} (hp : p.Emits stmt err) (hf : ∀ a, (f a).Emits stmt err) :
    (p >>= f).Emits stmt err := by
  induction p with
  | ret a => exact hf a
  | raise e => exact hp
  | ask q next ih => exact ⟨hp.1, fun answer => ih answer (hp.2 answer)⟩

theorem Emits.of_bind {f : α → Prog A ε β} (h : (p >>= f).Emits stmt err) : p.Emits stmt err := by
  induction p with
  | ret a => trivial
  | raise e => exact h
  | ask q next ih => exact ⟨h.1, fun answer => ih answer (h.2 answer)⟩

theorem Emits.mono (hp : p.Emits stmt err) (hstmt : ∀ q, stmt q → stmt' q) (herr : ∀ e, err e → err' e) :
    p.Emits stmt' err' := by
  induction p with
  | ret a => trivial
  | raise e => exact herr e hp
  | ask q next ih => exact ⟨hstmt q hp.1, fun answer => ih answer (hp.2 answer)⟩

theorem Emits.pure (a : α) : (pure a : Prog A ε α).Emits stmt err := trivial

theorem Emits.send {q : Q} (h : stmt q) : (send q : Prog A ε (A q)).Emits stmt err := ⟨h, fun _ => trivial⟩

theorem Emits.ofExcept {x : Except ε α} (h : ∀ e, x = .error e → err e) : (ofExcept x : Prog A ε α).Emits stmt err := by
  cases x with
  | ok a => trivial
  | error e => exact h e rfl

end Prog

/-- Rows grouped by key, and what each statement reads and writes. Statements see the rows of one key, and a write for one key leaves the rows of every other as they are. -/
structure Tables (κ Db σ W : Type) {Q : Type} (A : Q → Type) (ε : Type) where
  part : κ → Db → σ
  exec : (q : Q) → σ → Except ε (A q × List W)
  apply : κ → W → Db → Db
  applyPart : W → σ → σ
  part_apply : ∀ c w db, part c (apply c w db) = applyPart w (part c db)
  part_apply_of_ne : ∀ c c' w db, c' ≠ c → part c' (apply c w db) = part c' db

namespace Tables

variable {κ Db σ W Q : Type} {A : Q → Type} {ε α β : Type} (T : Tables κ Db σ W A ε)

def applyAll (c : κ) (ws : List W) (db : Db) : Db := ws.foldl (fun db w => T.apply c w db) db

def applyParts (ws : List W) (s : σ) : σ := ws.foldl (fun s w => T.applyPart w s) s

theorem part_applyAll (c : κ) (ws : List W) (db : Db) : T.part c (T.applyAll c ws db) = T.applyParts ws (T.part c db) := by
  induction ws generalizing db with
  | nil => rfl
  | cons w ws ih => exact (ih _).trans (congrArg (T.applyParts ws) (T.part_apply c w db))

theorem part_applyAll_of_ne {c c' : κ} (h : c' ≠ c) (ws : List W) (db : Db) :
    T.part c' (T.applyAll c ws db) = T.part c' db := by
  induction ws generalizing db with
  | nil => rfl
  | cons w ws ih => exact (ih _).trans (T.part_apply_of_ne c c' w db h)

theorem applyParts_append (ws ws' : List W) (s : σ) :
    T.applyParts (ws ++ ws') s = T.applyParts ws' (T.applyParts ws s) := foldl_append ..

/-- A program run alone on the rows of its key: its result and its writes. -/
def run : Prog A ε α → σ → Except ε (α × List W)
  | .ret a, _ => .ok (a, [])
  | .raise e, _ => .error e
  | .ask q next, s =>
    match T.exec q s with
    | .error e => .error e
    | .ok (answer, ws) => (run (next answer) (T.applyParts ws s)).map fun out => (out.1, ws ++ out.2)

variable {q : Q} {answer : A q} {next : A q → Prog A ε α} {s : σ} {ws : List W} {f : α → Prog A ε β} {p : Prog A ε α}

theorem run_ask (h : T.exec q s = .ok (answer, ws)) :
    T.run (.ask q next) s = (T.run (next answer) (T.applyParts ws s)).map fun out => (out.1, ws ++ out.2) := by
  rw [run, h]

theorem isOk_run_ask (h : T.exec q s = .ok (answer, ws)) :
    (T.run (.ask q next) s).isOk = (T.run (next answer) (T.applyParts ws s)).isOk := by
  rw [T.run_ask h]
  cases T.run (next answer) (T.applyParts ws s) with
  | error e => rfl
  | ok out => rfl

theorem isOk_run_ask_of_error {e : ε} (h : T.exec q s = .error e) : (T.run (.ask q next) s).isOk = false := by
  rw [run, h]
  rfl

theorem run_send (q : Q) (s : σ) : T.run (Prog.send q) s = T.exec q s := by
  rw [Prog.send, run]
  cases T.exec q s with
  | error e => rfl
  | ok out => simp [run, Except.map]

/-- A run of two programs one after the other: the second sees what the first has written. -/
theorem run_bind (p : Prog A ε α) (f : α → Prog A ε β) (s : σ) : T.run (p >>= f) s = T.run p s >>= fun out =>
      (T.run (f out.1) (T.applyParts out.2 s)).map fun out' => (out'.1, out.2 ++ out'.2) := by
  induction p generalizing s with
  | ret a =>
    change T.run (f a) s = (T.run (f a) s).map id
    cases T.run (f a) s <;> rfl
  | raise e => rfl
  | ask q next ih =>
    change T.run (.ask q fun answer => next answer >>= f) s = _
    rw [run, run]
    cases T.exec q s with
    | error e => rfl
    | ok out =>
      simp only [ih]
      cases T.run (next out.1) (T.applyParts out.2 s) with
      | error e => rfl
      | ok first =>
        simp only [Except.map, bind, Except.bind, applyParts_append]
        cases T.run (f first.1) (T.applyParts first.2 (T.applyParts out.2 s)) with
        | error e => rfl
        | ok second => simp [append_assoc]

/-- What is left of a run after some writes. -/
def runFrom (p : Prog A ε α) (ws : List W) (s : σ) : Except ε (α × List W) :=
  (T.run p (T.applyParts ws s)).map fun out => (out.1, ws ++ out.2)

theorem runFrom_nil (p : Prog A ε α) (s : σ) : T.runFrom p [] s = T.run p s := by
  rw [runFrom]
  change (T.run p s).map id = _
  cases T.run p s <;> rfl

theorem runFrom_ask {new : List W} (h : T.exec q (T.applyParts ws s) = .ok (answer, new)) :
    T.runFrom (.ask q next) ws s = T.runFrom (next answer) (ws ++ new) s := by
  simp only [runFrom, run, h, applyParts_append]
  cases T.run (next answer) (T.applyParts new (T.applyParts ws s)) with
  | error e => rfl
  | ok out => exact congrArg Except.ok (Prod.ext rfl (append_assoc ws new out.2).symm)

section Lift

variable {Q' : Type} {A' : Q' → Type} {κ' Db' σ' W' : Type} (T' : Tables κ' Db' σ' W' A' ε) {embed : Q → Q'}
  {back : ∀ q, A' (embed q) → A q} (proj : σ' → σ) {τ : Type} (other : σ' → τ)

/-- Over larger tables a program does to its own part what it does alone, and nothing to the rest. -/
theorem run_lift (hexec : ∀ q s answer ws, T'.exec (embed q) s = .ok (answer, ws) →
      ∃ own, T.exec q (proj s) = .ok (back q answer, own) ∧ proj (T'.applyParts ws s) = T.applyParts own (proj s) ∧
        other (T'.applyParts ws s) = other s)
    (p : Prog A ε α) {s : σ'} {a : α} {ws : List W'} (hrun : T'.run (p.lift embed back) s = .ok (a, ws)) :
    ∃ own, T.run p (proj s) = .ok (a, own) ∧ proj (T'.applyParts ws s) = T.applyParts own (proj s) ∧
      other (T'.applyParts ws s) = other s := by
  induction p generalizing s ws with
  | ret result =>
    simp only [Prog.lift, run, Except.ok.injEq, Prod.mk.injEq] at hrun
    obtain ⟨rfl, rfl⟩ := hrun
    exact ⟨[], rfl, rfl, rfl⟩
  | raise e => simp [Prog.lift, run] at hrun
  | ask q next ih =>
    rw [Prog.lift, run] at hrun
    cases hq : T'.exec (embed q) s with
    | error e => simp [hq] at hrun
    | ok out =>
      simp only [hq] at hrun
      obtain ⟨own, hown, hproj, hother⟩ := hexec q s out.1 out.2 hq
      cases hrest : T'.run ((next (back q out.1)).lift embed back) (T'.applyParts out.2 s) with
      | error e => simp [hrest, Except.map] at hrun
      | ok rest =>
        simp only [hrest, Except.map, Except.ok.injEq, Prod.mk.injEq] at hrun
        obtain ⟨rfl, rfl⟩ := hrun
        obtain ⟨own', hown', hproj', hother'⟩ := ih (back q out.1) hrest
        rw [hproj] at hown' hproj'
        refine ⟨own ++ own', ?_, ?_, ?_⟩
        · rw [run_ask T hown, hown']
          rfl
        · rw [applyParts_append, applyParts_append, hproj']
        · rw [applyParts_append, hother', hother]

end Lift

/-! ### Pre- and postconditions -/

/-- Run alone on rows that satisfy the precondition, the program returns only with the postcondition. -/
def Ensures (pre : σ → Prop) (p : Prog A ε α) (post : α → σ → Prop) : Prop :=
  ∀ s, pre s → ∀ a ws, T.run p s = .ok (a, ws) → post a (T.applyParts ws s)

variable {T} {pre : σ → Prop} {post : α → σ → Prop}

theorem Ensures.ret {a : α} (h : ∀ s, pre s → post a s) : T.Ensures pre (.ret a) post := by
  intro s hs a' ws hrun
  simp only [run, Except.ok.injEq, Prod.mk.injEq] at hrun
  obtain ⟨rfl, rfl⟩ := hrun
  exact h s hs

theorem Ensures.trivial (pre : σ → Prop) (p : Prog A ε α) : T.Ensures pre p fun _ _ => True :=
  fun _ _ _ _ _ => True.intro

theorem Ensures.raise (e : ε) : T.Ensures pre (.raise e) post := by
  intro s _ a ws hrun
  simp [run] at hrun

theorem Ensures.ask (mid : A q → σ → Prop)
    (hexec : ∀ s, pre s → ∀ answer ws, T.exec q s = .ok (answer, ws) → mid answer (T.applyParts ws s))
    (hnext : ∀ answer, T.Ensures (mid answer) (next answer) post) : T.Ensures pre (.ask q next) post := by
  intro s hs a ws hrun
  rw [run] at hrun
  cases hq : T.exec q s with
  | error e => simp [hq] at hrun
  | ok out =>
    simp only [hq] at hrun
    cases hrest : T.run (next out.1) (T.applyParts out.2 s) with
    | error e => simp [hrest, Except.map] at hrun
    | ok rest =>
      simp only [hrest, Except.map, Except.ok.injEq, Prod.mk.injEq] at hrun
      obtain ⟨rfl, rfl⟩ := hrun
      rw [applyParts_append]
      exact hnext out.1 _ (hexec s hs out.1 out.2 hq) rest.1 rest.2 hrest

variable {post' : β → σ → Prop}

theorem Ensures.bind (h : T.Ensures pre p post) (hf : ∀ a, T.Ensures (post a) (f a) post') :
    T.Ensures pre (p >>= f) post' := by
  intro s hs b ws hrun
  rw [run_bind] at hrun
  cases hp : T.run p s with
  | error e => simp [hp, Bind.bind, Except.bind] at hrun
  | ok first =>
    cases hq : T.run (f first.1) (T.applyParts first.2 s) with
    | error e => simp [hp, hq, Bind.bind, Except.bind, Except.map] at hrun
    | ok second =>
      simp only [hp, hq, Bind.bind, Except.bind, Except.map, Except.ok.injEq, Prod.mk.injEq] at hrun
      obtain ⟨rfl, rfl⟩ := hrun
      rw [applyParts_append]
      exact hf first.1 _ (h s hs first.1 first.2 hp) second.1 second.2 hq

theorem Ensures.send {post : A q → σ → Prop}
    (h : ∀ s, pre s → ∀ answer ws, T.exec q s = .ok (answer, ws) → post answer (T.applyParts ws s)) :
    T.Ensures pre (Prog.send q) post := .ask post h fun _ => .ret fun _ hs => hs

theorem Ensures.of_and {P : Prop} (h : P → T.Ensures pre p post) :
    T.Ensures (fun s => P ∧ pre s) p post := fun s hs => h hs.1 s hs.2

theorem Ensures.ofExcept {x : Except ε α} (h : ∀ a, x = .ok a → ∀ s, pre s → post a s) :
    T.Ensures pre (Prog.ofExcept x) post := by
  cases x with
  | error e => exact .raise e
  | ok a => exact .ret (h a rfl)

/-- What every statement of a program keeps, the program keeps. -/
theorem Ensures.of_emits {stmt : Q → Prop} {err : ε → Prop} {I : σ → Prop} (hp : p.Emits stmt err)
    (h : ∀ q, stmt q → ∀ s, I s → ∀ answer ws, T.exec q s = .ok (answer, ws) → I (T.applyParts ws s)) :
    T.Ensures I p fun _ => I := by
  induction p with
  | ret a => exact .ret fun _ hs => hs
  | raise e => exact .raise e
  | ask q next ih => exact .ask (fun _ => I) (h q hp.1) fun answer => ih answer (hp.2 answer)

/-- Run alone on rows that satisfy the precondition, the program raises nothing but the errors in question. -/
def FailsOnly (T : Tables κ Db σ W A ε) (pre : σ → Prop) (p : Prog A ε α) (err : ε → Prop) : Prop :=
  ∀ s, pre s → ∀ e, T.run p s = .error e → err e

variable {err : ε → Prop}

theorem FailsOnly.ret (a : α) : T.FailsOnly pre (.ret a) err := by
  intro s _ e hrun
  simp [run] at hrun

theorem FailsOnly.raise {e : ε} (h : err e) : T.FailsOnly pre (.raise e : Prog A ε α) err := by
  intro s _ e' hrun
  obtain rfl : e = e' := by simpa [run] using hrun
  exact h

theorem FailsOnly.ask (mid : A q → σ → Prop) (herror : ∀ s, pre s → ∀ e, T.exec q s = .error e → err e)
    (hexec : ∀ s, pre s → ∀ answer ws, T.exec q s = .ok (answer, ws) → mid answer (T.applyParts ws s))
    (hnext : ∀ answer, T.FailsOnly (mid answer) (next answer) err) : T.FailsOnly pre (.ask q next) err := by
  intro s hs e hrun
  rw [run] at hrun
  cases hq : T.exec q s with
  | error e' =>
    obtain rfl : e' = e := by simpa [hq] using hrun
    exact herror s hs _ hq
  | ok out =>
    simp only [hq] at hrun
    cases hrest : T.run (next out.1) (T.applyParts out.2 s) with
    | error e' =>
      obtain rfl : e' = e := by simpa [hrest, Except.map] using hrun
      exact hnext out.1 _ (hexec s hs out.1 out.2 hq) _ hrest
    | ok rest => simp [hrest, Except.map] at hrun

theorem FailsOnly.bind (hp : T.FailsOnly pre p err) (h : T.Ensures pre p post) (hf : ∀ a, T.FailsOnly (post a) (f a) err) :
    T.FailsOnly pre (p >>= f) err := by
  intro s hs e hrun
  rw [run_bind] at hrun
  cases hfirst : T.run p s with
  | error e' =>
    obtain rfl : e' = e := by simpa [hfirst, Bind.bind, Except.bind] using hrun
    exact hp s hs e' hfirst
  | ok first =>
    cases hsecond : T.run (f first.1) (T.applyParts first.2 s) with
    | error e' =>
      obtain rfl : e' = e := by simpa [hfirst, hsecond, Bind.bind, Except.bind, Except.map] using hrun
      exact hf first.1 _ (h s hs first.1 first.2 hfirst) e' hsecond
    | ok second => simp [hfirst, hsecond, Bind.bind, Except.bind, Except.map] at hrun

theorem FailsOnly.send (h : ∀ s, pre s → ∀ e, T.exec q s = .error e → err e) :
    T.FailsOnly pre (Prog.send q) err := .ask (fun _ _ => True) h (fun _ _ _ _ _ => trivial) fun a => .ret a

theorem FailsOnly.ofExcept {x : Except ε α} (h : ∀ e, x = .error e → err e) : T.FailsOnly pre (Prog.ofExcept x) err := by
  cases x with
  | error e => exact .raise (h e rfl)
  | ok a => exact .ret a

theorem FailsOnly.of_emits {stmt : Q → Prop} {raises : ε → Prop} (hp : p.Emits stmt raises)
    (hstmt : ∀ q, stmt q → ∀ s e, T.exec q s = .error e → err e) (hraise : ∀ e, raises e → err e) :
    T.FailsOnly pre p err := by
  induction p generalizing pre with
  | ret a => exact .ret a
  | raise e => exact .raise (hraise e hp)
  | ask q next ih =>
    exact .ask (fun _ _ => True) (fun s _ e => hstmt q hp.1 s e) (fun _ _ _ _ _ => trivial) fun answer =>
      ih answer (hp.2 answer)

/-- Run alone on rows that satisfy the precondition, the program returns with the postcondition or raises one of the errors in question. -/
structure Runs (T : Tables κ Db σ W A ε) (pre : σ → Prop) (p : Prog A ε α) (post : α → σ → Prop) (err : ε → Prop) :
    Prop where
  ensures : T.Ensures pre p post
  fails : T.FailsOnly pre p err

theorem Runs.ret {a : α} (h : ∀ s, pre s → post a s) : T.Runs pre (.ret a) post err := ⟨.ret h, .ret a⟩

theorem Runs.bind (h : T.Runs pre p post err) (hf : ∀ a, T.Runs (post a) (f a) post' err) :
    T.Runs pre (p >>= f) post' err :=
  ⟨h.ensures.bind fun a => (hf a).ensures, h.fails.bind h.ensures fun a => (hf a).fails⟩

theorem Runs.send {post : A q → σ → Prop}
    (h : ∀ s, pre s → (∀ answer ws, T.exec q s = .ok (answer, ws) → post answer (T.applyParts ws s)) ∧
      ∀ e, T.exec q s = .error e → err e) : T.Runs pre (Prog.send q) post err :=
  ⟨.send fun s hs => (h s hs).1, .send fun s hs => (h s hs).2⟩

theorem Runs.of_and {P : Prop} (h : P → T.Runs pre p post err) : T.Runs (fun s => P ∧ pre s) p post err :=
  ⟨.of_and fun hP => (h hP).ensures, fun s hs => (h hs.1).fails s hs.2⟩

end Tables

/-! ### Interleaved transactions -/

/-- A transaction is under way with pending writes, or it has ended. -/
inductive Proc {Q : Type} (A : Q → Type) (ε α W : Type) where
  | active (rest : Prog A ε α) (writes : List W)
  | committed (result : α)
  | aborted (error : Option ε)

def Proc.Ended {Q : Type} {A : Q → Type} {ε α W : Type} : Proc A ε α W → Prop
  | .active .. => False
  | .committed _ | .aborted _ => True

/-- The committed tables, the holder of each lock, every transaction, and the order of the commits so far. -/
structure World (κ Db ι W : Type) {Q : Type} (A : Q → Type) (ε α : Type) where
  store : Db
  owner : κ → Option ι
  proc : ι → Proc A ε α W
  history : List ι

/-- Calls on shared tables, each on one key. Whether a statement takes the lock of the key may depend on the rows it finds: a row that is not there cannot be locked. -/
structure System (κ Db σ W ι : Type) {Q : Type} (A : Q → Type) (ε α : Type) where
  tables : Tables κ Db σ W A ε
  locks : Q → σ → Bool
  key : ι → κ
  prog : ι → Prog A ε α

namespace System

variable {κ Db σ W ι Q : Type} {A : Q → Type} {ε α : Type}
variable (S : System κ Db σ W ι A ε α)

def init (db : Db) : World κ Db ι W A ε α where
  store := db
  owner := fun _ => none
  proc := fun i => .active (S.prog i) []
  history := []

/-- The committed rows of its key and its own writes are what a transaction sees. -/
def seen (i : ι) (writes : List W) (db : Db) : σ := S.tables.part (S.key i) (S.tables.applyAll (S.key i) writes db)

theorem seen_eq (i : ι) (writes : List W) (db : Db) :
    S.seen i writes db = S.tables.applyParts writes (S.tables.part (S.key i) db) := S.tables.part_applyAll ..

section Steps

variable [DecidableEq κ] [DecidableEq ι]

def release (i : ι) (owner : κ → Option ι) : κ → Option ι := fun k => if owner k = some i then none else owner k

/-- One step of transaction `i`. A statement that takes the lock waits until nobody else holds it. A transaction can be aborted at any point, by an error it raises, by a statement that fails, or from outside. -/
inductive Step (i : ι) (w : World κ Db ι W A ε α) : World κ Db ι W A ε α → Prop
  | statement {q : Q} {next : A q → Prog A ε α} {writes new : List W} {answer : A q}
      (hproc : w.proc i = .active (.ask q next) writes)
      (hlock : S.locks q (S.seen i writes w.store) = true → w.owner (S.key i) = none ∨ w.owner (S.key i) = some i)
      (hexec : S.tables.exec q (S.seen i writes w.store) = .ok (answer, new)) :
      Step i w { w with
        owner := if S.locks q (S.seen i writes w.store) then Function.update w.owner (S.key i) (some i) else w.owner
        proc := Function.update w.proc i (.active (next answer) (writes ++ new)) }
  | commit {result : α} {writes : List W} (hproc : w.proc i = .active (.ret result) writes) :
      Step i w {
        store := S.tables.applyAll (S.key i) writes w.store
        owner := release i w.owner
        proc := Function.update w.proc i (.committed result)
        history := w.history ++ [i] }
  | raise {error : ε} {writes : List W} (hproc : w.proc i = .active (.raise error) writes) :
      Step i w { w with
        owner := release i w.owner, proc := Function.update w.proc i (.aborted (some error)) }
  | statementFails {q : Q} {next : A q → Prog A ε α} {writes : List W} {error : ε}
      (hproc : w.proc i = .active (.ask q next) writes)
      (hexec : S.tables.exec q (S.seen i writes w.store) = .error error) :
      Step i w { w with
        owner := release i w.owner, proc := Function.update w.proc i (.aborted (some error)) }
  | crash {rest : Prog A ε α} {writes : List W} (hproc : w.proc i = .active rest writes) :
      Step i w { w with owner := release i w.owner, proc := Function.update w.proc i (.aborted none) }

def Steps : World κ Db ι W A ε α → World κ Db ι W A ε α → Prop := Relation.ReflTransGen fun w w' => ∃ i, S.Step i w w'

abbrev Reachable (db : Db) (w : World κ Db ι W A ε α) : Prop := S.Steps (S.init db) w

def LocksFirst (i : ι) (w w' : World κ Db ι W A ε α) : Prop :=
  w.proc i = .active (S.prog i) [] →
    (w'.proc i).Ended ∨ (S.prog i).LocksFirst fun q => S.locks q (S.tables.part (S.key i) w.store)

/-- The runs in which every transaction takes the lock with its first statement. -/
def LockedSteps : World κ Db ι W A ε α → World κ Db ι W A ε α → Prop :=
  Relation.ReflTransGen fun w w' => ∃ i, S.Step i w w' ∧ S.LocksFirst i w w'

end Steps

/-- Whatever the rows are, every call takes the lock with its first statement. -/
def Locking : Prop := ∀ i s, (S.prog i).LocksFirst fun q => S.locks q s

/-- What call `i` makes of the tables when it runs alone: its writes, or nothing if it fails. -/
def runAlone (db : Db) (i : ι) : Db :=
  match S.tables.run (S.prog i) (S.tables.part (S.key i) db) with
  | .ok (_, ws) => S.tables.applyAll (S.key i) ws db
  | .error _ => db

def serial (db : Db) (calls : List ι) : Db := calls.foldl S.runAlone db

theorem serial_concat (db : Db) (calls : List ι) (i : ι) :
    S.serial db (calls ++ [i]) = S.runAlone (S.serial db calls) i := by
  rw [serial, foldl_append]
  rfl

/-- If transaction `i` is under way, it will do what it would do alone on the committed rows of its key, and it holds the lock unless it has not started. -/
def RunsAlone (w : World κ Db ι W A ε α) (i : ι) : Prop :=
  ∀ rest writes, w.proc i = .active rest writes →
    S.tables.run (S.prog i) (S.tables.part (S.key i) w.store)
        = S.tables.runFrom rest writes (S.tables.part (S.key i) w.store) ∧
      ((rest = S.prog i ∧ writes = []) ∨ w.owner (S.key i) = some i)

/-- What holds in every world that is reached with the locks taken. -/
structure Inv (db : Db) (w : World κ Db ι W A ε α) : Prop where
  alone : ∀ i, S.RunsAlone w i
  serial : w.store = S.serial db w.history
  /-- The committed calls succeed in the serial run as well, with the same results. -/
  results : ∀ before i after, w.history = before ++ i :: after → ∃ result ws, w.proc i = .committed result ∧
    S.tables.run (S.prog i) (S.tables.part (S.key i) (S.serial db before)) = .ok (result, ws)
  committed : ∀ i result, w.proc i = .committed result → i ∈ w.history
  nodup : w.history.Nodup

variable {S} {db : Db} {w w' : World κ Db ι W A ε α} {i j : ι}

theorem inv_init : S.Inv db (S.init db) where
  alone := by
    intro i rest writes hproc
    obtain ⟨rfl, rfl⟩ : S.prog i = rest ∧ [] = writes := by simpa [init] using hproc
    exact ⟨(S.tables.runFrom_nil _ _).symm, .inl ⟨rfl, rfl⟩⟩
  serial := rfl
  results := by simp [init]
  committed := by simp [init]
  nodup := nodup_nil

theorem Inv.notMem_history (h : S.Inv db w) {rest : Prog A ε α} {writes : List W}
    (hproc : w.proc i = .active rest writes) : i ∉ w.history := by
  intro hmem
  obtain ⟨before, after, hsplit⟩ := append_of_mem hmem
  obtain ⟨result, -, hcommitted, -⟩ := h.results before i after hsplit
  simp [hproc] at hcommitted

/-- A transaction that returns has done exactly what it would do alone now. -/
theorem Inv.run_of_ret (h : S.Inv db w) {result : α} {writes : List W} (hproc : w.proc i = .active (.ret result) writes) :
    S.tables.run (S.prog i) (S.tables.part (S.key i) w.store) = .ok (result, writes) := by
  rw [(h.alone i _ _ hproc).1]
  simp [Tables.runFrom, Tables.run, Except.map]

/-- Another transaction does not notice a change that leaves it its lock and the rows of its key. -/
theorem RunsAlone.of_keep (h : S.RunsAlone w j) (hproc : w'.proc j = w.proc j) (hkeep : w.owner (S.key j) = some j →
      w'.owner (S.key j) = some j ∧ S.tables.part (S.key j) w'.store = S.tables.part (S.key j) w.store) :
    S.RunsAlone w' j := by
  intro rest writes hactive
  rw [hproc] at hactive
  obtain ⟨hrun, ⟨rfl, rfl⟩ | howner⟩ := h rest writes hactive
  · exact ⟨(S.tables.runFrom_nil _ _).symm, .inl ⟨rfl, rfl⟩⟩
  · obtain ⟨howner', hpart⟩ := hkeep howner
    rw [hpart]
    exact ⟨hrun, .inr howner'⟩

section Preservation

variable [DecidableEq ι]

variable {owner : κ → Option ι} {writes : List W} {result : α} {P : σ → Prop}

theorem release_of_ne {k : κ} (hj : j ≠ i) (h : owner k = some j) : release i owner k = some j := by
  rw [release, if_neg (by simp [h, hj]), h]

variable {rest : Prog A ε α} {u : World κ Db ι W A ε α}

theorem Inv.move (h : S.Inv db w) (hactive : w.proc i = .active rest writes) (owner : κ → Option ι) (p : Proc A ε α W)
    (hp : ∀ result, p ≠ .committed result) (hothers : ∀ j, j ≠ i → w.owner (S.key j) = some j → owner (S.key j) = some j)
    (hself : S.RunsAlone { w with owner := owner, proc := Function.update w.proc i p } i) :
    S.Inv db { w with owner := owner, proc := Function.update w.proc i p } where
  alone := by
    intro j
    by_cases hj : j = i
    · exact hj ▸ hself
    · exact (h.alone j).of_keep (Function.update_of_ne hj ..) fun howner => ⟨hothers j hj howner, rfl⟩
  serial := h.serial
  results := by
    intro before j after hsplit
    have hj : j ≠ i := by
      rintro rfl
      exact h.notMem_history hactive (hsplit ▸ by simp)
    obtain ⟨result, ws, hcommitted, hrun⟩ := h.results before j after hsplit
    exact ⟨result, ws, (Function.update_of_ne hj ..).trans hcommitted, hrun⟩
  committed := by
    intro j result hj
    by_cases hji : j = i
    · subst hji
      exact absurd ((Function.update_self ..).symm.trans hj) (hp result)
    · exact h.committed j result ((Function.update_of_ne hji ..).symm.trans hj)
  nodup := h.nodup

theorem Inv.abort (h : S.Inv db w) (hactive : w.proc i = .active rest writes) (error : Option ε) :
    S.Inv db { w with owner := release i w.owner, proc := Function.update w.proc i (.aborted error) } := by
  refine h.move hactive _ _ (by simp) (fun j hj => release_of_ne hj) ?_
  intro rest writes hproc
  simp at hproc

theorem Inv.commit (h : S.Inv db w) (hproc : w.proc i = .active (.ret result) writes) : S.Inv db {
      store := S.tables.applyAll (S.key i) writes w.store
      owner := release i w.owner
      proc := Function.update w.proc i (.committed result)
      history := w.history ++ [i] } where
  alone := by
    intro j
    by_cases hj : j = i
    · intro rest writes hactive
      subst hj
      simp at hactive
    refine (h.alone j).of_keep (Function.update_of_ne hj ..) fun howner => ⟨release_of_ne hj howner, ?_⟩
    -- the rows of `j`'s key are untouched: `i` has written nothing, or holds another lock
    rcases (h.alone i _ _ hproc).2 with ⟨-, rfl⟩ | howner'
    · rfl
    · apply S.tables.part_applyAll_of_ne
      intro hkey
      rw [hkey, howner'] at howner
      exact hj (Option.some.inj howner).symm
  serial := by
    rw [serial_concat, ← h.serial, runAlone, h.run_of_ret hproc]
  results := by
    intro before j after hsplit
    rcases eq_nil_or_concat' after with rfl | ⟨after, b, rfl⟩
    · obtain ⟨hbefore, hj⟩ := append_inj' hsplit rfl
      obtain rfl : i = j := by simpa using hj
      refine ⟨result, writes, Function.update_self .., ?_⟩
      rw [← hbefore, ← h.serial]
      exact h.run_of_ret hproc
    · rw [← cons_append, ← append_assoc] at hsplit
      have hcut : w.history = before ++ j :: after := (append_inj' hsplit rfl).1
      have hj : j ≠ i := by
        rintro rfl
        exact h.notMem_history hproc (hcut ▸ by simp)
      obtain ⟨result, ws, hcommitted, hrun⟩ := h.results before j after hcut
      exact ⟨result, ws, (Function.update_of_ne hj ..).trans hcommitted, hrun⟩
  committed := by
    intro j result' hj
    by_cases hji : j = i
    · simp [hji]
    · have := h.committed j result' ((Function.update_of_ne hji ..).symm.trans hj)
      simp [this]
  nodup := nodup_append.mpr ⟨h.nodup, nodup_singleton i, by
    intro a ha b hb hab
    rw [mem_singleton.mp hb] at hab
    exact h.notMem_history hproc (hab ▸ ha)⟩

variable [DecidableEq κ]

theorem Inv.statement (h : S.Inv db w) {q : Q} {next : A q → Prog A ε α} {new : List W} {answer : A q}
    (hproc : w.proc i = .active (.ask q next) writes)
    (hlock : S.locks q (S.seen i writes w.store) = true → w.owner (S.key i) = none ∨ w.owner (S.key i) = some i)
    (hexec : S.tables.exec q (S.seen i writes w.store) = .ok (answer, new))
    (hfirst : S.prog i = .ask q next → writes = [] → S.locks q (S.tables.part (S.key i) w.store) = true) :
    S.Inv db { w with
      owner := if S.locks q (S.seen i writes w.store) then Function.update w.owner (S.key i) (some i) else w.owner
      proc := Function.update w.proc i (.active (next answer) (writes ++ new)) } := by
  refine h.move hproc _ _ (by simp) ?_ ?_
  · intro j hj howner
    split
    · rename_i hq
      rw [Function.update_of_ne, howner]
      intro hkey
      rw [hkey] at howner
      rcases hlock hq with hnone | hself
      · simp [hnone] at howner
      · exact hj (Option.some.inj (howner.symm.trans hself))
    · exact howner
  · intro rest writes' hactive
    obtain ⟨rfl, rfl⟩ : next answer = rest ∧ writes ++ new = writes' := by simpa using hactive
    obtain ⟨hrun, hholds⟩ := h.alone i _ _ hproc
    rw [S.seen_eq] at hexec
    refine ⟨hrun.trans (S.tables.runFrom_ask hexec), .inr ?_⟩
    -- the first statement takes the lock; a later one has it already
    rcases hholds with ⟨hprog, rfl⟩ | howner
    · have hlocks : S.locks q (S.seen i [] w.store) = true := hfirst hprog.symm rfl
      rw [if_pos hlocks]
      exact Function.update_self ..
    · split
      · exact Function.update_self ..
      · exact howner

theorem Inv.step (h : S.Inv db w) (hstep : S.Step i w w') (hfirst : S.LocksFirst i w w') : S.Inv db w' := by
  cases hstep with
  | statement hproc hlock hexec =>
    refine h.statement hproc hlock hexec fun hprog hwrites => ?_
    rw [LocksFirst, hproc, hprog, hwrites] at hfirst
    exact (hfirst rfl).resolve_left (by simp [Proc.Ended])
  | commit hproc => exact h.commit hproc
  | raise hproc => exact h.abort hproc _
  | statementFails hproc _ => exact h.abort hproc _
  | crash hproc => exact h.abort hproc _

theorem Steps.step (h : S.Steps u w) (hstep : S.Step i w w') : S.Steps u w' := h.tail ⟨i, hstep⟩

theorem LockedSteps.steps (h : S.LockedSteps w w') : S.Steps w w' := by
  induction h with
  | refl => exact .refl
  | tail _ hstep ih =>
    obtain ⟨i, hstep, -⟩ := hstep
    exact ih.step hstep

theorem Steps.locked (h : S.Steps w w') (hlocking : S.Locking) : S.LockedSteps w w' := by
  induction h with
  | refl => exact .refl
  | tail _ hstep ih =>
    obtain ⟨i, hstep⟩ := hstep
    exact ih.tail ⟨i, hstep, fun _ => .inr (hlocking i _)⟩

theorem inv_of_steps (h : S.LockedSteps (S.init db) w) : S.Inv db w := by
  induction h with
  | refl => exact inv_init
  | tail _ hstep ih =>
    obtain ⟨i, hstep, hfirst⟩ := hstep
    exact ih.step hstep hfirst

/-- A step commits its call, with the effect the call has alone, or leaves the committed tables as they are. -/
theorem Step.effect (h : S.Step i w w') (hinv : S.Inv db w) :
    (w'.store = w.store ∧ w'.history = w.history ∧ ∀ result, w'.proc i ≠ .committed result) ∨
      ∃ result ws, w'.proc i = .committed result ∧ w'.history = w.history ++ [i] ∧
        S.tables.run (S.prog i) (S.tables.part (S.key i) w.store) = .ok (result, ws) ∧
          w'.store = S.tables.applyAll (S.key i) ws w.store := by
  cases h with
  | commit hproc => exact .inr ⟨_, _, Function.update_self .., rfl, hinv.run_of_ret hproc, rfl⟩
  | statement | raise | statementFails | crash => exact .inl ⟨rfl, rfl, by simp⟩

theorem Step.proc_of_ne (h : S.Step i w w') (hj : j ≠ i) : w'.proc j = w.proc j := by
  cases h <;> exact Function.update_of_ne hj ..

theorem Step.error (h : S.Step i w w') (hinv : S.Inv db w) {error : ε} (herror : w'.proc i = .aborted (some error)) :
    S.tables.run (S.prog i) (S.tables.part (S.key i) w.store) = .error error := by
  cases h with
  | statement | commit | crash => simp at herror
  | raise hproc =>
    obtain rfl : _ = error := by simpa using herror
    rw [(hinv.alone i _ _ hproc).1]
    rfl
  | statementFails hproc hexec =>
    obtain rfl : _ = error := by simpa using herror
    rw [S.seen_eq] at hexec
    rw [(hinv.alone i _ _ hproc).1, Tables.runFrom, Tables.run, hexec]
    rfl

theorem LockedSteps.history_grows (h : S.LockedSteps (S.init db) w) (hsteps : S.LockedSteps w w') :
    w.history <+: w'.history := by
  induction hsteps with
  | refl => exact prefix_refl _
  | tail hsteps hstep ih =>
    obtain ⟨i, hstep, -⟩ := hstep
    apply ih.trans
    rcases hstep.effect (inv_of_steps (h.trans hsteps)) with ⟨-, hhistory, -⟩ | ⟨-, -, -, hhistory, -⟩
    · exact hhistory ▸ prefix_refl _
    · exact hhistory ▸ prefix_append _ _

theorem exists_error_of_aborted (h : S.LockedSteps (S.init db) w) {error : ε} (hproc : w.proc i = .aborted (some error)) :
    ∃ u, S.LockedSteps (S.init db) u ∧ S.LockedSteps u w ∧
      S.tables.run (S.prog i) (S.tables.part (S.key i) u.store) = .error error := by
  induction h with
  | refl => simp [init] at hproc
  | @tail u v hsteps hstep ih =>
    obtain ⟨j, hstep, hfirst⟩ := hstep
    by_cases hij : i = j
    · subst hij
      exact ⟨u, hsteps, .single ⟨i, hstep, hfirst⟩, hstep.error (inv_of_steps hsteps) hproc⟩
    · obtain ⟨u', hinit, huu, hrun⟩ := ih ((hstep.proc_of_ne hij).symm.trans hproc)
      exact ⟨u', hinit, huu.tail ⟨j, hstep, hfirst⟩, hrun⟩

theorem Step.part_cases (h : S.Step i w w') (hinv : S.Inv db w) (c : κ) :
    S.tables.part c w'.store = S.tables.part c w.store ∨
      (c = S.key i ∧ ∃ result ws, S.tables.run (S.prog i) (S.tables.part c w.store) = .ok (result, ws) ∧
        S.tables.part c w'.store = S.tables.applyParts ws (S.tables.part c w.store)) := by
  rcases h.effect hinv with ⟨hstore, -⟩ | ⟨result, ws, -, -, hrun, hstore⟩
  · exact .inl (by rw [hstore])
  · rw [hstore]
    by_cases hc : c = S.key i
    · subst hc
      exact .inr ⟨rfl, result, ws, hrun, S.tables.part_applyAll _ _ _⟩
    · exact .inl (S.tables.part_applyAll_of_ne hc _ _)

theorem Step.part_of_ne (h : S.Step i w w') (hinv : S.Inv db w) {c : κ} (hc : c ≠ S.key i) :
    S.tables.part c w'.store = S.tables.part c w.store :=
  (h.part_cases hinv c).resolve_right fun hcase => hc hcase.1

/-- A property of the rows of a key that every call keeps when it runs alone holds in every reachable world. -/
theorem part_invariant (hinit : ∀ c, P (S.tables.part c db)) (hcall : ∀ i, S.tables.Ensures P (S.prog i) fun _ => P)
    (h : S.LockedSteps (S.init db) w) (c : κ) : P (S.tables.part c w.store) := by
  induction h with
  | refl => exact hinit c
  | tail hsteps hstep ih =>
    obtain ⟨i, hstep, -⟩ := hstep
    rcases hstep.part_cases (inv_of_steps hsteps) c with hsame | ⟨-, result, ws, hrun, hpart⟩
    · rw [hsame]
      exact ih
    · rw [hpart]
      exact hcall i _ ih result ws hrun

/-- If every call alone relates the rows before it to the rows after it, so does every run of steps. -/
theorem part_rel {r : σ → σ → Prop} (hrefl : ∀ s, r s s) (htrans : ∀ a b c, r a b → r b c → r a c)
    (hinit : ∀ c, P (S.tables.part c db)) (hcall : ∀ i, S.tables.Ensures P (S.prog i) fun _ => P)
    (hrel : ∀ i s, S.tables.Ensures (fun s' => P s' ∧ s' = s) (S.prog i) fun _ => r s) (h : S.LockedSteps (S.init db) w)
    (hsteps : S.LockedSteps w w') (c : κ) : r (S.tables.part c w.store) (S.tables.part c w'.store) := by
  induction hsteps with
  | refl => exact hrefl _
  | @tail u v huv hstep ih =>
    obtain ⟨i, hstep, -⟩ := hstep
    have hu : S.LockedSteps (S.init db) u := h.trans huv
    refine htrans _ _ _ ih ?_
    rcases hstep.part_cases (inv_of_steps hu) c with hsame | ⟨-, result, ws, hrun, hpart⟩
    · rw [hsame]
      exact hrefl _
    · rw [hpart]
      exact hrel i _ _ ⟨part_invariant hinit hcall hu c, rfl⟩ result ws hrun

/-- What no write changes, no run changes, whether the locks are taken or not. -/
theorem Steps.part_keeps (hP : ∀ write s, P s → P (S.tables.applyPart write s)) (h : S.Steps w w') (c : κ)
    (hw : P (S.tables.part c w.store)) : P (S.tables.part c w'.store) := by
  have hwrites : ∀ (ws : List W) s, P s → P (S.tables.applyParts ws s) := by
    intro ws
    induction ws with
    | nil => exact fun s hs => hs
    | cons write ws ih => exact fun s hs => ih _ (hP write s hs)
  induction h with
  | refl => exact hw
  | tail _ hstep ih =>
    obtain ⟨i, hstep⟩ := hstep
    cases hstep with
    | commit hproc =>
      by_cases hc : c = S.key i
      · subst hc
        rw [S.tables.part_applyAll]
        exact hwrites _ _ ih
      · rw [S.tables.part_applyAll_of_ne hc]
        exact ih
    | statement | raise | statementFails | crash => exact ih

/-! ### A call that nothing interrupts -/

/-- The lock of `i`'s key is free or held by `i`, and no other lock is taken. -/
def OnlyHolder (S : System κ Db σ W ι A ε α) (i : ι) (owner : κ → Option ι) : Prop :=
  ∀ k, owner k = none ∨ (k = S.key i ∧ owner k = some i)

omit [DecidableEq κ] in
theorem OnlyHolder.release (h : S.OnlyHolder i owner) : release i owner = fun _ => none := by
  funext k
  rw [System.release]
  rcases h k with hnone | ⟨-, hsome⟩
  · simp [hnone]
  · simp [hsome]

omit [DecidableEq ι] in
theorem OnlyHolder.lock (h : S.OnlyHolder i owner) (q : Q) (s : σ) :
    S.OnlyHolder i (if S.locks q s then Function.update owner (S.key i) (some i) else owner) := by
  intro k
  split
  · by_cases hk : k = S.key i
    · exact .inr ⟨hk, hk ▸ Function.update_self ..⟩
    · rw [Function.update_of_ne hk]
      exact h k
  · exact h k

omit [DecidableEq ι] [DecidableEq κ] in
theorem OnlyHolder.free (h : S.OnlyHolder i owner) :
    owner (S.key i) = none ∨ owner (S.key i) = some i := (h (S.key i)).imp id And.right

variable {store : Db} {owner : κ → Option ι} {proc : ι → Proc A ε α W} {history : List ι} {p : Prog A ε α}
  {writes ws : List W}

/-- A call can run to its commit without an interruption, with the effect it has alone. -/
theorem steps_commit (howner : S.OnlyHolder i owner) (hproc : proc i = .active p writes)
    (hrun : S.tables.runFrom p writes (S.tables.part (S.key i) store) = .ok (result, ws)) :
    S.Steps ⟨store, owner, proc, history⟩
      ⟨S.tables.applyAll (S.key i) ws store, fun _ => none, Function.update proc i (.committed result), history ++ [i]⟩ := by
  induction p generalizing owner proc writes with
  | ret a =>
    obtain ⟨rfl, rfl⟩ : a = result ∧ writes = ws := by simpa [Tables.runFrom, Tables.run, Except.map] using hrun
    rw [← howner.release]
    exact .single ⟨i, .commit hproc⟩
  | raise e => simp [Tables.runFrom, Tables.run, Except.map] at hrun
  | ask q next ih =>
    cases hexec : S.tables.exec q (S.tables.applyParts writes (S.tables.part (S.key i) store)) with
    | error e => simp [Tables.runFrom, Tables.run, hexec, Except.map] at hrun
    | ok out =>
      rw [S.tables.runFrom_ask hexec] at hrun
      have hstep := ih out.1 (howner.lock q (S.seen i writes store)) (Function.update_self i _ proc) hrun
      rw [Function.update_idem] at hstep
      refine .head ⟨i, .statement hproc (fun _ => howner.free) ?_⟩ hstep
      rw [S.seen_eq]
      exact hexec

theorem Steps.commit (h : S.Steps u w) (howner : S.OnlyHolder i w.owner) (hproc : w.proc i = .active p writes)
    (hrun : S.tables.runFrom p writes (S.tables.part (S.key i) w.store) = .ok (result, ws)) :
    S.Steps u ⟨S.tables.applyAll (S.key i) ws w.store, fun _ => none, Function.update w.proc i (.committed result),
      w.history ++ [i]⟩ := h.trans (steps_commit howner hproc hrun)

theorem steps_error (howner : S.OnlyHolder i owner) (hproc : proc i = .active p writes) {error : ε}
    (hrun : S.tables.runFrom p writes (S.tables.part (S.key i) store) = .error error) :
    S.Steps ⟨store, owner, proc, history⟩
      ⟨store, fun _ => none, Function.update proc i (.aborted (some error)), history⟩ := by
  induction p generalizing owner proc writes with
  | ret a => simp [Tables.runFrom, Tables.run, Except.map] at hrun
  | raise e =>
    obtain rfl : e = error := by simpa [Tables.runFrom, Tables.run, Except.map] using hrun
    rw [← howner.release]
    exact .single ⟨i, .raise hproc⟩
  | ask q next ih =>
    cases hexec : S.tables.exec q (S.tables.applyParts writes (S.tables.part (S.key i) store)) with
    | error e =>
      obtain rfl : e = error := by simpa [Tables.runFrom, Tables.run, hexec, Except.map] using hrun
      rw [← howner.release]
      refine .single ⟨i, .statementFails hproc ?_⟩
      rw [S.seen_eq]
      exact hexec
    | ok out =>
      rw [S.tables.runFrom_ask hexec] at hrun
      have hstep := ih out.1 (howner.lock q (S.seen i writes store)) (Function.update_self i _ proc) hrun
      rw [Function.update_idem] at hstep
      refine .head ⟨i, .statement hproc (fun _ => howner.free) ?_⟩ hstep
      rw [S.seen_eq]
      exact hexec

end Preservation

end System

end ContextProxy
