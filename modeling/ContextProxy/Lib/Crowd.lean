import ContextProxy.Lib.Interleaving
import ContextProxy.Lib.Runs

/-!
# Programs that share a state

Many programs run at once. At each of its calls a program waits, and the outside answers it and changes the shared state in one step. What a program has called so far is the start of one of its runs, whatever the others do, so what its runs say about its calls may be used at every step (`invariant_of_reaches`).
-/

namespace ContextProxy

/-! ### Calls in order -/

section Grounded

variable {α : Type} {P : List α → α → Prop}

/-- Every entry of a list is justified by what comes before it. -/
def Grounded (P : List α → α → Prop) : List α → List α → Prop
  | _, [] => True
  | seen, a :: rest => P seen a ∧ Grounded P (seen ++ [a]) rest

variable {seen : List α}

theorem grounded_append {front back : List α} :
    Grounded P seen (front ++ back) ↔ Grounded P seen front ∧ Grounded P (seen ++ front) back := by
  induction front generalizing seen with
  | nil => simp [Grounded]
  | cons a front ih =>
    rw [List.cons_append, Grounded, Grounded, ih, List.append_assoc]
    exact and_assoc.symm

theorem Grounded.of_split {front back : List α} {a : α} (h : Grounded P seen (front ++ a :: back)) : P (seen ++ front) a :=
  (grounded_append.mp h).2.1

theorem grounded_of_forall {list : List α} (h : ∀ a ∈ list, ∀ seen, P seen a) : Grounded P seen list := by
  induction list generalizing seen with
  | nil => trivial
  | cons a list ih =>
    obtain ⟨ha, hlist⟩ := List.forall_mem_cons.mp h
    exact ⟨ha seen, ih hlist⟩

end Grounded

/-! ### Programs cut at a call -/

namespace Prog

variable {Q : Type} {A : Q → Type} {ε α : Type}

/-- The program makes the calls and goes on as the other one. -/
inductive Leads : Prog A ε α → List (Sigma A) → Prog A ε α → Prop
  | refl (p : Prog A ε α) : Leads p [] p
  | ask {q : Q} {next : A q → Prog A ε α} (answer : A q) {trace : List (Sigma A)} {rest : Prog A ε α}
      (h : Leads (next answer) trace rest) : Leads (.ask q next) (⟨q, answer⟩ :: trace) rest

variable {p rest : Prog A ε α} {trace more : List (Sigma A)} {outcome : Except ε α}

theorem Leads.runs (h : Leads p trace rest) (hrest : Runs rest more outcome) : Runs p (trace ++ more) outcome := by
  induction h with
  | refl p => exact hrest
  | ask answer _ ih => exact .ask answer (ih hrest)

theorem Leads.concat {q : Q} {next : A q → Prog A ε α} (h : Leads p trace (.ask q next)) (answer : A q) :
    Leads p (trace ++ [⟨q, answer⟩]) (next answer) := by
  generalize hrest : Prog.ask q next = rest at h
  induction h with
  | refl p =>
    subst hrest
    exact .ask answer (.refl _)
  | ask first _ ih => exact .ask first (ih hrest)

end Prog

/-! ### Threads -/

/-- A program under way: the calls it has made, and what is left of it. -/
structure Thread {Q : Type} (A : Q → Type) (ε α : Type) where
  calls : List (Sigma A)
  rest : Prog A ε α

namespace Thread

variable {Q : Type} {A : Q → Type} {ε α : Type} {σ R ι : Type}

/-- The outside answers the call that a thread waits at. -/
def act (respond : R → σ → (q : Q) → A q × σ) (reaction : R) (thread : Thread A ε α) (shared : σ) :
    Option (Thread A ε α × σ) :=
  match thread.rest with
  | .ask q next =>
    let (answer, shared) := respond reaction shared q
    some (⟨thread.calls ++ [⟨q, answer⟩], next answer⟩, shared)
  | _ => none

variable {respond : R → σ → (q : Q) → A q × σ}

theorem act_eq_some {reaction : R} {thread : Thread A ε α} {shared : σ} {next : Thread A ε α × σ}
    (h : act respond reaction thread shared = some next) :
    ∃ q rest, thread.rest = .ask q rest ∧ next.1.calls = thread.calls ++ [⟨q, (respond reaction shared q).1⟩] ∧
      next.1.rest = rest (respond reaction shared q).1 ∧ next.2 = (respond reaction shared q).2 := by
  unfold act at h
  split at h
  next q rest hrest =>
    obtain rfl := Option.some.inj h
    exact ⟨q, rest, hrest, rfl, rfl, rfl⟩
  next => cases h

def crowd (shared : σ) (programs : ι → Prog A ε α) : Crew σ (Thread A ε α) ι := ⟨shared, fun i => ⟨[], programs i⟩⟩

variable [DecidableEq ι] {shared : σ} {programs : ι → Prog A ε α} {w : Crew σ (Thread A ε α) ι}

/-- What every answered call keeps, where the calls of a thread with the new one are the start of a run of its program. -/
theorem invariant_of_reaches (answers : ∀ q, A q) {P : σ → (ι → List (Sigma A)) → Prop}
    (hstep : ∀ shared calls i reaction q, P shared calls →
      (∃ more outcome, (programs i).Runs (calls i ++ ⟨q, (respond reaction shared q).1⟩ :: more) outcome) →
      P (respond reaction shared q).2 (Function.update calls i (calls i ++ [⟨q, (respond reaction shared q).1⟩])))
    (hstart : P shared fun _ => []) (h : (crowd shared programs).Reaches (act respond) w) :
    P w.shared fun i => (w.locals i).calls := by
  refine (Crew.Reaches.invariant (P := fun w : Crew σ (Thread A ε α) ι =>
    (∀ i, (programs i).Leads (w.locals i).calls (w.locals i).rest) ∧ P w.shared fun i => (w.locals i).calls)
    ?_ h ⟨fun i => .refl _, hstart⟩).2
  intro w i reaction next ⟨hleads, hw⟩ hact
  obtain ⟨q, rest, hrest, hcalls, hnext, hshared⟩ := act_eq_some hact
  have hlead := hleads i
  rw [hrest] at hlead
  have hconcat := hlead.concat (respond reaction w.shared q).1
  refine ⟨?_, ?_⟩
  · refine Crew.forall_put (P := fun i (thread : Thread A ε α) => (programs i).Leads thread.calls thread.rest) ?_
      fun j _ => hleads j
    rw [hcalls, hnext]
    exact hconcat
  · have hruns := hconcat.runs (Prog.runs_play answers (rest (respond reaction w.shared q).1))
    rw [List.append_assoc] at hruns
    have hkept := hstep w.shared (fun i => (w.locals i).calls) i reaction q hw ⟨_, _, hruns⟩
    rw [← hcalls, ← hshared] at hkept
    have hupdate : (fun j => ((w.put i next).locals j).calls)
        = Function.update (fun j => (w.locals j).calls) i next.1.calls := by
      funext j
      by_cases hj : j = i
      · subst hj
        simp
      · simp [hj]
    rw [hupdate]
    exact hkept

end Thread

end ContextProxy
