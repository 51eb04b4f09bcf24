import ContextProxy.Lib.Transaction

/-!
# Runs of a program

A program of calls meets an outside that answers as it likes. A run is the list of the calls with their answers, and how the program ends. A run of two programs one after the other is a run of each (`runs_bind`), and a `try` changes how a program ends and not what it calls (`runs_attempt`), so runs are read off the text from the front.
-/

namespace ContextProxy

namespace Prog

variable {Q : Type} {A : Q → Type} {ε ε' α β : Type}

/-- `try` around a program: what it raises becomes a value. -/
def attempt : Prog A ε α → Prog A ε' (Except ε α)
  | ret a => ret (.ok a)
  | raise e => ret (.error e)
  | ask q next => ask q fun answer => (next answer).attempt

/-- The calls of a run with their answers, and how it ends. -/
inductive Runs : Prog A ε α → List (Sigma A) → Except ε α → Prop
  | ret (a : α) : Runs (.ret a) [] (.ok a)
  | raise (e : ε) : Runs (.raise e) [] (.error e)
  | ask {q : Q} {next : A q → Prog A ε α} (answer : A q) {trace : List (Sigma A)} {outcome : Except ε α}
      (h : Runs (next answer) trace outcome) : Runs (.ask q next) (⟨q, answer⟩ :: trace) outcome

variable {trace : List (Sigma A)} {outcome : Except ε α}

theorem runs_pure {a : α} : Runs (pure a : Prog A ε α) trace outcome ↔ trace = [] ∧ outcome = .ok a := by
  constructor
  · intro h
    cases h
    exact ⟨rfl, rfl⟩
  · intro ⟨htrace, houtcome⟩
    subst htrace houtcome
    exact .ret a

theorem runs_raise {e : ε} : Runs (raise e : Prog A ε α) trace outcome ↔ trace = [] ∧ outcome = .error e := by
  constructor
  · intro h
    cases h
    exact ⟨rfl, rfl⟩
  · intro ⟨htrace, houtcome⟩
    subst htrace houtcome
    exact .raise e

theorem runs_ask {q : Q} {next : A q → Prog A ε α} :
    Runs (ask q next) trace outcome ↔ ∃ answer rest, trace = ⟨q, answer⟩ :: rest ∧ Runs (next answer) rest outcome := by
  constructor
  · intro h
    cases h with
    | ask answer h => exact ⟨answer, _, rfl, h⟩
  · intro ⟨answer, rest, htrace, h⟩
    subst htrace
    exact .ask answer h

theorem runs_ofExcept {x : Except ε α} : Runs (ofExcept x : Prog A ε α) trace outcome ↔ trace = [] ∧ outcome = x := by
  cases x with
  | ok a => exact runs_pure
  | error e => exact runs_raise

/-- The second program runs only if the first returns. -/
theorem runs_bind {p : Prog A ε β} {f : β → Prog A ε α} : Runs (p >>= f) trace outcome ↔
      (∃ e, Runs p trace (.error e) ∧ outcome = .error e) ∨
        ∃ b front back, Runs p front (.ok b) ∧ Runs (f b) back outcome ∧ trace = front ++ back := by
  induction p generalizing trace with
  | ret b =>
    constructor
    · intro h
      exact .inr ⟨b, [], trace, .ret b, h, rfl⟩
    · intro h
      rcases h with ⟨e, h, -⟩ | ⟨b', front, back, hp, hf, rfl⟩
      · cases h
      · cases hp
        exact hf
  | raise e =>
    constructor
    · intro h
      obtain ⟨rfl, rfl⟩ := runs_raise.mp h
      exact .inl ⟨e, .raise e, rfl⟩
    · intro h
      rcases h with ⟨e', h, rfl⟩ | ⟨b, front, back, hp, -⟩
      · obtain ⟨rfl, herror⟩ := runs_raise.mp h
        obtain rfl := Except.error.inj herror
        exact .raise e'
      · cases hp
  | ask q next ih =>
    change Runs (.ask q fun answer => next answer >>= f) trace outcome ↔ _
    rw [runs_ask]
    constructor
    · intro ⟨answer, rest, htrace, h⟩
      subst htrace
      rcases (ih answer).mp h with ⟨e, hp, herror⟩ | ⟨b, front, back, hp, hf, hrest⟩
      · exact .inl ⟨e, .ask answer hp, herror⟩
      · subst hrest
        exact .inr ⟨b, ⟨q, answer⟩ :: front, back, .ask answer hp, hf, rfl⟩
    · intro h
      rcases h with ⟨e, hp, herror⟩ | ⟨b, front, back, hp, hf, htrace⟩
      · cases hp with
        | ask answer hp => exact ⟨answer, _, rfl, (ih answer).mpr (.inl ⟨e, hp, herror⟩)⟩
      · cases hp with
        | ask answer hp =>
          subst htrace
          exact ⟨answer, _, rfl, (ih answer).mpr (.inr ⟨b, _, back, hp, hf, rfl⟩)⟩

theorem runs_bind_ofExcept {p : Prog A ε β} {f : β → Except ε α} :
    Runs (p >>= fun b => ofExcept (f b)) trace outcome ↔ ∃ result, Runs p trace result ∧ outcome = result >>= f := by
  rw [runs_bind]
  constructor
  · intro h
    rcases h with ⟨e, hp, rfl⟩ | ⟨b, front, back, hp, hf, rfl⟩
    · exact ⟨.error e, hp, rfl⟩
    · obtain ⟨rfl, rfl⟩ := runs_ofExcept.mp hf
      rw [List.append_nil]
      exact ⟨.ok b, hp, rfl⟩
  · intro ⟨result, hp, houtcome⟩
    subst houtcome
    cases result with
    | error e => exact .inl ⟨e, hp, rfl⟩
    | ok b => exact .inr ⟨b, trace, [], hp, runs_ofExcept.mpr ⟨rfl, rfl⟩, (List.append_nil _).symm⟩

theorem runs_send_bind {q : Q} {f : A q → Prog A ε α} :
    Runs (send q >>= f) trace outcome ↔ ∃ answer rest, trace = ⟨q, answer⟩ :: rest ∧ Runs (f answer) rest outcome :=
  runs_ask

theorem runs_attempt {p : Prog A ε α} {result : Except ε' (Except ε α)} :
    Runs p.attempt trace result ↔ ∃ outcome, Runs p trace outcome ∧ result = .ok outcome := by
  induction p generalizing trace with
  | ret a =>
    refine runs_pure.trans ⟨fun ⟨htrace, hresult⟩ => ⟨.ok a, runs_pure.mpr ⟨htrace, rfl⟩, hresult⟩, ?_⟩
    intro ⟨outcome, h, hresult⟩
    obtain ⟨htrace, rfl⟩ := runs_pure.mp h
    exact ⟨htrace, hresult⟩
  | raise e =>
    refine runs_pure.trans ⟨fun ⟨htrace, hresult⟩ => ⟨.error e, runs_raise.mpr ⟨htrace, rfl⟩, hresult⟩, ?_⟩
    intro ⟨outcome, h, hresult⟩
    obtain ⟨htrace, rfl⟩ := runs_raise.mp h
    exact ⟨htrace, hresult⟩
  | ask q next ih =>
    rw [attempt, runs_ask]
    constructor
    · intro ⟨answer, rest, htrace, h⟩
      obtain ⟨outcome, hp, hresult⟩ := (ih answer).mp h
      exact ⟨outcome, runs_ask.mpr ⟨answer, rest, htrace, hp⟩, hresult⟩
    · intro ⟨outcome, h, hresult⟩
      obtain ⟨answer, rest, htrace, hp⟩ := runs_ask.mp h
      exact ⟨answer, rest, htrace, (ih answer).mpr ⟨outcome, hp, hresult⟩⟩

/-- The run in which every call gets the answer that is given for it. -/
def play (answers : ∀ q, A q) : Prog A ε α → List (Sigma A) × Except ε α
  | ret a => ([], .ok a)
  | raise e => ([], .error e)
  | ask q next =>
    let run := (next (answers q)).play answers
    (⟨q, answers q⟩ :: run.1, run.2)

theorem runs_play (answers : ∀ q, A q) (p : Prog A ε α) : Runs p (p.play answers).1 (p.play answers).2 := by
  induction p with
  | ret a => exact .ret a
  | raise e => exact .raise e
  | ask q next ih => exact .ask (answers q) (ih (answers q))

theorem runs_attempt_bind {p : Prog A ε' β} {f : Except ε' β → Prog A ε α} : Runs (p.attempt >>= f) trace outcome ↔
      ∃ result front back, Runs p front result ∧ Runs (f result) back outcome ∧ trace = front ++ back := by
  rw [runs_bind]
  constructor
  · intro h
    rcases h with ⟨e, h, -⟩ | ⟨result, front, back, h, hf, htrace⟩
    · obtain ⟨_, -, herror⟩ := runs_attempt.mp h
      cases herror
    · obtain ⟨result', hp, hresult⟩ := runs_attempt.mp h
      obtain rfl := Except.ok.inj hresult
      exact ⟨result, front, back, hp, hf, htrace⟩
  · intro ⟨result, front, back, hp, hf, htrace⟩
    exact .inr ⟨result, front, back, runs_attempt.mpr ⟨result, hp, rfl⟩, hf, htrace⟩

end Prog

end ContextProxy
