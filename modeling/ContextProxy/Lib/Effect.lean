import Mathlib.Tactic.Common

/-!
# Programs with a state that outlives an exception

A program reads and changes a state and may raise. What it did before it raised stays done, and a handler goes on from there. `exec` runs a program; its lemmas run the parts of a program in turn.
-/

namespace ContextProxy

abbrev Eff (S ε : Type) := ExceptT ε (StateM S)

namespace Eff

variable {S ε α β : Type}

def exec (p : Eff S ε α) (s : S) : Except ε α × S := p.run.run s

@[simp] theorem exec_pure (a : α) (s : S) : exec (pure a : Eff S ε α) s = (.ok a, s) := rfl

@[simp] theorem exec_modify (f : S → S) (s : S) : exec (modify f : Eff S ε PUnit) s = (.ok ⟨⟩, f s) := rfl

@[simp] theorem exec_get (s : S) : exec (get : Eff S ε S) s = (.ok s, s) := rfl

@[simp] theorem exec_set (s s' : S) : exec (set s' : Eff S ε PUnit) s = (.ok ⟨⟩, s') := rfl

theorem exec_bind (p : Eff S ε α) (f : α → Eff S ε β) (s : S) : exec (p >>= f) s = match exec p s with
      | (.ok a, s') => exec (f a) s'
      | (.error e, s') => (.error e, s') := by
  simp only [exec, ExceptT.run_bind, StateT.run_bind]
  rcases h : (p.run.run s : Except ε α × S) with ⟨_ | a, s'⟩
  · rfl
  · rfl

variable {f : α → Eff S ε β}

theorem exec_bind_of_ok {p : Eff S ε α} {s s' : S} {a : α} (h : exec p s = (.ok a, s')) :
    exec (p >>= f) s = exec (f a) s' := by
  rw [exec_bind, h]

theorem exec_bind_of_error {p : Eff S ε α} {s s' : S} {e : ε} (h : exec p s = (.error e, s')) :
    exec (p >>= f) s = (.error e, s') := by
  rw [exec_bind, h]

theorem exec_tryCatch (p : Eff S ε α) (handler : ε → Eff S ε α) (s : S) :
    exec (tryCatch p handler) s = match exec p s with
      | (.ok a, s') => (.ok a, s')
      | (.error e, s') => exec (handler e) s' := by
  have hrun : exec (tryCatch p handler) s = (fun outcome : Except ε α × S =>
      StateT.run (match outcome.1 with
        | .ok a => pure (.ok a)
        | .error e => (handler e).run) outcome.2) (exec p s) := rfl
  rw [hrun]
  rcases exec p s with ⟨_ | a, s'⟩
  · rfl
  · rfl

theorem exec_adapt {ε' : Type} (f : ε → ε') (p : Eff S ε α) (s : S) :
    exec (ExceptT.adapt f p) s = ((exec p s).1.mapError f, (exec p s).2) := rfl

end Eff

end ContextProxy
