import Mathlib.Data.Fintype.Card
import Mathlib.Tactic.Common

/-!
# Processes that share a state

A family of processes takes atomic steps in any order. One step reads and changes the local state of one process and the shared state. What every action keeps of a local state holds of every process; what is said about all of them together is carried by `Reaches.invariant`.
-/

namespace ContextProxy

structure Crew (σ L ι : Type) where
  shared : σ
  locals : ι → L

namespace Crew

variable {σ L ι E : Type} [DecidableEq ι]

def put (w : Crew σ L ι) (i : ι) (next : L × σ) : Crew σ L ι := ⟨next.2, Function.update w.locals i next.1⟩

/-- One action of process `i`, if it can take it. -/
def step (act : E → L → σ → Option (L × σ)) (w : Crew σ L ι) (i : ι) (e : E) : Option (Crew σ L ι) :=
  (act e (w.locals i) w.shared).map (w.put i)

def run (act : E → L → σ → Option (L × σ)) : Crew σ L ι → List (ι × E) → Option (Crew σ L ι)
  | w, [] => some w
  | w, (i, e) :: schedule => (w.step act i e).bind fun next => next.run act schedule

def Reaches (act : E → L → σ → Option (L × σ)) (w w' : Crew σ L ι) : Prop := ∃ schedule, w.run act schedule = some w'

@[simp] theorem put_shared (w : Crew σ L ι) (i : ι) (next : L × σ) : (w.put i next).shared = next.2 := rfl

@[simp] theorem put_locals_self (w : Crew σ L ι) (i : ι) (next : L × σ) : (w.put i next).locals i = next.1 :=
  Function.update_self ..

@[simp] theorem put_locals_of_ne {w : Crew σ L ι} {i j : ι} (next : L × σ) (h : j ≠ i) :
    (w.put i next).locals j = w.locals j := Function.update_of_ne h _ _

variable {act : E → L → σ → Option (L × σ)} {w w' w'' : Crew σ L ι} {i : ι} {e : E} {next : L × σ}

theorem forall_put {P : ι → L → Prop} (hmoved : P i next.1) (hother : ∀ j, j ≠ i → P j (w.locals j)) (j : ι) :
    P j ((w.put i next).locals j) :=
  (Function.forall_update_iff w.locals P).mpr ⟨hmoved, hother⟩ j

namespace Reaches

theorem refl (w : Crew σ L ι) : Reaches act w w := ⟨[], rfl⟩

theorem head (hact : act e (w.locals i) w.shared = some next) (h : Reaches act (w.put i next) w') : Reaches act w w' := by
  obtain ⟨schedule, hrun⟩ := h
  refine ⟨(i, e) :: schedule, ?_⟩
  rw [run, step, hact]
  exact hrun

theorem trans (h : Reaches act w w') (h' : Reaches act w' w'') : Reaches act w w'' := by
  obtain ⟨schedule, hrun⟩ := h
  induction schedule generalizing w with
  | nil =>
    obtain rfl := Option.some.inj hrun
    exact h'
  | cons first schedule ih =>
    obtain ⟨u, hstep, hrun⟩ := Option.bind_eq_some_iff.mp hrun
    obtain ⟨next, hact, rfl⟩ := Option.map_eq_some_iff.mp hstep
    exact head hact (ih hrun)

/-- What every action keeps holds after every schedule. -/
theorem invariant {P : Crew σ L ι → Prop}
    (hact : ∀ w i e next, P w → act e (w.locals i) w.shared = some next → P (w.put i next))
    (h : Reaches act w w') (hw : P w) : P w' := by
  obtain ⟨schedule, hrun⟩ := h
  induction schedule generalizing w with
  | nil =>
    obtain rfl := Option.some.inj hrun
    exact hw
  | cons first schedule ih =>
    obtain ⟨u, hstep, hrun⟩ := Option.bind_eq_some_iff.mp hrun
    obtain ⟨next, hnext, rfl⟩ := Option.map_eq_some_iff.mp hstep
    exact ih (hact w first.1 first.2 next hw hnext) hrun

theorem forall_locals {P : L → Prop} (hact : ∀ e l s next, P l → act e l s = some next → P next.1)
    (h : Reaches act w w') (hw : ∀ i, P (w.locals i)) (i : ι) : P (w'.locals i) := by
  refine invariant (P := fun w => ∀ i, P (w.locals i)) ?_ h hw i
  intro w i e next hw hnext
  exact forall_put (P := fun _ => P) (hact e _ _ next (hw i) hnext) fun j _ => hw j

end Reaches

/-! ### Notes along a schedule -/

section Notes

variable {H : Type}

/-- What is noted along a schedule, action by action; the notes change nothing. -/
def noted (act : E → L → σ → Option (L × σ)) (note : ι → Crew σ L ι → Crew σ L ι → H → H) :
    H → Crew σ L ι → List (ι × E) → H
  | notes, _, [] => notes
  | notes, w, (i, e) :: schedule =>
    match w.step act i e with
    | none => notes
    | some next => noted act note (note i w next notes) next schedule

/-- What every action keeps of the state and the notes together holds after every schedule. -/
theorem noted_invariant {note : ι → Crew σ L ι → Crew σ L ι → H → H} {P : Crew σ L ι → H → Prop}
    (hact : ∀ w i e next notes, P w notes → act e (w.locals i) w.shared = some next →
      P (w.put i next) (note i w (w.put i next) notes))
    {schedule : List (ι × E)} {notes : H} (hrun : w.run act schedule = some w') (hw : P w notes) :
    P w' (noted act note notes w schedule) := by
  induction schedule generalizing w notes with
  | nil =>
    obtain rfl := Option.some.inj hrun
    exact hw
  | cons first schedule ih =>
    obtain ⟨u, hstep, hrun⟩ := Option.bind_eq_some_iff.mp hrun
    rw [noted, hstep]
    obtain ⟨next, hnext, rfl⟩ := Option.map_eq_some_iff.mp hstep
    exact ih hrun (hact w first.1 first.2 next notes hw hnext)

end Notes

/-! ### Counting processes -/

variable [Fintype ι] {p : L → Bool}

def count (p : L → Bool) (w : Crew σ L ι) : ℕ := (Finset.univ.filter fun i => p (w.locals i)).card

theorem count_put_of_gained (hbefore : p (w.locals i) = false) (hafter : p next.1 = true) :
    (w.put i next).count p = w.count p + 1 := by
  rw [count, count, ← Finset.card_insert_of_notMem (a := i) (by simp [hbefore])]
  congr 1
  ext j
  by_cases hj : j = i
  · simp [hj, hafter]
  · simp [hj]

theorem count_put_of_same (h : p next.1 = p (w.locals i)) : (w.put i next).count p = w.count p := by
  rw [count, count]
  congr 1
  ext j
  by_cases hj : j = i
  · simp [hj, h]
  · simp [hj]

end Crew

end ContextProxy
