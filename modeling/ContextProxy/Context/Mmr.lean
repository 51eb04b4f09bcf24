import Mathlib.Algebra.Group.Defs
import Mathlib.Data.List.Sort
import Mathlib.Data.Prod.Lex
import Mathlib.Data.String.Basic

/-!
# Maximal marginal relevance

`mmr_select` over any ordered type of scores. The arithmetic is whatever the type provides: no law is assumed, so rounding floats are covered. Packing relies on two facts: the selection returns keys it was given, and not more of them than the limit.
-/

namespace ContextProxy

open List

/-- What the code does with scores: compare them and calculate. No law relates the two. -/
class Score (F : Type) extends LinearOrder F, Zero F, One F, Add F, Sub F, Mul F, Neg F, Div F, NatCast F

variable {F : Type} [Score F]

/-- What a pair is compared by: `(-mmr, -score, key)`, as a tuple. -/
abbrev Rank (F : Type) : Type := F ×ₗ F ×ₗ String

/-- The key of the first sort: `(-score, key)`. -/
def relevanceRank (pair : F × String) : F ×ₗ String := toLex (-pair.1, pair.2)

/-- `max(values, default=0.0)`. -/
def maxOrZero : List F → F
  | [] => 0
  | value :: values => values.foldl max value

theorem maxOrZero_spec {values : List F} (h : values ≠ []) :
    maxOrZero values ∈ values ∧ ∀ value ∈ values, value ≤ maxOrZero values := by
  cases values with
  | nil => exact absurd rfl h
  | cons value values =>
    rw [maxOrZero]
    clear h
    induction values generalizing value with
    | nil => simp
    | cons next values ih =>
      obtain ⟨hmem, hle⟩ := ih (max value next)
      rw [foldl_cons]
      have hmax := hle _ mem_cons_self
      refine ⟨?_, forall_mem_cons.mpr ⟨(le_max_left _ _).trans hmax, forall_mem_cons.mpr
        ⟨(le_max_right _ _).trans hmax, fun other hother => hle other (mem_cons_of_mem _ hother)⟩⟩⟩
      rcases mem_cons.mp hmem with heq | hmem
      · rw [heq]
        rcases max_choice value next with hvalue | hnext
        · rw [hvalue]
          exact mem_cons_self
        · rw [hnext]
          exact mem_cons_of_mem _ mem_cons_self
      · exact mem_cons_of_mem _ (mem_cons_of_mem _ hmem)

theorem maxOrZero_perm {values values' : List F} (h : values.Perm values') : maxOrZero values = maxOrZero values' := by
  by_cases hnil : values = []
  · subst hnil
    rw [h.nil_eq]
  · have hnil' : values' ≠ [] := fun hnil' => hnil (hnil' ▸ h).eq_nil
    obtain ⟨hmem, hle⟩ := maxOrZero_spec hnil
    obtain ⟨hmem', hle'⟩ := maxOrZero_spec hnil'
    exact le_antisymm (hle' _ (h.mem_iff.mp hmem)) (hle _ (h.mem_iff.mpr hmem'))

def mmrRank (similarity : String → String → F) (lam : F) (selected : List String) (pair : F × String) : Rank F :=
  let maxSim := maxOrZero (selected.map (similarity pair.2))
  toLex (-(lam * pair.1 - (1 - lam) * maxSim), toLex (-pair.1, pair.2))

/-- One iteration of the inner loop, with the best rank and its key so far. -/
def betterRank (rank : F × String → Rank F) (best : Option (Rank F × String)) (pair : F × String) :
    Option (Rank F × String) :=
  match best with
  | none => some (rank pair, pair.2)
  | some b => if rank pair < b.1 then some (rank pair, pair.2) else some b

def bestRank (rank : F × String → Rank F) (remaining : List (F × String)) : Option (Rank F × String) :=
  remaining.foldl (betterRank rank) none

/-- The `while` loop. Every iteration takes its key out of `remaining`, so as many iterations as there are pairs are enough. -/
def mmrLoop (similarity : String → String → F) (limit : ℤ) (lam : F) :
    ℕ → List (F × String) → List String → List String
  | 0, _, selected => selected
  | fuel + 1, remaining, selected =>
    if remaining ≠ [] ∧ (selected.length : ℤ) < limit then
      match bestRank (mmrRank similarity lam selected) remaining with
      | none => selected
      | some best =>
        mmrLoop similarity limit lam fuel (remaining.filter (·.2 ≠ best.2)) (selected ++ [best.2])
    else selected

def mmrSelect (scored : List (F × String)) (similarity : String → String → F) (limit : ℤ) (lam : F) : List String :=
  if limit ≤ 0 then []
  else
    match scored.insertionSort fun a b => relevanceRank a ≤ relevanceRank b with
    | [] => []
    | first :: remaining => mmrLoop similarity limit lam remaining.length remaining [first.2]

variable {remaining scored : List (F × String)} {fuel : ℕ} {key : String} {lam : F} {limit : ℤ} {selected : List String}
  {similarity : String → String → F}

theorem mem_of_bestRank {rank : F × String → Rank F} {best : Rank F × String} (h : bestRank rank remaining = some best) :
    best.2 ∈ remaining.map Prod.snd := by
  suffices ∀ init, remaining.foldl (betterRank rank) init = some best →
      init = some best ∨ best.2 ∈ remaining.map Prod.snd from (this none h).resolve_left (by simp)
  clear h
  induction remaining with
  | nil =>
    intro init h
    exact .inl h
  | cons pair remaining ih =>
    intro init h
    rw [map_cons, mem_cons]
    rcases ih _ h with hinit | hmem
    · cases init with
      | none => exact .inr (.inl (congrArg Prod.snd (Option.some.inj hinit)).symm)
      | some b =>
        rw [betterRank] at hinit
        split at hinit
        · exact .inr (.inl (congrArg Prod.snd (Option.some.inj hinit)).symm)
        · exact .inl hinit
    · exact .inr (.inr hmem)

theorem mem_of_mem_mmrLoop (h : key ∈ mmrLoop similarity limit lam fuel remaining selected) :
    key ∈ selected ∨ key ∈ remaining.map Prod.snd := by
  induction fuel generalizing remaining selected with
  | zero => exact .inl h
  | succ fuel ih =>
    rw [mmrLoop] at h
    split at h
    · split at h
      · exact .inl h
      · rename_i best hbest
        rcases ih h with hselected | hremaining
        · rcases mem_append.mp hselected with hold | hnew
          · exact .inl hold
          · rw [mem_singleton.mp hnew]
            exact .inr (mem_of_bestRank hbest)
        · obtain ⟨p, hp, rfl⟩ := mem_map.mp hremaining
          exact .inr (mem_map.mpr ⟨p, (mem_filter.mp hp).1, rfl⟩)
    · exact .inl h

theorem mem_of_mem_mmrSelect (h : key ∈ mmrSelect scored similarity limit lam) : key ∈ scored.map Prod.snd := by
  rw [mmrSelect] at h
  split at h
  · simp at h
  · split at h
    · simp at h
    · rename_i first remaining hsorted
      have hperm := perm_insertionSort (fun a b => relevanceRank a ≤ relevanceRank b) scored
      rw [hsorted] at hperm
      refine (hperm.map Prod.snd).subset ?_
      rcases mem_of_mem_mmrLoop h with hfirst | hremaining
      · rw [mem_singleton.mp hfirst]
        exact mem_cons_self
      · exact mem_cons_of_mem _ hremaining

theorem nodup_mmrLoop (h : (selected ++ remaining.map Prod.snd).Nodup) :
    (mmrLoop similarity limit lam fuel remaining selected).Nodup := by
  induction fuel generalizing remaining selected with
  | zero => exact h.of_append_left
  | succ fuel ih =>
    rw [mmrLoop]
    split
    · split
      · exact h.of_append_left
      · rename_i best hbest
        apply ih
        obtain ⟨hselected, hremaining, hapart⟩ := nodup_append'.mp h
        have hfresh : best.2 ∉ selected := fun hmem => hapart hmem (mem_of_bestRank hbest)
        have hsub : ((remaining.filter (·.2 ≠ best.2)).map Prod.snd).Sublist (remaining.map Prod.snd) :=
          filter_sublist.map _
        rw [append_assoc, singleton_append, nodup_append']
        refine ⟨hselected, nodup_cons.mpr ⟨?_, hremaining.sublist hsub⟩, ?_⟩
        · intro hmem
          obtain ⟨pair, hpair, hkey⟩ := mem_map.mp hmem
          simp [hkey] at hpair
        · rw [disjoint_cons_right]
          exact ⟨hfresh, fun key hkey hmem => hapart hkey (hsub.subset hmem)⟩
    · exact h.of_append_left

theorem nodup_mmrSelect (h : (scored.map Prod.snd).Nodup) : (mmrSelect scored similarity limit lam).Nodup := by
  rw [mmrSelect]
  split
  · exact nodup_nil
  · split
    · exact nodup_nil
    · rename_i first remaining hsorted
      apply nodup_mmrLoop
      have hperm := (perm_insertionSort (fun a b => relevanceRank a ≤ relevanceRank b) scored).map Prod.snd
      rw [hsorted] at hperm
      exact hperm.nodup_iff.mpr h

theorem isSome_bestRank (rank : F × String → Rank F) (h : remaining ≠ []) : (bestRank rank remaining).isSome = true := by
  obtain ⟨front, last, rfl⟩ := (eq_nil_or_concat' remaining).resolve_left h
  rw [bestRank, foldl_append, foldl_cons, foldl_nil]
  cases front.foldl (betterRank rank) none with
  | none => rfl
  | some best =>
    rw [betterRank]
    split <;> rfl

theorem mem_mmrLoop_of_room (hroom : (selected.length + remaining.length : ℤ) ≤ limit) (hfuel : remaining.length ≤ fuel)
    (h : key ∈ selected ∨ key ∈ remaining.map Prod.snd) : key ∈ mmrLoop similarity limit lam fuel remaining selected := by
  induction fuel generalizing remaining selected with
  | zero =>
    obtain rfl := length_eq_zero_iff.mp (Nat.le_zero.mp hfuel)
    exact h.resolve_right (by simp)
  | succ fuel ih =>
    rw [mmrLoop]
    by_cases hnil : remaining = []
    · rw [if_neg (by simp [hnil])]
      exact h.resolve_right (by simp [hnil])
    · have hpos := length_pos_iff.mpr hnil
      obtain ⟨best, hbest⟩ := Option.isSome_iff_exists.mp (isSome_bestRank (mmrRank similarity lam selected) hnil)
      -- the chosen key leaves the remaining ones, at least once
      have hshorter : (remaining.filter (·.2 ≠ best.2)).length < remaining.length := by
        obtain ⟨pair, hpair, hkey⟩ := mem_map.mp (mem_of_bestRank hbest)
        exact length_filter_lt_length_iff_exists.mpr ⟨pair, hpair, by simp [hkey]⟩
      rw [if_pos ⟨hnil, by omega⟩, hbest]
      apply ih
      · rw [length_append, length_singleton]
        omega
      · omega
      · by_cases hkey : key = best.2
        · exact .inl (by simp [hkey])
        · refine h.imp (fun hmem => by simp [hmem]) fun hmem => ?_
          obtain ⟨pair, hpair, rfl⟩ := mem_map.mp hmem
          exact mem_map.mpr ⟨pair, mem_filter.mpr ⟨hpair, by simpa using hkey⟩, rfl⟩

theorem mem_mmrSelect_of_room (hroom : (scored.length : ℤ) ≤ limit) (h : key ∈ scored.map Prod.snd) :
    key ∈ mmrSelect scored similarity limit lam := by
  have hperm := perm_insertionSort (fun a b => relevanceRank a ≤ relevanceRank b) scored
  have hlength := hperm.length_eq
  have hmem := (hperm.map Prod.snd).mem_iff.mpr h
  have hpos : 0 < scored.length := by
    rw [← length_map Prod.snd]
    exact length_pos_of_mem h
  rw [mmrSelect, if_neg (by omega)]
  split
  · rename_i hsorted
    simp [hsorted] at hmem
  · rename_i first remaining hsorted
    rw [hsorted] at hlength hmem
    rw [length_cons] at hlength
    refine mem_mmrLoop_of_room (by rw [length_singleton]; omega) le_rfl ?_
    simpa using hmem

theorem length_mmrLoop_le (h : (selected.length : ℤ) ≤ limit) :
    ((mmrLoop similarity limit lam fuel remaining selected).length : ℤ) ≤ limit := by
  induction fuel generalizing remaining selected with
  | zero => exact h
  | succ fuel ih =>
    rw [mmrLoop]
    split
    · rename_i hmore
      split
      · exact h
      · apply ih
        rw [length_append, length_singleton]
        omega
    · exact h

theorem length_mmrSelect_le {limit : ℕ} : (mmrSelect scored similarity limit lam).length ≤ limit := by
  rw [mmrSelect]
  split
  · exact Nat.zero_le limit
  · split
    · exact Nat.zero_le limit
    · rename_i hpos first remaining hsorted
      exact Int.ofNat_le.mp (length_mmrLoop_le (by simp only [length_singleton]; omega))

end ContextProxy
