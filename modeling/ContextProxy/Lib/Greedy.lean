import Mathlib.Data.List.Sort
import Mathlib.Data.Set.Function

/-!
# Greedy selection

A greedy selection takes one item after the other, each of least rank among those not taken yet, where the rank may depend on what was taken before. If the rank tells the items apart, there is one selection, so the order in which the items are given has no influence.
-/

namespace ContextProxy.Greedy

open List

variable {α R : Type} [LinearOrder R] {rank : List α → α → R} {n : ℕ} {items items' chosen chosen' : List α}

/-- `chosen` are `n` of the items, or all of them if there are fewer, each of least rank among those not chosen before it. -/
structure Selects (rank : List α → α → R) (n : ℕ) (items chosen : List α) : Prop where
  length_eq : chosen.length = min n items.length
  nodup : chosen.Nodup
  subset : chosen ⊆ items
  least : ∀ {before a after}, chosen = before ++ a :: after → ∀ b ∈ items, b ∉ before → rank before a ≤ rank before b

theorem Selects.perm (h : Selects rank n items chosen) (hperm : items.Perm items') : Selects rank n items' chosen where
  length_eq := by rw [h.length_eq, hperm.length_eq]
  nodup := h.nodup
  subset := List.Subset.trans h.subset hperm.subset
  least hchosen b hb := h.least hchosen b (hperm.mem_iff.mpr hb)

theorem selects_nil (rank : List α → α → R) (items : List α) : Selects rank 0 items [] where
  length_eq := by rw [length_nil, Nat.zero_min]
  nodup := nodup_nil
  subset := nil_subset _
  least hchosen := absurd hchosen (by simp)

theorem selects_of_nil (rank : List α → α → R) (n : ℕ) : Selects rank n [] [] where
  length_eq := by rw [length_nil, Nat.min_zero]
  nodup := nodup_nil
  subset := nil_subset _
  least hchosen := absurd hchosen (by simp)

theorem Selects.snoc (h : Selects rank chosen.length items chosen) {a : α} (ha : a ∈ items) (hnew : a ∉ chosen)
    (hleast : ∀ b ∈ items, b ∉ chosen → rank chosen a ≤ rank chosen b) :
    Selects rank (chosen ++ [a]).length items (chosen ++ [a]) := by
  have hnodup : (chosen ++ [a]).Nodup := by
    rw [← concat_eq_append]
    exact h.nodup.concat hnew
  have hsubset : chosen ++ [a] ⊆ items := append_subset.mpr ⟨h.subset, by simpa using ha⟩
  refine ⟨?_, hnodup, hsubset, ?_⟩
  · exact (min_eq_left (subperm_of_subset hnodup hsubset).length_le).symm
  · intro before c after hsplit b hb hbefore
    rcases eq_nil_or_concat after with rfl | ⟨front, last, rfl⟩
    · obtain ⟨rfl, hlast⟩ := append_inj' hsplit rfl
      rw [← singleton_inj.mp hlast]
      exact hleast b hb hbefore
    · -- The step did not touch what was chosen before.
      rw [concat_eq_append, ← cons_append, ← append_assoc] at hsplit
      exact h.least (append_inj' hsplit rfl).1 b hb hbefore

theorem Selects.of_length_le (h : Selects rank chosen.length items chosen) (hall : items.length ≤ chosen.length)
    (hn : chosen.length ≤ n) : Selects rank n items chosen := by
  refine ⟨?_, h.nodup, h.subset, h.least⟩
  have hlength := h.length_eq
  omega

theorem Selects.take_eq (h : Selects rank n items chosen) (h' : Selects rank n items chosen')
    (hinj : ∀ before, Set.InjOn (rank before) {a | a ∈ items}) (k : ℕ) : chosen.take k = chosen'.take k := by
  have hlength : chosen.length = chosen'.length := h.length_eq.trans h'.length_eq.symm
  induction k with
  | zero => rw [take_zero, take_zero]
  | succ k ih =>
    by_cases hk : k < chosen.length
    · have hk' : k < chosen'.length := hlength ▸ hk
      have hsplit : chosen = chosen.take k ++ chosen[k] :: chosen.drop (k + 1) := by
        rw [getElem_cons_drop, take_append_drop]
      have hsplit' : chosen' = chosen.take k ++ chosen'[k] :: chosen'.drop (k + 1) := by
        rw [ih, getElem_cons_drop, take_append_drop]
      have hnew : chosen[k] ∉ chosen.take k := by
        have hnodup := hsplit ▸ h.nodup
        exact fun hmem => (nodup_append'.mp hnodup).2.2 hmem mem_cons_self
      have hnew' : chosen'[k] ∉ chosen.take k := by
        have hnodup := hsplit' ▸ h'.nodup
        exact fun hmem => (nodup_append'.mp hnodup).2.2 hmem mem_cons_self
      have hmem : chosen[k] ∈ items := h.subset (getElem_mem hk)
      have hmem' : chosen'[k] ∈ items := h'.subset (getElem_mem hk')
      -- Both are least among the same items, and the rank tells them apart.
      have heq : chosen[k] = chosen'[k] := by
        apply hinj (chosen.take k) hmem hmem'
        exact le_antisymm (h.least hsplit _ hmem' hnew') (h'.least hsplit' _ hmem hnew)
      rw [take_succ_eq_append_getElem hk, take_succ_eq_append_getElem hk', ih, heq]
    · rw [take_of_length_le (by omega), take_of_length_le (by omega)] at ih
      rw [ih]

/-- There is one selection. -/
theorem Selects.unique (h : Selects rank n items chosen) (h' : Selects rank n items chosen')
    (hinj : ∀ before, Set.InjOn (rank before) {a | a ∈ items}) : chosen = chosen' := by
  have hlength : chosen.length = chosen'.length := h.length_eq.trans h'.length_eq.symm
  have htake := h.take_eq h' hinj chosen.length
  rwa [take_length, hlength, take_length] at htake

/-- Where the rank does not depend on what was chosen, the selection is the front of the sorted items. -/
theorem selects_take_of_pairwise {key : α → R} (hnodup : items.Nodup) (hsorted : items.Pairwise fun a b => key a ≤ key b)
    (hrank : ∀ before a, rank before a = key a) (n : ℕ) : Selects rank n items (items.take n) := by
  refine ⟨length_take, hnodup.sublist (take_sublist n items), take_subset n items, ?_⟩
  intro before a after hsplit b hb hbefore
  have hitems : items = before ++ a :: (after ++ items.drop n) := by
    rw [← cons_append, ← append_assoc, ← hsplit, take_append_drop]
  rw [hitems] at hb hsorted
  rw [hrank, hrank]
  rcases mem_append.mp hb with hmem | hmem
  · exact absurd hmem hbefore
  · rcases mem_cons.mp hmem with rfl | hafter
    · exact le_rfl
    · exact rel_of_pairwise_cons (pairwise_append.mp hsorted).2.1 hafter

end ContextProxy.Greedy
