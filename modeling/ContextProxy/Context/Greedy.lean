import Mathlib.Algebra.Order.Field.Basic
import Mathlib.Algebra.Order.Field.Rat
import ContextProxy.Context.Mmr
import ContextProxy.Lib.Greedy

/-!
# The selection is greedy

`mmr_select` sorts the pairs, takes the first and then always the one of least rank. The rank ends with the key, and a key is given once, so this is the one greedy selection of its pairs, and the sort decides nothing but the first key. With a weight of one it is the front of the sorted pairs.
-/

namespace ContextProxy

open Greedy List

section Selection

variable {F : Type} [Score F] {similarity : String → String → F} {lam : F} {scored remaining chosen : List (F × String)}
  {limit : ℤ}

/-- What the next pair is chosen by. The first is chosen by its relevance, the others by what they add to those before. -/
def nextRank (similarity : String → String → F) (lam : F) (before : List (F × String)) (pair : F × String) : Rank F :=
  match before with
  | [] => toLex (-pair.1, toLex (-pair.1, pair.2))
  | _ :: _ => mmrRank similarity lam (before.map Prod.snd) pair

theorem nextRank_of_ne_nil {before : List (F × String)} (h : before ≠ []) (pair : F × String) :
    nextRank similarity lam before pair = mmrRank similarity lam (before.map Prod.snd) pair := by
  cases before with
  | nil => exact absurd rfl h
  | cons first before => rfl

theorem nextRank_nil_le_iff (similarity : String → String → F) (lam : F) (pair other : F × String) :
    nextRank similarity lam [] pair ≤ nextRank similarity lam [] other ↔ relevanceRank pair ≤ relevanceRank other := by
  simp only [nextRank, relevanceRank, Prod.Lex.toLex_le_toLex]
  constructor
  · rintro (hless | ⟨-, hle⟩)
    · exact .inl hless
    · exact hle
  · intro hle
    rcases hle with hless | heq
    · exact .inl hless
    · exact .inr ⟨heq.1, .inr heq⟩

theorem key_nextRank (similarity : String → String → F) (lam : F) (before : List (F × String)) (pair : F × String) :
    (ofLex (ofLex (nextRank similarity lam before pair)).2).2 = pair.2 := by
  cases before with
  | nil => rfl
  | cons first before => rfl

/-- A rank ends with its key, so pairs with different keys never tie. -/
theorem injOn_nextRank (hkeys : (scored.map Prod.snd).Nodup) (before : List (F × String)) :
    Set.InjOn (nextRank similarity lam before) {pair | pair ∈ scored} := by
  intro pair hpair other hother heq
  apply inj_on_of_nodup_map hkeys hpair hother
  rw [← key_nextRank similarity lam before pair, heq, key_nextRank]

theorem foldl_betterRank (rank : F × String → Rank F) (pair : F × String) (remaining : List (F × String)) :
    ∃ best ∈ pair :: remaining, remaining.foldl (betterRank rank) (some (rank pair, pair.2)) = some (rank best, best.2)
      ∧ ∀ other ∈ pair :: remaining, rank best ≤ rank other := by
  induction remaining generalizing pair with
  | nil => exact ⟨pair, mem_cons_self, rfl, forall_mem_singleton.mpr le_rfl⟩
  | cons next remaining ih =>
    rw [foldl_cons, betterRank]
    split
    · rename_i hless
      obtain ⟨best, hmem, heq, hleast⟩ := ih next
      refine ⟨best, mem_cons_of_mem pair hmem, heq, forall_mem_cons.mpr ⟨?_, hleast⟩⟩
      exact (hleast next mem_cons_self).trans hless.le
    · rename_i hle
      obtain ⟨best, hmem, heq, hleast⟩ := ih pair
      have hpair := hleast pair mem_cons_self
      refine ⟨best, ?_, heq, ?_⟩
      · rcases mem_cons.mp hmem with hbest | hbest
        · exact hbest ▸ mem_cons_self
        · exact mem_cons_of_mem pair (mem_cons_of_mem next hbest)
      · intro other hother
        rcases mem_cons.mp hother with rfl | hother
        · exact hpair
        · rcases mem_cons.mp hother with rfl | hother
          · exact hpair.trans (not_lt.mp hle)
          · exact hleast other (mem_cons_of_mem pair hother)

theorem exists_bestRank (rank : F × String → Rank F) (h : remaining ≠ []) :
    ∃ best ∈ remaining, bestRank rank remaining = some (rank best, best.2)
      ∧ ∀ other ∈ remaining, rank best ≤ rank other := by
  cases remaining with
  | nil => exact absurd rfl h
  | cons pair remaining => exact foldl_betterRank rank pair remaining

variable {pair : F × String}

theorem perm_cons_filter_key (hkeys : (remaining.map Prod.snd).Nodup) (hpair : pair ∈ remaining) :
    (pair :: remaining.filter (·.2 ≠ pair.2)).Perm remaining := by
  have herase : remaining.filter (·.2 ≠ pair.2) = remaining.erase pair := by
    rw [(List.Nodup.of_map Prod.snd hkeys).erase_eq_filter]
    apply filter_congr
    intro other hother
    rw [Bool.eq_iff_iff, decide_eq_true_iff, bne_iff_ne]
    exact not_congr ⟨inj_on_of_nodup_map hkeys hother hpair, congrArg Prod.snd⟩
  rw [herase]
  exact (perm_cons_erase hpair).symm

/-- The invariant of the `while` loop: what is chosen is a greedy selection, and the other pairs are left. -/
structure Selecting (similarity : String → String → F) (lam : F) (scored chosen remaining : List (F × String)) : Prop where
  perm : (chosen ++ remaining).Perm scored
  ne_nil : chosen ≠ []
  selects : Selects (nextRank similarity lam) chosen.length scored chosen

theorem Selecting.length_add (h : Selecting similarity lam scored chosen remaining) :
    chosen.length + remaining.length = scored.length := by
  rw [← h.perm.length_eq, length_append]

theorem Selecting.next (h : Selecting similarity lam scored chosen remaining) (hkeys : (scored.map Prod.snd).Nodup)
    (hpair : pair ∈ remaining)
    (hleast : ∀ other ∈ remaining,
      mmrRank similarity lam (chosen.map Prod.snd) pair ≤ mmrRank similarity lam (chosen.map Prod.snd) other) :
    Selecting similarity lam scored (chosen ++ [pair]) (remaining.filter (·.2 ≠ pair.2)) := by
  have hall : ((chosen ++ remaining).map Prod.snd).Nodup := (h.perm.map Prod.snd).nodup_iff.mpr hkeys
  have hnodup : (chosen ++ remaining).Nodup := hall.of_map
  have hrest : (pair :: remaining.filter (·.2 ≠ pair.2)).Perm remaining := by
    rw [map_append] at hall
    exact perm_cons_filter_key hall.of_append_right hpair
  refine ⟨?_, by simp, ?_⟩
  · rw [append_assoc, singleton_append]
    exact (hrest.append_left chosen).trans h.perm
  · apply h.selects.snoc
    · exact h.perm.subset (mem_append_right chosen hpair)
    · exact fun hmem => (nodup_append'.mp hnodup).2.2 hmem hpair
    · intro other hother hnot
      rw [nextRank_of_ne_nil h.ne_nil, nextRank_of_ne_nil h.ne_nil]
      exact hleast other ((mem_append.mp (h.perm.mem_iff.mpr hother)).resolve_left hnot)

/-- The `while` loop continues a greedy selection, up to the limit or to the end of the pairs. -/
theorem mmrLoop_selects (hkeys : (scored.map Prod.snd).Nodup) {fuel : ℕ} (hfuel : remaining.length ≤ fuel)
    (h : Selecting similarity lam scored chosen remaining) (hlimit : (chosen.length : ℤ) ≤ limit) :
    ∃ result, mmrLoop similarity limit lam fuel remaining (chosen.map Prod.snd) = result.map Prod.snd
      ∧ Selects (nextRank similarity lam) limit.toNat scored result := by
  have hlength := h.length_add
  induction fuel generalizing remaining chosen with
  | zero => exact ⟨chosen, rfl, h.selects.of_length_le (by omega) (by omega)⟩
  | succ fuel ih =>
    rw [mmrLoop, length_map]
    split
    · rename_i hmore
      obtain ⟨pair, hpair, hbest, hleast⟩ := exists_bestRank (mmrRank similarity lam (chosen.map Prod.snd)) hmore.1
      have hnext := h.next hkeys hpair hleast
      have hrest := hnext.length_add
      have hsnoc : (chosen ++ [pair]).length = chosen.length + 1 := by simp
      have hstep := ih (by omega) hnext (by omega) hrest
      rw [hbest]
      rwa [map_append, map_singleton] at hstep
    · rename_i hdone
      refine ⟨chosen, rfl, ?_⟩
      by_cases hnil : remaining = []
      · subst hnil
        rw [length_nil] at hlength
        exact h.selects.of_length_le (by omega) (by omega)
      · have hfull : limit.toNat = chosen.length := by
          have hnot : ¬(chosen.length : ℤ) < limit := fun hmore => hdone ⟨hnil, hmore⟩
          omega
        rw [hfull]
        exact h.selects

theorem mmrSelect_selects (hkeys : (scored.map Prod.snd).Nodup) (similarity : String → String → F) (limit : ℤ) (lam : F) :
    ∃ chosen, mmrSelect scored similarity limit lam = chosen.map Prod.snd
      ∧ Selects (nextRank similarity lam) limit.toNat scored chosen := by
  rw [mmrSelect]
  split
  · rename_i hlimit
    refine ⟨[], rfl, ?_⟩
    rw [Int.toNat_of_nonpos hlimit]
    exact selects_nil _ scored
  · rename_i hlimit
    have hperm := perm_insertionSort (fun a b => relevanceRank a ≤ relevanceRank b) scored
    have hsorted := pairwise_insertionSort (fun a b : F × String => relevanceRank a ≤ relevanceRank b) scored
    split
    · rename_i hnil
      rw [hnil] at hperm
      rw [← hperm.nil_eq]
      exact ⟨[], rfl, selects_of_nil _ _⟩
    · rename_i first remaining hcons
      rw [hcons] at hperm hsorted
      have hfirst : Selects (nextRank similarity lam) [first].length scored [first] := by
        apply (selects_nil _ scored).snoc (hperm.subset mem_cons_self) not_mem_nil
        intro other hother _
        rw [nextRank_nil_le_iff]
        rcases mem_cons.mp (hperm.mem_iff.mpr hother) with rfl | hmem
        · exact le_rfl
        · exact rel_of_pairwise_cons hsorted hmem
      exact mmrLoop_selects hkeys le_rfl ⟨hperm, cons_ne_nil _ _, hfirst⟩ (by simp only [length_singleton]; omega)

/-- The order in which the pairs are given has no influence. -/
theorem mmrSelect_perm (hkeys : (scored.map Prod.snd).Nodup) {scored' : List (F × String)} (hperm : scored'.Perm scored) :
    mmrSelect scored' similarity limit lam = mmrSelect scored similarity limit lam := by
  obtain ⟨chosen, heq, hchosen⟩ := mmrSelect_selects hkeys similarity limit lam
  obtain ⟨chosen', heq', hchosen'⟩ :=
    mmrSelect_selects ((hperm.map Prod.snd).nodup_iff.mpr hkeys) similarity limit lam
  rw [heq, heq', (hchosen'.perm hperm).unique hchosen (injOn_nextRank hkeys)]

end Selection

section Field

variable {F : Type} [Field F] [LinearOrder F]

/-- The scores of an ordered field. -/
local instance fieldScore : Score F where
  toLinearOrder := inferInstance
  toZero := inferInstance
  toOne := inferInstance
  toAdd := inferInstance
  toSub := inferInstance
  toMul := inferInstance
  toNeg := inferInstance
  toDiv := inferInstance
  toNatCast := inferInstance

theorem nextRank_one (similarity : String → String → F) (before : List (F × String)) (pair : F × String) :
    nextRank similarity 1 before pair = toLex (-pair.1, toLex (-pair.1, pair.2)) := by
  cases before with
  | nil => rfl
  | cons first before =>
    rw [nextRank, mmrRank]
    congr 2
    rw [one_mul, sub_self, zero_mul, sub_zero]

/-- With a weight of one, similarity has no influence and the selection is the front of the sorted pairs. -/
theorem mmrSelect_one {scored : List (F × String)} (hkeys : (scored.map Prod.snd).Nodup)
    (similarity : String → String → F) (limit : ℤ) : mmrSelect scored similarity limit 1
      = ((scored.insertionSort fun a b => relevanceRank a ≤ relevanceRank b).take limit.toNat).map Prod.snd := by
  obtain ⟨chosen, heq, hchosen⟩ := mmrSelect_selects hkeys similarity limit 1
  have hperm := perm_insertionSort (fun a b => relevanceRank a ≤ relevanceRank b) scored
  have hsorted := pairwise_insertionSort (fun a b : F × String => relevanceRank a ≤ relevanceRank b) scored
  have hnodup : (scored.insertionSort fun a b => relevanceRank a ≤ relevanceRank b).Nodup :=
    hperm.nodup_iff.mpr hkeys.of_map
  have hrank : ∀ before pair, nextRank similarity 1 before pair = nextRank similarity 1 [] pair := fun before pair =>
    (nextRank_one similarity before pair).trans (nextRank_one similarity [] pair).symm
  have hfront := selects_take_of_pairwise hnodup (hsorted.imp (nextRank_nil_le_iff similarity 1 _ _).mpr) hrank limit.toNat
  rw [heq, hchosen.unique (hfront.perm hperm) (injOn_nextRank hkeys)]

/-- The selection is greedy: as many keys as the limit and the pairs allow, each given and none twice, the first the most relevant, every later one of least rank among those not selected before it. It does not depend on the order of the pairs, and with a weight of one it is the front of the pairs sorted by relevance. No bound on the weight is needed. -/
theorem mmrSelect_greedy {scored : List (F × String)} (hkeys : (scored.map Prod.snd).Nodup)
    (similarity : String → String → F) (limit : ℤ) (lam : F) :
    ((mmrSelect scored similarity limit lam).length : ℤ) = min (max limit 0) scored.length
    ∧ (mmrSelect scored similarity limit lam).Nodup
    ∧ mmrSelect scored similarity limit lam ⊆ scored.map Prod.snd
    ∧ (∀ key after, mmrSelect scored similarity limit lam = key :: after →
        ∃ score, (score, key) ∈ scored ∧ ∀ pair ∈ scored, relevanceRank (score, key) ≤ relevanceRank pair)
    ∧ (∀ before key after, before ≠ [] → mmrSelect scored similarity limit lam = before ++ key :: after →
        ∃ score, (score, key) ∈ scored ∧ ∀ pair ∈ scored, pair.2 ∉ before →
          mmrRank similarity lam before (score, key) ≤ mmrRank similarity lam before pair)
    ∧ (∀ scored', scored'.Perm scored →
        mmrSelect scored' similarity limit lam = mmrSelect scored similarity limit lam)
    ∧ (lam = 1 → mmrSelect scored similarity limit lam
        = ((scored.insertionSort fun a b => relevanceRank a ≤ relevanceRank b).take limit.toNat).map Prod.snd) := by
  obtain ⟨chosen, heq, hchosen⟩ := mmrSelect_selects hkeys similarity limit lam
  refine ⟨?_, nodup_mmrSelect hkeys, fun key => mem_of_mem_mmrSelect, ?_, ?_, fun _ => mmrSelect_perm hkeys, ?_⟩
  · rw [heq, length_map, hchosen.length_eq]
    omega
  · intro key after hkey
    rw [heq] at hkey
    obtain ⟨pair, rest, hsplit, rfl, -⟩ := map_eq_cons_iff.mp hkey
    have hleast := hchosen.least (show chosen = [] ++ pair :: rest from hsplit)
    refine ⟨pair.1, hchosen.subset (hsplit ▸ mem_cons_self), ?_⟩
    intro other hother
    exact (nextRank_nil_le_iff similarity lam pair other).mp (hleast other hother not_mem_nil)
  · intro before key after hbefore hkey
    rw [heq] at hkey
    obtain ⟨front, back, hsplit, rfl, hback⟩ := map_eq_append_iff.mp hkey
    obtain ⟨pair, rest, rfl, rfl, -⟩ := map_eq_cons_iff.mp hback
    have hne : front ≠ [] := fun hnil => hbefore (by rw [hnil, map_nil])
    refine ⟨pair.1, hchosen.subset (hsplit ▸ mem_append_right front mem_cons_self), ?_⟩
    intro other hother hnew
    have hle := hchosen.least hsplit other hother fun hmem => hnew (mem_map_of_mem hmem)
    rwa [nextRank_of_ne_nil hne, nextRank_of_ne_nil hne] at hle
  · intro hone
    rw [hone]
    exact mmrSelect_one hkeys similarity limit

/-- Of two pairs with one score, given in either order, the smaller key is selected first. -/
theorem mmrSelect_greedy_tie : (([(1, "b"), (1, "a")] : List (ℚ × String)).map Prod.snd).Nodup
    ∧ ∀ similarity : String → String → ℚ, mmrSelect [((1 : ℚ), "b"), (1, "a")] similarity 1 1 = ["a"] := by
  have hkeys : (([(1, "b"), (1, "a")] : List (ℚ × String)).map Prod.snd).Nodup := by decide
  refine ⟨hkeys, ?_⟩
  intro similarity
  rw [(mmrSelect_greedy hkeys similarity 1 1).2.2.2.2.2.2 rfl]
  rfl

end Field

end ContextProxy
