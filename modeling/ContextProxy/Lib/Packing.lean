import Mathlib.Algebra.BigOperators.Group.List.Basic
import Mathlib.Algebra.GroupWithZero.Nat
import Mathlib.Algebra.Order.BigOperators.Group.List
import Mathlib.Algebra.Order.Group.Nat
import Mathlib.Data.List.Forall2
import Mathlib.Data.List.Induction
import Mathlib.Data.List.Sort
import Mathlib.Tactic.Common

/-!
# Packing under a budget

Two greedy loops over items that have a cost. `window` grows a suffix back from the newest item and stops at the first one that does not fit: the result is the longest suffix that fits (`LongestFitting`). `packUnder` goes forward and skips what does not fit. Sorting by a key that is strictly increasing along some rearrangement gives that rearrangement.
-/

namespace ContextProxy

open List

variable {α : Type} {cost : α → ℕ}

def totalCost (cost : α → ℕ) (items : List α) : ℕ := (items.map cost).sum

theorem totalCost_append (a b : List α) : totalCost cost (a ++ b) = totalCost cost a + totalCost cost b := by
  rw [totalCost, map_append, sum_append, totalCost, totalCost]

theorem totalCost_cons (item : α) (items : List α) :
    totalCost cost (item :: items) = cost item + totalCost cost items := by
  rw [totalCost, map_cons, sum_cons, totalCost]

theorem totalCost_perm (cost : α → ℕ) {a b : List α} (h : a.Perm b) : totalCost cost a = totalCost cost b := (h.map cost).sum_eq

theorem totalCost_subperm (cost : α → ℕ) {a b : List α} (h : List.Subperm a b) : totalCost cost a ≤ totalCost cost b := by
  obtain ⟨c, hperm, hsub⟩ := h
  rw [← totalCost_perm cost hperm]
  exact (hsub.map cost).sum_le_sum fun _ _ => Nat.zero_le _

variable {β : Type} {as items : List α} {bs : List β} {cost' : β → ℕ} {r : α → β → Prop} {used : ℕ}

theorem totalCost_of_forall₂ (hcost : ∀ a b, r a b → cost a = cost' b) (h : List.Forall₂ r as bs) :
    totalCost cost as = totalCost cost' bs := by
  induction h with
  | nil => rfl
  | cons hr _ ih => rw [totalCost_cons, totalCost_cons, hcost _ _ hr, ih]

/-! ### A window of whole items -/

/-- The loop from the newest item back, with what it has used so far. -/
def growBack (cost : α → ℕ) (budget : ℕ) : ℕ → List α → List α
  | _, [] => []
  | used, item :: older =>
    if used + cost item > budget then [] else item :: growBack cost budget (used + cost item) older

def window (cost : α → ℕ) (budget : ℕ) (items : List α) : List α := (growBack cost budget 0 items.reverse).reverse

/-- `kept` is the longest suffix of the items that fits. -/
structure LongestFitting (cost : α → ℕ) (budget : ℕ) (items kept : List α) : Prop where
  suffix : kept <:+ items
  fits : totalCost cost kept ≤ budget
  longest : ∀ other, other <:+ items → totalCost cost other ≤ budget → other <:+ kept

theorem growBack_spec (cost : α → ℕ) {budget : ℕ} (items : List α) (hused : used ≤ budget) :
    growBack cost budget used items <+: items ∧
      used + totalCost cost (growBack cost budget used items) ≤ budget ∧
      ∀ other, other <+: items → used + totalCost cost other ≤ budget → other <+: growBack cost budget used items := by
  induction items generalizing used with
  | nil => exact ⟨List.nil_prefix, by simpa [growBack, totalCost] using hused, fun other h _ => h⟩
  | cons item older ih =>
    rw [growBack]
    split
    · rename_i hover
      refine ⟨List.nil_prefix, by simpa [totalCost] using hused, ?_⟩
      intro other hother hfits
      cases other with
      | nil => exact nil_prefix
      | cons first rest =>
        obtain ⟨rfl, -⟩ := cons_prefix_cons.mp hother
        rw [totalCost_cons] at hfits
        omega
    · rename_i hfit
      obtain ⟨hfront, hfits, hlongest⟩ := ih (show used + cost item ≤ budget by omega)
      refine ⟨cons_prefix_cons.mpr ⟨rfl, hfront⟩, by rw [totalCost_cons]; omega, ?_⟩
      intro other hother hother_fits
      cases other with
      | nil => exact nil_prefix
      | cons first rest =>
        obtain ⟨rfl, hrest⟩ := cons_prefix_cons.mp hother
        rw [totalCost_cons] at hother_fits
        exact cons_prefix_cons.mpr ⟨rfl, hlongest rest hrest (by omega)⟩

theorem totalCost_reverse (items : List α) : totalCost cost items.reverse = totalCost cost items :=
  totalCost_perm cost items.reverse_perm

/-- The window is the longest suffix that fits. -/
theorem window_longestFitting (cost : α → ℕ) (budget : ℕ) (items : List α) :
    LongestFitting cost budget items (window cost budget items) := by
  obtain ⟨hfront, hfits, hlongest⟩ := growBack_spec cost items.reverse (Nat.zero_le budget)
  refine ⟨?_, ?_, ?_⟩
  · rw [window, ← reverse_prefix, reverse_reverse]
    exact hfront
  · rw [window, totalCost_reverse]
    omega
  · intro other hother hother_fits
    rw [window, ← reverse_prefix, reverse_reverse]
    refine hlongest _ (List.reverse_prefix.mpr hother) ?_
    rw [totalCost_reverse]
    omega

theorem growBack_forall₂ (hcost : ∀ a b, r a b → cost a = cost' b) (h : List.Forall₂ r as bs) (budget used : ℕ) :
    List.Forall₂ r (growBack cost budget used as) (growBack cost' budget used bs) := by
  induction h generalizing used with
  | nil => exact .nil
  | cons hr _ ih =>
    rw [growBack, growBack, hcost _ _ hr]
    split
    · exact .nil
    · exact .cons hr (ih _)

theorem window_forall₂ (hcost : ∀ a b, r a b → cost a = cost' b) (h : List.Forall₂ r as bs) (budget : ℕ) :
    List.Forall₂ r (window cost budget as) (window cost' budget bs) :=
  forall₂_reverse_iff.mpr (growBack_forall₂ hcost (forall₂_reverse_iff.mpr h) budget 0)

namespace LongestFitting

variable {budget : ℕ} {items kept : List α}

theorem mem_iff (h : LongestFitting cost budget items kept) {item : α} :
    item ∈ kept ↔ ∃ older newer, items = older ++ item :: newer ∧ totalCost cost (item :: newer) ≤ budget := by
  constructor
  · intro hmem
    obtain ⟨before, newer, rfl⟩ := append_of_mem hmem
    obtain ⟨older, rfl⟩ := h.suffix
    have hfits := h.fits
    rw [totalCost_append] at hfits
    exact ⟨older ++ before, newer, by rw [append_assoc], by omega⟩
  · rintro ⟨older, newer, rfl, hfits⟩
    exact (h.longest _ (suffix_append _ _) hfits).subset mem_cons_self

end LongestFitting

/-! ### Items that are skipped when they do not fit -/

def packUnder (cost : α → ℕ) (cap : ℕ) : ℕ → List α → List α × List α
  | _, [] => ([], [])
  | used, item :: items =>
    if used + cost item > cap then
      ((packUnder cost cap used items).1, item :: (packUnder cost cap used items).2)
    else
      (item :: (packUnder cost cap (used + cost item) items).1, (packUnder cost cap (used + cost item) items).2)

variable {cap : ℕ}

theorem packUnder_sublist : (packUnder cost cap used items).1.Sublist items := by
  induction items generalizing used with
  | nil => exact List.Sublist.slnil
  | cons item items ih =>
    rw [packUnder]
    split
    · exact ih.cons item
    · exact ih.cons_cons item

theorem packUnder_perm (cost : α → ℕ) (cap used : ℕ) (items : List α) :
    ((packUnder cost cap used items).1 ++ (packUnder cost cap used items).2).Perm items := by
  induction items generalizing used with
  | nil => exact List.Perm.refl _
  | cons item items ih =>
    rw [packUnder]
    split
    · exact perm_middle.trans ((ih used).cons item)
    · exact (ih (used + cost item)).cons item

theorem packUnder_forall₂ {R : α → β → Prop} (hcost : ∀ a b, R a b → cost' b = cost a) (cap used : ℕ) {others : List β}
    (h : List.Forall₂ R items others) :
    List.Forall₂ R (packUnder cost cap used items).1 (packUnder cost' cap used others).1 := by
  induction h generalizing used with
  | nil => exact .nil
  | cons hitem _ ih =>
    rw [packUnder, packUnder, hcost _ _ hitem]
    split
    · exact ih used
    · exact .cons hitem (ih _)

theorem packUnder_fits (cost : α → ℕ) (items : List α) (hused : used ≤ cap) :
    used + totalCost cost (packUnder cost cap used items).1 ≤ cap := by
  induction items generalizing used with
  | nil => simpa [packUnder, totalCost] using hused
  | cons item items ih =>
    rw [packUnder]
    split
    · exact ih hused
    · have := ih (show used + cost item ≤ cap by omega)
      rw [totalCost_cons]
      omega

theorem packUnder_of_fits (h : used + totalCost cost items ≤ cap) : (packUnder cost cap used items).1 = items := by
  induction items generalizing used with
  | nil => rfl
  | cons item items ih =>
    rw [totalCost_cons] at h
    rw [packUnder, if_neg (by omega), ih (by omega)]

/-! ### Sorting by a key -/

theorem insertionSort_eq_of_strict {κ : Type} [LinearOrder κ] {key : α → κ} {target : List α} (hperm : target.Perm items)
    (hstrict : target.Pairwise fun a b => key a < key b) : items.insertionSort (fun a b => key a ≤ key b) = target := by
  have : Std.Total (fun a b => key a ≤ key b) := ⟨fun a b => le_total (key a) (key b)⟩
  have : IsTrans α (fun a b => key a ≤ key b) := ⟨fun _ _ _ => le_trans⟩
  have hsorted := pairwise_insertionSort (fun a b => key a ≤ key b) items
  refine List.Perm.eq_of_pairwise ?_ hsorted (hstrict.imp le_of_lt) ((perm_insertionSort _ _).trans hperm.symm)
  intro a b ha hb hab hba
  -- equal keys stand at one place of the target
  have hnodup : (target.map key).Nodup := pairwise_map.mpr (hstrict.imp ne_of_lt)
  have ha' : a ∈ target := hperm.symm.subset ((perm_insertionSort _ _).subset ha)
  exact inj_on_of_nodup_map hnodup ha' hb (le_antisymm hab hba)

end ContextProxy
