import Mathlib.Data.Fintype.Basic
import Mathlib.Data.List.DropRight
import Mathlib.Tactic.Common

/-!
# UUIDs as text

An identifier is 32 hexadecimal digits. It is printed in lower case with dashes behind groups of digits, and read in either case with dashes anywhere. What is printed is read again as itself.
-/

namespace ContextProxy.Uuid

open List

def hexDigit (value : Fin 16) : Char := "0123456789abcdef".toList.getD value '0'

def hexValue (c : Char) : Option (Fin 16) :=
  (List.finRange 16).find? fun value => c = hexDigit value ∨ c = (hexDigit value).toUpper

/-- A text with dashes behind groups of the given lengths. -/
def dashed : List ℕ → List Char → List Char
  | [], chars => chars
  | size :: sizes, chars => chars.take size ++ '-' :: dashed sizes (chars.drop size)

/-- The printed form: groups of 8, 4, 4, 4 and 12 digits. -/
def print (digits : List (Fin 16)) : String := String.ofList (dashed [8, 4, 4, 4] (digits.map hexDigit))

/-- The 32 digits of an identifier, with dashes anywhere. -/
def read (chars : List Char) : Option String :=
  let digits := chars.filter (· ≠ '-')
  if digits.length = 32 ∧ digits.all fun c => (hexValue c).isSome then
    some (print (digits.map fun c => (hexValue c).getD 0))
  else none

def isBrace (c : Char) : Bool := c = '\x7b' || c = '\x7d'

def stripBraces (chars : List Char) : List Char := (chars.dropWhile isBrace).rdropWhile isBrace

theorem hexValue_hexDigit : ∀ value, hexValue (hexDigit value) = some value := by decide

theorem hexDigit_plain : ∀ value, hexDigit value ≠ '-' ∧ isBrace (hexDigit value) = false := by decide

variable {chars : List Char} {digits : List (Fin 16)}

theorem filter_dashed (h : ∀ c ∈ chars, c ≠ '-') (sizes : List ℕ) : (dashed sizes chars).filter (· ≠ '-') = chars := by
  induction sizes generalizing chars with
  | nil =>
    rw [dashed, filter_eq_self]
    intro c hc
    simpa using h c hc
  | cons size sizes ih =>
    have htake : (chars.take size).filter (· ≠ '-') = chars.take size := by
      rw [filter_eq_self]
      intro c hc
      simpa using h c (mem_of_mem_take hc)
    have hdrop : (dashed sizes (chars.drop size)).filter (· ≠ '-') = chars.drop size :=
      ih fun c hc => h c (mem_of_mem_drop hc)
    rw [dashed, filter_append, htake, filter_cons_of_neg (by simp), hdrop, take_append_drop]

theorem length_dashed (sizes : List ℕ) (chars : List Char) : (dashed sizes chars).length = chars.length + sizes.length := by
  induction sizes generalizing chars with
  | nil => rfl
  | cons size sizes ih =>
    rw [dashed, length_append, length_cons, ih, length_take, length_drop, length_cons]
    omega

theorem mem_dashed {c : Char} {sizes : List ℕ} (h : c ∈ dashed sizes chars) : c = '-' ∨ c ∈ chars := by
  induction sizes generalizing chars with
  | nil => exact .inr h
  | cons size sizes ih =>
    rw [dashed, mem_append, mem_cons] at h
    rcases h with htake | rfl | hrest
    · exact .inr (mem_of_mem_take htake)
    · exact .inl rfl
    · exact (ih hrest).imp_right mem_of_mem_drop

theorem read_eq_some {id : String} (h : read chars = some id) :
    32 ≤ chars.length ∧ ∃ digits, digits.length = 32 ∧ id = print digits := by
  rw [read] at h
  split at h
  · rename_i hdigits
    have hle := length_filter_le (· ≠ '-') chars
    refine ⟨by omega, _, ?_, (Option.some.inj h).symm⟩
    rw [length_map]
    exact hdigits.1
  · cases h

theorem mem_print {c : Char} (h : c ∈ (print digits).toList) : c = '-' ∨ ∃ digit, c = hexDigit digit := by
  rw [print, String.toList_ofList] at h
  refine (mem_dashed h).imp_right fun hc => ?_
  obtain ⟨digit, -, rfl⟩ := mem_map.mp hc
  exact ⟨digit, rfl⟩

/-- What is printed is read again. -/
theorem read_print (h : digits.length = 32) : read (print digits).toList = some (print digits) := by
  have hplain : ∀ c ∈ digits.map hexDigit, c ≠ '-' := by
    intro c hc
    obtain ⟨digit, -, rfl⟩ := mem_map.mp hc
    exact (hexDigit_plain digit).1
  have hvalue : ((fun c => (hexValue c).getD 0) ∘ hexDigit) = id := by
    funext digit
    rw [Function.comp_apply, hexValue_hexDigit]
    rfl
  have hfilter : (print digits).toList.filter (· ≠ '-') = digits.map hexDigit := by
    rw [print, String.toList_ofList, filter_dashed hplain]
  rw [read, hfilter, length_map, map_map, hvalue, map_id, if_pos]
  refine ⟨h, ?_⟩
  simp [hexValue_hexDigit]

theorem stripBraces_print (digits : List (Fin 16)) : stripBraces (print digits).toList = (print digits).toList := by
  have hplain : ∀ c ∈ (print digits).toList, ¬isBrace c = true := by
    intro c hc
    rcases mem_print hc with rfl | ⟨digit, rfl⟩
    · decide
    · rw [(hexDigit_plain digit).2]
      decide
  have hfront : (print digits).toList.dropWhile isBrace = (print digits).toList :=
    dropWhile_eq_self_iff.mpr fun hl => hplain _ (getElem_mem hl)
  rw [stripBraces, hfront]
  exact rdropWhile_eq_self_iff.mpr fun hl => hplain _ (getLast_mem hl)

theorem length_print (h : digits.length = 32) : (print digits).length = 36 := by
  rw [← String.length_toList, print, String.toList_ofList, length_dashed, length_map, h]
  rfl

theorem length_stripBraces (chars : List Char) : (stripBraces chars).length ≤ chars.length :=
  (List.rdropWhile_prefix _ _).length_le.trans (dropWhile_suffix _).length_le

end ContextProxy.Uuid
