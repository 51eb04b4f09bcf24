import ContextProxy.Lib.JsonText

/-!
# Printing JSON

`json.dumps` with `ensure_ascii=False` and the default separators. A string is written between quotes, with escapes for the quote, the backslash and the control characters. All else in a text is visible ASCII or a space, so its other characters come from the strings of the value (`Foreign.any_print`).
-/

namespace ContextProxy.JsonText

open List

structure FloatText where
  text : ℚ → List Char
  word : ∀ q, ∀ c ∈ text q, isWord c = true

def FloatText.zero : FloatText where
  text := fun _ => ['0']
  word := by simp [isWord]

def escapeChar (c : Char) : List Char :=
  if c = '"' then ['\\', '"']
  else if c = '\\' then ['\\', '\\']
  else if c = '\n' then ['\\', 'n']
  else if c = '\r' then ['\\', 'r']
  else if c = '\t' then ['\\', 't']
  else if c = '\x0c' then ['\\', 'f']
  else if c = '\x08' then ['\\', 'b']
  else if c.toNat < 0x20 then ['\\', 'u', '0', '0', Nat.digitChar (c.toNat / 16), Nat.digitChar (c.toNat % 16)]
  else [c]

def quote (s : String) : List Char := '"' :: s.toList.flatMap escapeChar ++ ['"']

section Floats

variable (floats : FloatText)

mutual

def print : Json → List Char
  | .null => ['n', 'u', 'l', 'l']
  | .bool true => ['t', 'r', 'u', 'e']
  | .bool false => ['f', 'a', 'l', 's', 'e']
  | .int n => (toString n).toList
  | .float q => floats.text q
  | .str s => quote s
  | .arr [] => ['[', ']']
  | .arr (item :: items) => '[' :: print item ++ printItems items ++ [']']
  | .obj [] => ['{', '}']
  | .obj ((key, value) :: fields) => '{' :: quote key ++ ':' :: ' ' :: print value ++ printFields fields ++ ['}']

def printItems : List Json → List Char
  | [] => []
  | item :: items => ',' :: ' ' :: print item ++ printItems items

def printFields : List (String × Json) → List Char
  | [] => []
  | (key, value) :: fields => ',' :: ' ' :: quote key ++ ':' :: ' ' :: print value ++ printFields fields

end

end Floats

/-! ### The characters of a text -/

/-- None of the characters that a text has of its own: the space and the visible ones of ASCII. -/
def Foreign (p : Char → Bool) : Prop := ∀ c : Char, 0x20 ≤ c.toNat → c.toNat < 0x7F → p c = false

section Characters

variable {floats : FloatText} {p : Char → Bool}

theorem isWord_of_mem_int {n : ℤ} {c : Char} (h : c ∈ (toString n).toList) : isWord c = true := by
  have hnat : ∀ {n : ℕ}, c ∈ n.repr.toList → isWord c = true := by
    intro n h
    rw [Nat.toList_repr] at h
    have hdigit := Nat.isDigit_of_mem_toDigits (by decide) (by decide) h
    rw [isWord, Char.isAlphanum, hdigit, Bool.or_true]
    rfl
  cases n with
  | ofNat n => exact hnat h
  | negSucc n =>
    rw [show toString (Int.negSucc n) = "-" ++ n.succ.repr from rfl, String.toList_append, mem_append] at h
    rcases h with h | h
    · rw [mem_singleton.mp h]
      rfl
    · exact hnat h

theorem Foreign.any_word (hp : Foreign p) {cs : List Char} (h : ∀ c ∈ cs, isWord c = true) : cs.any p = false := by
  rw [any_eq_false]
  intro c hc
  obtain ⟨hlow, hhigh⟩ := toNat_of_isWord (h c hc)
  rw [hp c (by omega) (by omega)]
  exact Bool.false_ne_true

theorem Foreign.any_escapeChar (hp : Foreign p) (c : Char) : (escapeChar c).any p = (decide (0x20 ≤ c.toNat) && p c) := by
  have hdigit : ∀ n < 16, 0x20 ≤ (Nat.digitChar n).toNat ∧ (Nat.digitChar n).toNat < 0x7F := by decide
  have hplain : ∀ d : Char, d.toNat < 0x20 ∨ d.toNat < 0x7F → (decide (0x20 ≤ d.toNat) && p d) = false := by
    intro d hd
    by_cases hlow : 0x20 ≤ d.toNat
    · rw [hp d hlow (by omega), Bool.and_false]
    · rw [decide_eq_false hlow, Bool.false_and]
  have hescape : ∀ d : Char, 0x20 ≤ d.toNat → d.toNat < 0x7F → ['\\', d].any p = false := by
    intro d hlow hhigh
    simp [hp '\\' (by decide) (by decide), hp d hlow hhigh]
  unfold escapeChar
  -- the characters that have an escape of their own
  iterate 7
    split
    · subst c
      rw [hescape _ (by decide) (by decide), hplain _ (by decide)]
  split
  · rename_i hcontrol
    obtain ⟨hlow, hhigh⟩ := hdigit (c.toNat / 16) (by omega)
    obtain ⟨hlow', hhigh'⟩ := hdigit (c.toNat % 16) (by omega)
    rw [hplain c (.inl hcontrol)]
    simp [hp '\\' (by decide) (by decide), hp 'u' (by decide) (by decide), hp '0' (by decide) (by decide),
      hp _ hlow hhigh, hp _ hlow' hhigh']
  · rename_i hvisible
    rw [decide_eq_true (Nat.not_lt.mp hvisible), Bool.true_and, any_cons, any_nil, Bool.or_false]

theorem Foreign.any_quote (hp : Foreign p) (s : String) :
    (quote s).any p = s.toList.any fun c => decide (0x20 ≤ c.toNat) && p c := by
  rw [quote, any_append, any_cons, any_flatMap, hp '"' (by decide) (by decide)]
  simp [hp '"' (by decide) (by decide), hp.any_escapeChar]

mutual

/-- A foreign character gets into a text only through the strings of the value. -/
theorem Foreign.any_print (hp : Foreign p) : ∀ value : Json,
    (print floats value).any p = anyChar (fun c => decide (0x20 ≤ c.toNat) && p c) value
  | .null => hp.any_word (show ∀ c ∈ ['n', 'u', 'l', 'l'], isWord c = true by simp [isWord])
  | .bool true => hp.any_word (show ∀ c ∈ ['t', 'r', 'u', 'e'], isWord c = true by simp [isWord])
  | .bool false => hp.any_word (show ∀ c ∈ ['f', 'a', 'l', 's', 'e'], isWord c = true by simp [isWord])
  | .int n => hp.any_word fun _ => isWord_of_mem_int
  | .float q => hp.any_word (floats.word q)
  | .str s => hp.any_quote s
  | .arr [] => by simp [print, anyChar, anyCharItems, hp '[' (by decide) (by decide), hp ']' (by decide) (by decide)]
  | .arr (item :: items) => by
    simp [print, anyChar, anyCharItems, hp.any_print item, hp.any_printItems items, hp '[' (by decide) (by decide),
      hp ']' (by decide) (by decide)]
  | .obj [] => by simp [print, anyChar, anyCharFields, hp '{' (by decide) (by decide), hp '}' (by decide) (by decide)]
  | .obj ((key, value) :: fields) => by
    simp [print, anyChar, anyCharFields, hp.any_quote key, hp.any_print value, hp.any_printFields fields,
      hp '{' (by decide) (by decide), hp '}' (by decide) (by decide), hp ':' (by decide) (by decide),
      hp ' ' (by decide) (by decide), Bool.or_assoc]

theorem Foreign.any_printItems (hp : Foreign p) : ∀ items : List Json,
    (printItems floats items).any p = anyCharItems (fun c => decide (0x20 ≤ c.toNat) && p c) items
  | [] => rfl
  | item :: items => by
    simp [printItems, anyCharItems, hp.any_print item, hp.any_printItems items, hp ',' (by decide) (by decide),
      hp ' ' (by decide) (by decide)]

theorem Foreign.any_printFields (hp : Foreign p) : ∀ fields : Fields,
    (printFields floats fields).any p = anyCharFields (fun c => decide (0x20 ≤ c.toNat) && p c) fields
  | [] => rfl
  | (key, value) :: fields => by
    simp [printFields, anyCharFields, hp.any_quote key, hp.any_print value, hp.any_printFields fields,
      hp ',' (by decide) (by decide), hp ':' (by decide) (by decide), hp ' ' (by decide) (by decide), Bool.or_assoc]

end

mutual

theorem anyChar_false : ∀ value : Json, anyChar (fun _ => false) value = false
  | .null | .bool _ | .int _ | .float _ => rfl
  | .str s => by simp [anyChar]
  | .arr items => anyCharItems_false items
  | .obj fields => anyCharFields_false fields

theorem anyCharItems_false : ∀ items : List Json, anyCharItems (fun _ => false) items = false
  | [] => rfl
  | item :: items => by simp [anyCharItems, anyChar_false item, anyCharItems_false items]

theorem anyCharFields_false : ∀ fields : Fields, anyCharFields (fun _ => false) fields = false
  | [] => rfl
  | (key, value) :: fields => by simp [anyCharFields, anyChar_false value, anyCharFields_false fields]

end

/-- No control character is left. -/
theorem visible_of_mem_print {value : Json} {c : Char} (h : c ∈ print floats value) : 0x20 ≤ c.toNat := by
  have hforeign : Foreign fun c => decide (c.toNat < 0x20) := fun c hlow _ => decide_eq_false (Nat.not_lt.mpr hlow)
  have hnone : (print floats value).any (fun c => decide (c.toNat < 0x20)) = false := by
    rw [hforeign.any_print, ← anyChar_false value]
    apply congrArg (anyChar · value)
    funext c
    simp only [Bool.and_eq_false_iff, decide_eq_false_iff_not]
    omega
  have hc := any_eq_false.mp hnone c h
  rw [decide_eq_true_eq] at hc
  omega

theorem print_obj (floats : FloatText) (fields : Fields) : ∃ inner, print floats (.obj fields) = '{' :: inner ++ ['}'] := by
  cases fields with
  | nil => exact ⟨[], rfl⟩
  | cons field fields => exact ⟨_, rfl⟩

end Characters

/-! ### A text with a value in it -/

theorem exists_print_eq (floats : FloatText) (before after : Fields) (name : String) :
    ∃ front back, ∀ json, print floats (.obj (before ++ (name, json) :: after)) = front ++ print floats json ++ back := by
  have hrest : ∀ before : Fields, ∃ front back, ∀ json,
      printFields floats (before ++ (name, json) :: after) = front ++ print floats json ++ back := by
    intro before
    induction before with
    | nil =>
      refine ⟨',' :: ' ' :: quote name ++ [':', ' '], printFields floats after, fun json => ?_⟩
      rw [nil_append, printFields]
      simp
    | cons field before ih =>
      obtain ⟨front, back, h⟩ := ih
      obtain ⟨key, value⟩ := field
      refine ⟨',' :: ' ' :: quote key ++ ':' :: ' ' :: print floats value ++ front, back, fun json => ?_⟩
      rw [cons_append, printFields, h]
      simp
  cases before with
  | nil =>
    refine ⟨'{' :: quote name ++ [':', ' '], printFields floats after ++ ['}'], fun json => ?_⟩
    rw [nil_append, print]
    simp
  | cons field before =>
    obtain ⟨front, back, h⟩ := hrest before
    obtain ⟨key, value⟩ := field
    refine ⟨'{' :: quote key ++ ':' :: ' ' :: print floats value ++ front, back ++ ['}'], fun json => ?_⟩
    rw [cons_append, print, h]
    simp

end ContextProxy.JsonText
