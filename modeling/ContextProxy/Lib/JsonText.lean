import ContextProxy.Lib.Json

/-!
# JSON texts

`json.loads` as two machines that read from left to right: one turns characters into tokens, one turns tokens into a value. Outside of strings all characters are ASCII, and there is no backslash. So a character that is not ASCII is in some string of the value (`exists_text_of_mem`), and what can be read both from inside of a string and from outside has only ASCII strings (`plain_of_run`).

Left open are the values of floats and the limits of the interpreter. A surrogate that is not part of a pair becomes a replacement character.
-/

namespace ContextProxy.JsonText

open List hiding lex

/-! ### Tokens -/

inductive Atom where
  | null
  | bool (b : Bool)
  | int (n : Int)
  | float (q : ℚ)

def Atom.value : Atom → Json
  | .null => .null
  | .bool b => .bool b
  | .int n => .int n
  | .float q => .float q

inductive Token where
  | lbrace
  | rbrace
  | lbracket
  | rbracket
  | colon
  | comma
  | text (s : String)
  | atom (a : Atom)

def isBlank (c : Char) : Bool := c = ' ' || c = '\t' || c = '\n' || c = '\r'

def punctuation : Char → Option Token
  | '{' => some .lbrace
  | '}' => some .rbrace
  | '[' => some .lbracket
  | ']' => some .rbracket
  | ':' => some .colon
  | ',' => some .comma
  | _ => none

/-! ### Numbers and names -/

def isWord (c : Char) : Bool := c.isAlphanum || c = '-' || c = '+' || c = '.'

def digitsValue (digits : List Char) : ℕ := digits.foldl (fun n digit => n * 10 + (digit.toNat - '0'.toNat)) 0

def isExponent : List Char → Bool
  | [] => true
  | e :: rest =>
    let digits := match rest with
      | '+' :: digits | '-' :: digits => digits
      | digits => digits
    (e = 'e' || e = 'E') && !digits.isEmpty && digits.all Char.isDigit

def isFraction : List Char → Bool
  | '.' :: rest => !(rest.takeWhile Char.isDigit).isEmpty && isExponent (rest.dropWhile Char.isDigit)
  | rest => isExponent rest

section Floats

variable (floatOf : List Char → ℚ)

def number (word : List Char) : Option Atom :=
  let negative := word.head? = some '-'
  let unsigned := if negative then word.tail else word
  let digits := unsigned.takeWhile Char.isDigit
  let rest := unsigned.dropWhile Char.isDigit
  if digits = [] ∨ (digits.head? = some '0' ∧ digits ≠ ['0']) then none
  else if rest = [] then some (.int (if negative then -(digitsValue digits : ℤ) else digitsValue digits))
  else if isFraction rest then some (.float (floatOf word))
  else none

/-- A number, or one of the names that Python knows. -/
def atomOf (word : List Char) : Option Atom :=
  if word = "null".toList then some .null
  else if word = "true".toList then some (.bool true)
  else if word = "false".toList then some (.bool false)
  else if word = "NaN".toList ∨ word = "Infinity".toList ∨ word = "-Infinity".toList then some (.float (floatOf word))
  else number floatOf word

/-- The token of a word that has ended, in reverse. -/
def flush : List Char → Option (List Token)
  | [] => some []
  | word => (atomOf floatOf word.reverse).map fun atom => [.atom atom]

end Floats

/-! ### Strings -/

def isHigh (unit : ℕ) : Bool := 0xD800 ≤ unit && unit < 0xDC00

def isLow (unit : ℕ) : Bool := 0xDC00 ≤ unit && unit < 0xE000

def charOf (unit : ℕ) : Char := if isHigh unit || isLow unit then Char.ofNat 0xFFFD else Char.ofNat unit

/-- The characters of a string, where two escapes can stand for one. -/
def assemble : List ℕ → List Char
  | [] => []
  | [unit] => [charOf unit]
  | high :: low :: units =>
    if isHigh high && isLow low then Char.ofNat (0x10000 + (high - 0xD800) * 0x400 + (low - 0xDC00)) :: assemble units
    else charOf high :: assemble (low :: units)

def escaped : Char → Option ℕ
  | '"' => some 0x22
  | '\\' => some 0x5C
  | '/' => some 0x2F
  | 'b' => some 0x08
  | 'f' => some 0x0C
  | 'n' => some 0x0A
  | 'r' => some 0x0D
  | 't' => some 0x09
  | _ => none

def hexDigit (c : Char) : Option ℕ :=
  if c.isDigit then some (c.toNat - '0'.toNat)
  else if 'a' ≤ c ∧ c ≤ 'f' then some (c.toNat - 'a'.toNat + 10)
  else if 'A' ≤ c ∧ c ≤ 'F' then some (c.toNat - 'A'.toNat + 10)
  else none

/-! ### From characters to tokens -/

/-- Outside of strings, with the current word; or in a string, after a backslash in it, or in the digits of an escape, with the units so far. Both in reverse. -/
inductive State where
  | out (word : List Char)
  | str (units : List ℕ)
  | esc (units : List ℕ)
  | hex (units : List ℕ) (missing value : ℕ)

section Floats

variable (floatOf : List Char → ℚ)

def stepOut (word : List Char) (c : Char) : Option (State × List Token) :=
  if isWord c then some (.out (c :: word), [])
  else
    (flush floatOf word).bind fun tokens =>
      if c = '"' then some (.str [], tokens)
      else if isBlank c then some (.out [], tokens)
      else (punctuation c).map fun token => (.out [], tokens ++ [token])

def stepStr (units : List ℕ) (c : Char) : Option (State × List Token) :=
  if c = '"' then some (.out [], [.text (String.ofList (assemble units.reverse))])
  else if c = '\\' then some (.esc units, [])
  else if c.toNat < 0x20 then none
  else some (.str (c.toNat :: units), [])

def step : State → Char → Option (State × List Token)
  | .out word, c => stepOut floatOf word c
  | .str units, c => stepStr units c
  | .esc units, c =>
    if c = 'u' then some (.hex units 4 0, []) else (escaped c).map fun unit => (.str (unit :: units), [])
  | .hex units missing value, c =>
    (hexDigit c).map fun digit =>
      if missing ≤ 1 then (.str ((value * 16 + digit) :: units), []) else (.hex units (missing - 1) (value * 16 + digit), [])

def run : State → List Char → Option (State × List Token)
  | state, [] => some (state, [])
  | state, c :: cs =>
    (step floatOf state c).bind fun (state, tokens) =>
      (run state cs).map fun (state, more) => (state, tokens ++ more)

def finish : State → Option (List Token)
  | .out word => flush floatOf word
  | .str _ | .esc _ | .hex .. => none

def lex (text : List Char) : Option (List Token) :=
  (run floatOf (.out []) text).bind fun (state, tokens) => (finish floatOf state).map fun more => tokens ++ more

end Floats

/-! ### From tokens to a value -/

/-- A container that is not closed: the items, or the fields and the key of the next, the last one first. -/
inductive Frame where
  | items (done : List Json)
  | fields (done : Fields) (key : String)

/-- What is expected next, or the value that is complete. -/
inductive Mode where
  | value
  | firstItem
  | firstKey
  | key (done : Fields)
  | colon (done : Fields) (key : String)
  | complete (value : Json)

def start (stack : List Frame) : Token → Option (Mode × List Frame)
  | .atom a => some (.complete a.value, stack)
  | .text s => some (.complete (.str s), stack)
  | .lbracket => some (.firstItem, stack)
  | .lbrace => some (.firstKey, stack)
  | _ => none

/-- One token. The fields of an object are kept with the last one first, so that the last of a repeated key is the one that is found. -/
def parseStep : Mode × List Frame → Token → Option (Mode × List Frame)
  | (.value, stack), token => start stack token
  | (.firstItem, stack), .rbracket => some (.complete (.arr []), stack)
  | (.firstItem, stack), token => start (.items [] :: stack) token
  | (.firstKey, stack), .rbrace => some (.complete (.obj []), stack)
  | (.firstKey, stack), .text key => some (.colon [] key, stack)
  | (.key done, stack), .text key => some (.colon done key, stack)
  | (.colon done key, stack), .colon => some (.value, .fields done key :: stack)
  | (.complete value, .items done :: stack), .comma => some (.value, .items (value :: done) :: stack)
  | (.complete value, .items done :: stack), .rbracket => some (.complete (.arr (value :: done).reverse), stack)
  | (.complete value, .fields done key :: stack), .comma => some (.key ((key, value) :: done), stack)
  | (.complete value, .fields done key :: stack), .rbrace => some (.complete (.obj ((key, value) :: done)), stack)
  | _, _ => none

def parse (tokens : List Token) : Option Json :=
  match tokens.foldlM parseStep (.value, []) with
  | some (.complete value, []) => some value
  | _ => none

/-- `json.loads`, up to the limits of the interpreter. -/
def read (floatOf : List Char → ℚ) (text : List Char) : Option Json := (lex floatOf text).bind parse

/-! ### The first machine -/

/-- The characters that mean something outside of strings or after a backslash, apart from blanks. -/
def isMark (c : Char) : Bool := isWord c || c = '"' || c = '\\' || c = '/' || (punctuation c).isSome

variable {c : Char}

theorem toNat_of_isWord (h : isWord c = true) : 0x21 ≤ c.toNat ∧ c.toNat ≤ 0x7D := by
  delta isWord Char.isAlphanum Char.isAlpha Char.isUpper Char.isLower Char.isDigit at h
  simp only [Bool.or_eq_true, Bool.and_eq_true, decide_eq_true_eq, UInt32.le_iff_toNat_le, ge_iff_le] at h
  rcases h with ((((h | h) | h) | rfl) | rfl) | rfl
  · exact ⟨le_trans (by decide) h.1, le_trans h.2 (by decide)⟩
  · exact ⟨le_trans (by decide) h.1, le_trans h.2 (by decide)⟩
  · exact ⟨le_trans (by decide) h.1, le_trans h.2 (by decide)⟩
  all_goals decide

theorem toNat_of_isMark (h : isMark c = true) : 0x21 ≤ c.toNat ∧ c.toNat ≤ 0x7D := by
  simp only [isMark, Bool.or_eq_true, decide_eq_true_eq] at h
  rcases h with (((h | rfl) | rfl) | rfl) | h
  · exact toNat_of_isWord h
  · decide
  · decide
  · decide
  · unfold punctuation at h
    split at h
    all_goals first | decide | cases h

theorem isWord_of_hexDigit {digit : ℕ} (h : hexDigit c = some digit) : isWord c = true := by
  suffices c.isAlphanum = true by rw [isWord, this, Bool.true_or, Bool.true_or, Bool.true_or]
  delta Char.isAlphanum Char.isAlpha
  rw [Bool.or_eq_true, Bool.or_eq_true]
  unfold hexDigit at h
  split at h
  · exact .inr ‹_›
  · split at h
    · rename_i hlower
      refine .inl (.inr ?_)
      delta Char.isLower
      simp only [Bool.and_eq_true, decide_eq_true_iff]
      exact ⟨hlower.1, le_trans hlower.2 (by decide)⟩
    · split at h
      · rename_i hupper
        refine .inl (.inl ?_)
        delta Char.isUpper
        simp only [decide_eq_true_iff]
        exact ⟨hupper.1, le_trans hupper.2 (by decide)⟩
      · cases h

theorem isMark_of_escaped {unit : ℕ} (h : escaped c = some unit) : isMark c = true := by
  unfold escaped at h
  split at h
  all_goals first | rfl | cases h

section Floats

variable {floatOf : List Char → ℚ} {state state' : State} {tokens : List Token}

theorem text_not_mem_flush {word : List Char} (h : flush floatOf word = some tokens) (s : String) : Token.text s ∉ tokens := by
  cases word with
  | nil =>
    obtain rfl := Option.some.inj h
    exact not_mem_nil
  | cons c word =>
    obtain ⟨atom, -, rfl⟩ := Option.map_eq_some_iff.mp h
    simp

variable {c : Char} {cs text : List Char}

/-- Outside of strings: a quote opens one, and any other character is a mark or a blank. -/
theorem stepOut_cases {word : List Char} (h : stepOut floatOf word c = some (state', tokens)) :
    (∀ s, Token.text s ∉ tokens) ∧ ((c = '"' ∧ state' = .str []) ∨
      (c ≠ '"' ∧ c ≠ '\\' ∧ (isMark c = true ∨ isBlank c = true) ∧ ∃ word', state' = .out word')) := by
  rw [stepOut] at h
  split at h
  · rename_i hword
    obtain ⟨rfl, rfl⟩ := Prod.ext_iff.mp (Option.some.inj h)
    refine ⟨fun s => not_mem_nil, .inr ⟨?_, ?_, .inl ?_, _, rfl⟩⟩
    · exact fun heq => absurd (heq ▸ hword) (by decide)
    · exact fun heq => absurd (heq ▸ hword) (by decide)
    · simp only [isMark, hword, Bool.true_or]
  · obtain ⟨flushed, hflushed, h⟩ := Option.bind_eq_some_iff.mp h
    split at h
    · rename_i hquote
      obtain ⟨rfl, rfl⟩ := Prod.ext_iff.mp (Option.some.inj h)
      exact ⟨text_not_mem_flush hflushed, .inl ⟨hquote, rfl⟩⟩
    · rename_i hquote
      split at h
      · rename_i hblank
        obtain ⟨rfl, rfl⟩ := Prod.ext_iff.mp (Option.some.inj h)
        exact ⟨text_not_mem_flush hflushed, .inr ⟨hquote, fun heq => absurd (heq ▸ hblank) (by decide), .inr hblank, _, rfl⟩⟩
      · obtain ⟨token, htoken, h⟩ := Option.map_eq_some_iff.mp h
        obtain ⟨rfl, rfl⟩ := Prod.ext_iff.mp h
        refine ⟨?_, .inr ⟨hquote, fun heq => ?_, .inl ?_, _, rfl⟩⟩
        · intro s hs
          rcases mem_append.mp hs with hs | hs
          · exact text_not_mem_flush hflushed s hs
          · rw [← mem_singleton.mp hs] at htoken
            unfold punctuation at htoken
            split at htoken <;> cases htoken
        · rw [heq] at htoken
          cases htoken
        · simp only [isMark, htoken, Option.isSome_some, Bool.or_true]

theorem stepStr_cases {units : List ℕ} (h : stepStr units c = some (state', tokens)) :
    (c = '"' ∧ state' = .out [] ∧ tokens = [.text (String.ofList (assemble units.reverse))]) ∨
      (c = '\\' ∧ state' = .esc units ∧ tokens = []) ∨
      (c ≠ '"' ∧ c ≠ '\\' ∧ 0x20 ≤ c.toNat ∧ state' = .str (c.toNat :: units) ∧ tokens = []) := by
  rw [stepStr] at h
  split at h
  · rename_i hquote
    obtain ⟨rfl, rfl⟩ := Prod.ext_iff.mp (Option.some.inj h)
    exact .inl ⟨hquote, rfl, rfl⟩
  · rename_i hquote
    split at h
    · rename_i hbackslash
      obtain ⟨rfl, rfl⟩ := Prod.ext_iff.mp (Option.some.inj h)
      exact .inr (.inl ⟨hbackslash, rfl, rfl⟩)
    · rename_i hbackslash
      split at h
      · cases h
      · rename_i hvisible
        obtain ⟨rfl, rfl⟩ := Prod.ext_iff.mp (Option.some.inj h)
        exact .inr (.inr ⟨hquote, hbackslash, Nat.not_lt.mp hvisible, rfl, rfl⟩)

theorem step_of_not_mark (hc : isMark c = false) (h : step floatOf state c = some (state', tokens)) :
    (∃ word, state = .out word ∧ isBlank c = true ∧ state' = .out [] ∧ flush floatOf word = some tokens) ∨
      ∃ units, state = .str units ∧ 0x20 ≤ c.toNat ∧ state' = .str (c.toNat :: units) ∧ tokens = [] := by
  have hmark := hc
  simp only [isMark, Bool.or_eq_false_iff, decide_eq_false_iff_not, Option.isSome_eq_false_iff, Option.isNone_iff_eq_none] at hc
  obtain ⟨⟨⟨⟨hword, hquote⟩, hbackslash⟩, -⟩, hpunctuation⟩ := hc
  cases state with
  | out word =>
    rw [step, stepOut, if_neg (Bool.eq_false_iff.mp hword)] at h
    obtain ⟨done, hdone, h⟩ := Option.bind_eq_some_iff.mp h
    rw [if_neg hquote, hpunctuation] at h
    split at h
    · rename_i hblank
      obtain ⟨rfl, rfl⟩ := Prod.ext_iff.mp (Option.some.inj h)
      exact .inl ⟨word, rfl, hblank, rfl, hdone⟩
    · cases h
  | str units =>
    obtain ⟨hc, -⟩ | ⟨hc, -⟩ | ⟨-, -, hvisible, rfl, rfl⟩ := stepStr_cases h
    · exact absurd hc hquote
    · exact absurd hc hbackslash
    · exact .inr ⟨units, rfl, hvisible, rfl, rfl⟩
  | esc units =>
    rw [step] at h
    split at h
    · rename_i hu
      rw [hu] at hword
      cases hword
    · obtain ⟨unit, hunit, -⟩ := Option.map_eq_some_iff.mp h
      rw [isMark_of_escaped hunit] at hmark
      cases hmark
  | hex units missing value =>
    obtain ⟨digit, hdigit, -⟩ := Option.map_eq_some_iff.mp h
    rw [isWord_of_hexDigit hdigit] at hword
    cases hword

theorem run_cons_eq_some :
    run floatOf state (c :: cs) = some (state', tokens) ↔ ∃ next first rest, step floatOf state c = some (next, first) ∧
      run floatOf next cs = some (state', rest) ∧ tokens = first ++ rest := by
  simp only [run, Option.bind_eq_some_iff, Option.map_eq_some_iff, Prod.exists, Prod.mk.injEq]
  constructor
  · intro ⟨next, first, hstep, _, rest, hrun, hstate, htokens⟩
    exact ⟨next, first, rest, hstep, hstate ▸ hrun, htokens.symm⟩
  · intro ⟨next, first, rest, hstep, hrun, htokens⟩
    exact ⟨next, first, hstep, _, rest, hrun, rfl, htokens.symm⟩

theorem run_append_eq_some {as bs : List Char} :
    run floatOf state (as ++ bs) = some (state', tokens) ↔ ∃ next first rest, run floatOf state as = some (next, first) ∧
      run floatOf next bs = some (state', rest) ∧ tokens = first ++ rest := by
  induction as generalizing state tokens with
  | nil => simp [run]
  | cons c as ih =>
    simp only [cons_append, run_cons_eq_some, ih]
    constructor
    · intro ⟨next, first, _, hstep, ⟨mid, second, rest, has, hbs, hmid⟩, htokens⟩
      exact ⟨mid, first ++ second, rest, ⟨next, first, second, hstep, has, rfl⟩, hbs, by simp [htokens, hmid]⟩
    · intro ⟨mid, _, rest, ⟨next, first, second, hstep, has, hmid⟩, hbs, htokens⟩
      exact ⟨next, first, second ++ rest, hstep, ⟨mid, second, rest, has, hbs, rfl⟩, by simp [htokens, hmid]⟩

theorem lex_eq_some :
    lex floatOf text = some tokens ↔ ∃ state first rest, run floatOf (.out []) text = some (state, first) ∧
      finish floatOf state = some rest ∧ tokens = first ++ rest := by
  simp only [lex, Option.bind_eq_some_iff, Option.map_eq_some_iff, Prod.exists, eq_comm (a := tokens), exists_and_left]

/-! ### Blanks around a text -/

theorem lex_cons_of_not_mark (hc : isMark c = false) (h : lex floatOf (c :: cs) = some tokens) :
    lex floatOf cs = some tokens := by
  obtain ⟨state, first, rest, hrun, hfinish, htokens⟩ := lex_eq_some.mp h
  obtain ⟨next, skipped, more, hstep, hrun, hfirst⟩ := run_cons_eq_some.mp hrun
  obtain ⟨word, hword, -, rfl, hflush⟩ | ⟨units, hunits, -⟩ := step_of_not_mark hc hstep
  · cases hword
    obtain rfl := Option.some.inj hflush
    exact lex_eq_some.mpr ⟨state, more, rest, hrun, hfinish, by rw [htokens, hfirst, nil_append]⟩
  · cases hunits

theorem lex_concat_of_not_mark (hc : isMark c = false) (h : lex floatOf (cs ++ [c]) = some tokens) :
    lex floatOf cs = some tokens := by
  obtain ⟨state, first, rest, hrun, hfinish, htokens⟩ := lex_eq_some.mp h
  obtain ⟨mid, done, last, hcs, hlast, hfirst⟩ := run_append_eq_some.mp hrun
  obtain ⟨next, flushed, nothing, hstep, hnil, rfl⟩ := run_cons_eq_some.mp hlast
  obtain ⟨rfl, rfl⟩ := Prod.ext_iff.mp (Option.some.inj hnil)
  obtain ⟨word, rfl, -, rfl, hflush⟩ | ⟨units, -, -, rfl, -⟩ := step_of_not_mark hc hstep
  · obtain rfl := Option.some.inj hfinish
    exact lex_eq_some.mpr ⟨.out word, done, flushed, hcs, hflush, by simp [htokens, hfirst]⟩
  · cases hfinish

/-- A text cannot be read up to a place inside of a string, whatever is cut off there that is no mark. -/
theorem run_str_of_concat {units : List ℕ} (hc : isMark c = false)
    (h : run floatOf state (cs ++ [c]) = some (.str units, tokens)) :
    ∃ units tokens, run floatOf state cs = some (.str units, tokens) := by
  obtain ⟨mid, done, last, hcs, hlast, -⟩ := run_append_eq_some.mp h
  obtain ⟨next, flushed, nothing, hstep, hnil, -⟩ := run_cons_eq_some.mp hlast
  obtain ⟨rfl, -⟩ := Prod.ext_iff.mp (Option.some.inj hnil)
  obtain ⟨word, -, -, hnext, -⟩ | ⟨units, rfl, -⟩ := step_of_not_mark hc hstep
  · cases hnext
  · exact ⟨units, done, hcs⟩

/-! ### Characters in strings -/

theorem not_surrogate (c : Char) : (isHigh c.toNat || isLow c.toNat) = false := by
  have hvalid : c.toNat < 0xD800 ∨ 0xDFFF < c.toNat ∧ c.toNat < 0x110000 := c.valid
  simp only [isHigh, isLow, Bool.or_eq_false_iff, Bool.and_eq_false_iff, decide_eq_false_iff_not]
  omega

theorem charOf_toNat (c : Char) : charOf c.toNat = c := by
  rw [charOf, if_neg (Bool.eq_false_iff.mp (not_surrogate c)), Char.ofNat_toNat]

theorem mem_assemble {units : List ℕ} (h : c.toNat ∈ units) : c ∈ assemble units := by
  fun_induction assemble units with
  | case1 => cases h
  | case2 unit =>
    rw [← mem_singleton.mp h, charOf_toNat]
    exact mem_singleton_self c
  | case3 high low units hpair ih =>
    obtain ⟨hhigh, hlow⟩ := Bool.and_eq_true_iff.mp hpair
    obtain ⟨hnhigh, hnlow⟩ := Bool.or_eq_false_iff.mp (not_surrogate c)
    refine mem_cons_of_mem _ (ih ?_)
    rcases mem_cons.mp h with heq | h
    · rw [heq, hhigh] at hnhigh
      cases hnhigh
    · rcases mem_cons.mp h with heq | h
      · rw [heq, hlow] at hnlow
        cases hnlow
      · exact h
  | case4 high low units hpair ih =>
    rcases mem_cons.mp h with heq | h
    · rw [← heq, charOf_toNat]
      exact mem_cons_self
    · exact mem_cons_of_mem _ (ih h)

theorem assemble_map_toNat (cs : List Char) : assemble (cs.map Char.toNat) = cs := by
  induction cs with
  | nil => rfl
  | cons c cs ih =>
    cases cs with
    | nil => rw [map_singleton, assemble, charOf_toNat]
    | cons d cs =>
      have hhigh := (Bool.or_eq_false_iff.mp (not_surrogate c)).1
      rw [map_cons, map_cons, assemble, hhigh, Bool.false_and, if_neg Bool.false_ne_true, charOf_toNat]
      exact congrArg (c :: ·) ih

def State.units : State → List ℕ
  | .out _ => []
  | .str units | .esc units | .hex units _ _ => units

/-- A character stays in the string that is read, or it is in one that is complete. -/
def Kept (c : Char) (state : State) (tokens : List Token) : Prop :=
  c.toNat ∈ state.units ∨ ∃ s, Token.text s ∈ tokens ∧ c ∈ s.toList

variable {d : Char}

theorem step_keeps (hd : d.toNat ∈ state.units) (h : step floatOf state c = some (state', tokens)) :
    Kept d state' tokens := by
  cases state with
  | out word => cases hd
  | str units =>
    obtain ⟨-, rfl, rfl⟩ | ⟨-, rfl, rfl⟩ | ⟨-, -, -, rfl, rfl⟩ := stepStr_cases h
    · refine .inr ⟨_, mem_singleton_self _, ?_⟩
      rw [String.toList_ofList]
      exact mem_assemble (mem_reverse.mpr hd)
    · exact .inl hd
    · exact .inl (mem_cons_of_mem _ hd)
  | esc units =>
    rw [step] at h
    split at h
    · obtain ⟨rfl, rfl⟩ := Prod.ext_iff.mp (Option.some.inj h)
      exact .inl hd
    · obtain ⟨unit, -, h⟩ := Option.map_eq_some_iff.mp h
      obtain ⟨rfl, rfl⟩ := Prod.ext_iff.mp h
      exact .inl (mem_cons_of_mem _ hd)
  | hex units missing value =>
    obtain ⟨digit, -, h⟩ := Option.map_eq_some_iff.mp h
    split at h
    · obtain ⟨rfl, rfl⟩ := Prod.ext_iff.mp h
      exact .inl (mem_cons_of_mem _ hd)
    · obtain ⟨rfl, rfl⟩ := Prod.ext_iff.mp h
      exact .inl hd

theorem run_keeps (hmark : isMark d = false) (hblank : isBlank d = false) (hd : d.toNat ∈ state.units ∨ d ∈ cs)
    (h : run floatOf state cs = some (state', tokens)) : Kept d state' tokens := by
  induction cs generalizing state tokens with
  | nil =>
    obtain ⟨rfl, rfl⟩ := Prod.ext_iff.mp (Option.some.inj h)
    exact .inl (hd.resolve_right (not_mem_nil))
  | cons c cs ih =>
    obtain ⟨next, first, rest, hstep, hrun, rfl⟩ := run_cons_eq_some.mp h
    have hnext : Kept d next first ∨ d ∈ cs := by
      rcases hd with hd | hd
      · exact .inl (step_keeps hd hstep)
      · rcases mem_cons.mp hd with rfl | hd
        · obtain ⟨word, -, hb, -⟩ | ⟨units, -, -, rfl, -⟩ := step_of_not_mark hmark hstep
          · rw [hblank] at hb
            cases hb
          · exact .inl (.inl mem_cons_self)
        · exact .inr hd
    rcases hnext with (hunits | ⟨s, hs, hds⟩) | hcs
    · exact (ih (.inl hunits) hrun).imp_right fun ⟨s, hs, hds⟩ => ⟨s, mem_append_right _ hs, hds⟩
    · exact .inr ⟨s, mem_append_left _ hs, hds⟩
    · exact (ih (.inr hcs) hrun).imp_right fun ⟨s, hs, hds⟩ => ⟨s, mem_append_right _ hs, hds⟩

theorem exists_text_of_mem (hmark : isMark d = false) (hblank : isBlank d = false) (hd : d ∈ text)
    (h : lex floatOf text = some tokens) : ∃ s, Token.text s ∈ tokens ∧ d ∈ s.toList := by
  obtain ⟨state, first, rest, hrun, hfinish, rfl⟩ := lex_eq_some.mp h
  obtain hunits | ⟨s, hs, hds⟩ := run_keeps hmark hblank (.inr hd) hrun
  · cases state with
    | out word => cases hunits
    | str units | esc units | hex units missing value => cases hfinish
  · exact ⟨s, mem_append_left _ hs, hds⟩

/-! ### One text, read from inside of a string and from outside -/

/-- Where two machines stand that read the same characters, one of which has started inside of a string: they are never in a string both, and what the second has in its string was outside for the first. -/
inductive Flipped : State → State → Prop
  | inside (units : List ℕ) (word : List Char) : Flipped (.str units) (.out word)
  | outside (word cs : List Char) (h : ∀ c ∈ cs, isMark c = true ∨ isBlank c = true) :
      Flipped (.out word) (.str (cs.map Char.toNat))

/-- The strings among the tokens have only characters that can stand outside of strings. -/
def Plain (tokens : List Token) : Prop :=
  ∀ s, Token.text s ∈ tokens → ∀ c ∈ s.toList, isMark c = true ∨ isBlank c = true

variable {outer outer' inner inner' : State} {skipped : List Token}

theorem Flipped.step (hflipped : Flipped outer inner) (houter : step floatOf outer c = some (outer', skipped))
    (hinner : step floatOf inner c = some (inner', tokens)) : Flipped outer' inner' ∧ Plain tokens := by
  cases hflipped with
  | inside units word =>
    obtain ⟨hatoms, hcases⟩ := stepOut_cases hinner
    refine ⟨?_, fun s hs => absurd hs (hatoms s)⟩
    obtain ⟨rfl, rfl⟩ | ⟨hquote, hbackslash, -, word', rfl⟩ := hcases
    · obtain ⟨rfl, -⟩ := Prod.ext_iff.mp (Option.some.inj houter)
      exact .outside [] [] (by simp)
    · obtain ⟨hc, -⟩ | ⟨hc, -⟩ | ⟨-, -, -, rfl, -⟩ := stepStr_cases houter
      · exact absurd hc hquote
      · exact absurd hc hbackslash
      · exact .inside _ _
  | outside word cs hcs =>
    obtain ⟨-, hcases⟩ := stepOut_cases houter
    obtain ⟨rfl, rfl, rfl⟩ | ⟨rfl, rfl, rfl⟩ | ⟨hquote, -, -, rfl, rfl⟩ := stepStr_cases hinner
    · obtain ⟨-, rfl⟩ | ⟨hquote, -⟩ := hcases
      · refine ⟨.inside _ _, ?_⟩
        intro s hs c hc
        rw [Token.text.inj (mem_singleton.mp hs), ← map_reverse, assemble_map_toNat, String.toList_ofList] at hc
        exact hcs c (mem_reverse.mp hc)
      · exact absurd rfl hquote
    · obtain ⟨hc, -⟩ | ⟨-, hbackslash, -⟩ := hcases
      · cases hc
      · exact absurd rfl hbackslash
    · obtain ⟨hc, -⟩ | ⟨-, -, hout, word', rfl⟩ := hcases
      · exact absurd hc hquote
      · exact ⟨.outside word' (c :: cs) (forall_mem_cons.mpr ⟨hout, hcs⟩), fun s hs => absurd hs not_mem_nil⟩

theorem Flipped.run (hflipped : Flipped outer inner) (houter : run floatOf outer cs = some (outer', skipped))
    (hinner : run floatOf inner cs = some (inner', tokens)) : Plain tokens := by
  induction cs generalizing outer inner skipped tokens with
  | nil =>
    obtain ⟨-, rfl⟩ := Prod.ext_iff.mp (Option.some.inj hinner)
    exact fun s hs => absurd hs not_mem_nil
  | cons c cs ih =>
    obtain ⟨next, _, _, hstep, hrest, -⟩ := run_cons_eq_some.mp houter
    obtain ⟨next', first, rest, hstep', hrest', rfl⟩ := run_cons_eq_some.mp hinner
    obtain ⟨hnext, hfirst⟩ := hflipped.step hstep hstep'
    intro s hs
    exact (mem_append.mp hs).elim (hfirst s) (ih hnext hrest hrest' s)

/-- A text that can be read on from inside of a string has plain strings. -/
theorem plain_of_run {units : List ℕ} (houter : run floatOf (.str units) text = some (outer', skipped))
    (h : lex floatOf text = some tokens) : Plain tokens := by
  obtain ⟨state, first, rest, hrun, hfinish, rfl⟩ := lex_eq_some.mp h
  have hfirst := (Flipped.inside units []).run houter hrun
  intro s hs
  rcases mem_append.mp hs with hs | hs
  · exact hfirst s hs
  · cases state with
    | out word => exact absurd hs (text_not_mem_flush hfinish s)
    | str units | esc units | hex units missing value => cases hfinish

end Floats

/-! ### The second machine -/

section Strings

variable (p : Char → Bool)

mutual

/-- Some key or string of the value has such a character. -/
def anyChar : Json → Bool
  | .str s => s.toList.any p
  | .arr items => anyCharItems items
  | .obj fields => anyCharFields fields
  | _ => false

def anyCharItems : List Json → Bool
  | [] => false
  | item :: items => anyChar item || anyCharItems items

def anyCharFields : List (String × Json) → Bool
  | [] => false
  | (key, value) :: fields => key.toList.any p || anyChar value || anyCharFields fields

end

def Token.anyChar : Token → Bool
  | .text s => s.toList.any p
  | _ => false

def Frame.anyChar : Frame → Bool
  | .items done => anyCharItems p done
  | .fields done key => anyCharFields p done || key.toList.any p

def Mode.anyChar : Mode → Bool
  | .value | .firstItem | .firstKey => false
  | .key done => anyCharFields p done
  | .colon done name => anyCharFields p done || name.toList.any p
  | .complete json => JsonText.anyChar p json

/-- Some string that has been read has such a character. -/
def anyCharSeen (state : Mode × List Frame) : Bool := state.1.anyChar p || state.2.any (·.anyChar p)

variable {p}

theorem anyCharItems_eq (items : List Json) : anyCharItems p items = items.any (anyChar p) := by
  induction items with
  | nil => rfl
  | cons item items ih => rw [anyCharItems, any_cons, ih]

theorem anyChar_value (a : Atom) : anyChar p a.value = false := by cases a <;> rfl

theorem start_anyChar {stack : List Frame} {token : Token} {state : Mode × List Frame} (h : start stack token = some state) :
    anyCharSeen p state = (stack.any (·.anyChar p) || token.anyChar p) := by
  cases token with
  | atom a =>
    obtain rfl := Option.some.inj h
    simp [anyCharSeen, Mode.anyChar, Token.anyChar, anyChar_value]
  | text s =>
    obtain rfl := Option.some.inj h
    simp [anyCharSeen, Mode.anyChar, Token.anyChar, anyChar, Bool.or_comm]
  | lbrace | lbracket =>
    obtain rfl := Option.some.inj h
    simp [anyCharSeen, Mode.anyChar, Token.anyChar]
  | rbrace | rbracket | colon | comma => cases h

theorem parseStep_anyChar {state state' : Mode × List Frame} {token : Token} (h : parseStep state token = some state') :
    anyCharSeen p state' = (anyCharSeen p state || token.anyChar p) := by
  unfold parseStep at h
  split at h
  case h_1 => exact start_anyChar h
  case h_3 =>
    rw [start_anyChar h]
    rfl
  case h_12 => cases h
  all_goals
    obtain rfl := Option.some.inj h
    simp [anyCharSeen, Mode.anyChar, Frame.anyChar, Token.anyChar, anyChar, anyCharItems_eq, anyCharFields, Bool.or_assoc,
      Bool.or_comm, Bool.or_left_comm]

/-- The strings of a value are the strings among its tokens. -/
theorem parse_anyChar {tokens : List Token} {value : Json} (h : parse tokens = some value) :
    anyChar p value = tokens.any (·.anyChar p) := by
  have hfold : ∀ {tokens : List Token} {state state' : Mode × List Frame}, tokens.foldlM parseStep state = some state' →
      anyCharSeen p state' = (anyCharSeen p state || tokens.any (·.anyChar p)) := by
    intro tokens
    induction tokens with
    | nil =>
      intro state state' h
      obtain rfl := Option.some.inj h
      exact (Bool.or_false _).symm
    | cons token tokens ih =>
      intro state state' h
      rw [foldlM_cons] at h
      obtain ⟨next, hnext, hrest⟩ := Option.bind_eq_some_iff.mp h
      rw [ih hrest, parseStep_anyChar hnext, any_cons, Bool.or_assoc]
  unfold parse at h
  split at h
  · rename_i value' hrun
    obtain rfl := Option.some.inj h
    simpa [anyCharSeen, Mode.anyChar] using hfold hrun
  · cases h

end Strings

end ContextProxy.JsonText
