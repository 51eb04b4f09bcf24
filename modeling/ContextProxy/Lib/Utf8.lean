import Mathlib.Tactic.Common

/-!
# UTF-8 with replacement

`text.encode("utf-8")`, and `data.decode("utf-8", errors="replace")` as a machine that reads one byte at a time. A byte that cannot go on puts one replacement character in place of the broken character, and is then read as the first byte of the next. Encoded text is read back unchanged (`decode_encode`).
-/

namespace ContextProxy.Utf8

def encode (text : List Char) : List UInt8 := text.flatMap String.utf8EncodeChar

/-- Between two characters, or inside of one: how many bytes are missing, the range of the next one, and the value so far. -/
inductive State where
  | start
  | more (missing lower upper value : ℕ)

def replacement : Char := Char.ofNat 0xFFFD

def lead (byte : ℕ) : List Char × State :=
  if byte < 0x80 then ([Char.ofNat byte], .start)
  else if byte < 0xC2 then ([replacement], .start)
  else if byte < 0xE0 then ([], .more 1 0x80 0xBF (byte - 0xC0))
  -- the second byte is bounded where it would give an overlong form, a surrogate or a value that is too large
  else if byte < 0xF0 then
    ([], .more 2 (if byte = 0xE0 then 0xA0 else 0x80) (if byte = 0xED then 0x9F else 0xBF) (byte - 0xE0))
  else if byte < 0xF5 then
    ([], .more 3 (if byte = 0xF0 then 0x90 else 0x80) (if byte = 0xF4 then 0x8F else 0xBF) (byte - 0xF0))
  else ([replacement], .start)

def step : State → ℕ → List Char × State
  | .start, byte => lead byte
  | .more missing lower upper value, byte =>
    if lower ≤ byte ∧ byte ≤ upper then
      if missing ≤ 1 then ([Char.ofNat (value * 64 + (byte - 0x80))], .start)
      else ([], .more (missing - 1) 0x80 0xBF (value * 64 + (byte - 0x80)))
    else (replacement :: (lead byte).1, (lead byte).2)

def decodeFrom : State → List UInt8 → List Char
  | .start, [] => []
  | .more .., [] => [replacement]
  | state, byte :: bytes => (step state byte.toNat).1 ++ decodeFrom (step state byte.toNat).2 bytes

/-- `data.decode("utf-8", errors="replace")`. -/
def decode (bytes : List UInt8) : List Char := decodeFrom .start bytes

theorem decodeFrom_cons (state : State) (byte : UInt8) (bytes : List UInt8) :
    decodeFrom state (byte :: bytes) = (step state byte.toNat).1 ++ decodeFrom (step state byte.toNat).2 bytes := by
  cases state <;> rfl

theorem step_more {missing lower upper value byte : ℕ} (hlower : lower ≤ byte) (hupper : byte ≤ upper) (hmore : 1 < missing) :
    step (.more missing lower upper value) byte = ([], .more (missing - 1) 0x80 0xBF (value * 64 + (byte - 0x80))) := by
  rw [step, if_pos ⟨hlower, hupper⟩, if_neg (Nat.not_le.mpr hmore)]

theorem step_last {lower upper value byte : ℕ} (hlower : lower ≤ byte) (hupper : byte ≤ upper) :
    step (.more 1 lower upper value) byte = ([Char.ofNat (value * 64 + (byte - 0x80))], .start) := by
  rw [step, if_pos ⟨hlower, hupper⟩, if_pos (Nat.le_refl 1)]

theorem toNat_ofNat {n : ℕ} (h : n < 256) : (UInt8.ofNat n).toNat = n := UInt8.toNat_ofNat_of_lt' h

section Char

variable {v : ℕ} (bytes : List UInt8)

theorem decode_one (h : v < 0x80) : decodeFrom .start (UInt8.ofNat v :: bytes) = Char.ofNat v :: decodeFrom .start bytes := by
  rw [decodeFrom_cons, toNat_ofNat (by omega), step, lead, if_pos h]
  rfl

theorem decode_two (hlower : 0x80 ≤ v) (hupper : v < 0x800) :
    decodeFrom .start (UInt8.ofNat (v / 64 % 32 + 192) :: UInt8.ofNat (v % 64 + 128) :: bytes)
      = Char.ofNat v :: decodeFrom .start bytes := by
  have hlead : lead (v / 64 % 32 + 192) = ([], .more 1 0x80 0xBF (v / 64)) := by
    rw [lead, if_neg (by omega), if_neg (by omega), if_pos (by omega),
      show v / 64 % 32 + 192 - 0xC0 = v / 64 by omega]
  rw [decodeFrom_cons, toNat_ofNat (by omega), step, hlead, List.nil_append, decodeFrom_cons, toNat_ofNat (by omega),
    step_last (by omega) (by omega), show v / 64 * 64 + (v % 64 + 128 - 0x80) = v by omega]
  rfl

theorem decode_three (hlower : 0x800 ≤ v) (hupper : v < 0x10000) (hvalid : v < 0xD800 ∨ 0xDFFF < v) :
    decodeFrom .start (UInt8.ofNat (v / 4096 % 16 + 224) :: UInt8.ofNat (v / 64 % 64 + 128) :: UInt8.ofNat (v % 64 + 128)
      :: bytes) = Char.ofNat v :: decodeFrom .start bytes := by
  obtain ⟨lower, upper, hlead, hrange⟩ : ∃ lower upper, lead (v / 4096 % 16 + 224) = ([], .more 2 lower upper (v / 4096)) ∧
      lower ≤ v / 64 % 64 + 128 ∧ v / 64 % 64 + 128 ≤ upper := by
    rw [lead, if_neg (by omega), if_neg (by omega), if_neg (by omega), if_pos (by omega),
      show v / 4096 % 16 + 224 - 0xE0 = v / 4096 by omega]
    refine ⟨_, _, rfl, ?_, ?_⟩ <;> split <;> omega
  rw [decodeFrom_cons, toNat_ofNat (by omega), step, hlead, List.nil_append, decodeFrom_cons, toNat_ofNat (by omega),
    step_more hrange.1 hrange.2 (by omega), List.nil_append, decodeFrom_cons, toNat_ofNat (by omega),
    step_last (by omega) (by omega),
    show (v / 4096 * 64 + (v / 64 % 64 + 128 - 0x80)) * 64 + (v % 64 + 128 - 0x80) = v by omega]
  rfl

theorem decode_four (hlower : 0x10000 ≤ v) (hupper : v < 0x110000) :
    decodeFrom .start (UInt8.ofNat (v / 262144 % 8 + 240) :: UInt8.ofNat (v / 4096 % 64 + 128)
      :: UInt8.ofNat (v / 64 % 64 + 128) :: UInt8.ofNat (v % 64 + 128) :: bytes)
      = Char.ofNat v :: decodeFrom .start bytes := by
  obtain ⟨lower, upper, hlead, hrange⟩ : ∃ lower upper, lead (v / 262144 % 8 + 240) = ([], .more 3 lower upper (v / 262144)) ∧
      lower ≤ v / 4096 % 64 + 128 ∧ v / 4096 % 64 + 128 ≤ upper := by
    rw [lead, if_neg (by omega), if_neg (by omega), if_neg (by omega), if_neg (by omega), if_pos (by omega),
      show v / 262144 % 8 + 240 - 0xF0 = v / 262144 by omega]
    refine ⟨_, _, rfl, ?_, ?_⟩ <;> split <;> omega
  rw [decodeFrom_cons, toNat_ofNat (by omega), step, hlead, List.nil_append, decodeFrom_cons, toNat_ofNat (by omega),
    step_more hrange.1 hrange.2 (by omega), List.nil_append, decodeFrom_cons, toNat_ofNat (by omega),
    step_more (by omega) (by omega) (by omega), List.nil_append, decodeFrom_cons, toNat_ofNat (by omega),
    step_last (by omega) (by omega),
    show ((v / 262144 * 64 + (v / 4096 % 64 + 128 - 0x80)) * 64 + (v / 64 % 64 + 128 - 0x80)) * 64
      + (v % 64 + 128 - 0x80) = v by omega]
  rfl

end Char

/-- The bytes of a character are read as that character. -/
theorem decodeFrom_encodeChar (c : Char) (bytes : List UInt8) :
    decodeFrom .start (String.utf8EncodeChar c ++ bytes) = c :: decodeFrom .start bytes := by
  obtain ⟨v, hv⟩ : ∃ v, c.val.toNat = v := ⟨_, rfl⟩
  have hvalid : v < 0xD800 ∨ (0xDFFF < v ∧ v < 0x110000) := hv ▸ c.valid
  have hchar : c = Char.ofNat v := by rw [← hv]; exact c.ofNat_toNat.symm
  simp only [String.utf8EncodeChar, hv]
  conv_rhs => rw [hchar]
  split_ifs
  · exact decode_one bytes (by omega)
  · exact decode_two bytes (by omega) (by omega)
  · exact decode_three bytes (by omega) (by omega) (by omega)
  · exact decode_four bytes (by omega) (by omega)

theorem decode_encode (text : List Char) : decode (encode text) = text := by
  induction text with
  | nil => rfl
  | cons c text ih =>
    rw [encode, List.flatMap_cons, decode, decodeFrom_encodeChar]
    exact congrArg (c :: ·) ih

end ContextProxy.Utf8
