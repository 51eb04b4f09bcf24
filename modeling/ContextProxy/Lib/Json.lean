import Mathlib.Data.List.Forall2
import Mathlib.Data.Rat.Defs
import Mathlib.Data.String.Basic

/-!
# JSON values with Python's operations

What `json.loads` returns, and Python's operations on it: `dict.get`, `dict.pop`, item assignment, truth value and `==`. A dict is the list of its fields, read through the first field of a key, so nothing has to assume that keys are distinct.

`==` is defined by a normal form: fields sorted by key, and the three numeric types brought to one, because `True == 1 == 1.0`. Equal dicts have equal values under every key (`get_pyEq`), and conversely (`pyEq_obj`). Where a function tells `True` from `1`, the sorted form is the finer notion.
-/

namespace ContextProxy

open List hiding get set

inductive Json where
  | null
  | bool (b : Bool)
  | int (n : Int)
  | float (q : ℚ)
  | str (s : String)
  | arr (items : List Json)
  | obj (fields : List (String × Json))
  deriving Repr

abbrev Fields := List (String × Json)

namespace Json

/-! ### Structural equality is decidable -/

mutual

def same : Json → Json → Bool
  | .null, .null => true
  | .bool a, .bool b => a == b
  | .int a, .int b => a == b
  | .float a, .float b => a == b
  | .str a, .str b => a == b
  | .arr a, .arr b => sameItems a b
  | .obj a, .obj b => sameFields a b
  | _, _ => false

def sameItems : List Json → List Json → Bool
  | [], [] => true
  | a :: as, b :: bs => same a b && sameItems as bs
  | _, _ => false

def sameFields : List (String × Json) → List (String × Json) → Bool
  | [], [] => true
  | (k, a) :: as, (l, b) :: bs => k == l && same a b && sameFields as bs
  | _, _ => false

end

mutual

theorem same_iff : ∀ a b : Json, same a b = true ↔ a = b
  | .arr as, b => by
    cases b with
    | arr bs => simp only [same, sameItems_iff as bs, Json.arr.injEq]
    | _ => simp [same]
  | .obj as, b => by
    cases b with
    | obj bs => simp only [same, sameFields_iff as bs, Json.obj.injEq]
    | _ => simp [same]
  | .null, b | .bool _, b | .int _, b | .float _, b | .str _, b => by cases b <;> simp [same]

theorem sameItems_iff : ∀ as bs : List Json, sameItems as bs = true ↔ as = bs
  | [], bs => by cases bs <;> simp [sameItems]
  | a :: as, bs => by
    cases bs with
    | nil => simp [sameItems]
    | cons b bs => simp only [sameItems, Bool.and_eq_true, same_iff a b, sameItems_iff as bs, List.cons.injEq]

theorem sameFields_iff : ∀ as bs : List (String × Json), sameFields as bs = true ↔ as = bs
  | [], bs => by cases bs <;> simp [sameFields]
  | (k, a) :: as, bs => by
    cases bs with
    | nil => simp [sameFields]
    | cons b bs =>
      simp only [sameFields, Bool.and_eq_true, beq_iff_eq, same_iff a b.2, sameFields_iff as bs,
        List.cons.injEq, Prod.ext_iff]

end

instance : DecidableEq Json := fun a b => decidable_of_iff (same a b = true) (same_iff a b)

/-! ### The normal form and Python's equality -/

/-- Put a field into fields sorted by key, in place of the one that has its key. -/
def insertField (key : String) (value : Json) : Fields → Fields
  | [] => [(key, value)]
  | (k, v) :: fields =>
    if key < k then (key, value) :: (k, v) :: fields
    else if key = k then (key, value) :: fields
    else (k, v) :: insertField key value fields

mutual

def normal : Json → Json
  | .null => .null
  | .bool b => .float (if b then 1 else 0)
  | .int n => .float n
  | .float q => .float q
  | .str s => .str s
  | .arr items => .arr (normalItems items)
  | .obj fields => .obj (normalFields fields)

def normalItems : List Json → List Json
  | [] => []
  | item :: items => normal item :: normalItems items

def normalFields : List (String × Json) → List (String × Json)
  | [] => []
  | (k, v) :: fields => insertField k (normal v) (normalFields fields)

end

/-- Python's `a == b`. -/
def pyEq (a b : Json) : Bool := decide (normal a = normal b)

variable {a b : Json} {fields : Fields}

theorem pyEq_iff : pyEq a b = true ↔ normal a = normal b := decide_eq_true_iff

@[simp] theorem pyEq_refl (a : Json) : pyEq a a = true := pyEq_iff.mpr rfl

theorem pyEq_symm (h : pyEq a b = true) : pyEq b a = true :=
  pyEq_iff.mpr (pyEq_iff.mp h).symm

theorem pyEq_trans {c : Json} (hab : pyEq a b = true) (hbc : pyEq b c = true) : pyEq a c = true :=
  pyEq_iff.mpr ((pyEq_iff.mp hab).trans (pyEq_iff.mp hbc))

/-! ### Fields -/

/-- `fields.get(key)`, with Python's `None` for a missing key. -/
def get (fields : Fields) (key : String) : Json := (fields.lookup key).getD .null

/-- `fields.pop(key, None)`. -/
def pop (fields : Fields) (key : String) : Fields := fields.filter fun field => field.1 != key

/-- `fields[key] = value`. -/
def set (fields : Fields) (key : String) (value : Json) : Fields := (key, value) :: pop fields key

/-- `key in fields`. -/
def has (fields : Fields) (key : String) : Bool := (fields.lookup key).isSome

theorem lookup_cons_eq_ite (key k : String) (value : Json) (fields : Fields) :
    List.lookup k ((key, value) :: fields) = if k = key then some value else fields.lookup k := by
  by_cases h : k = key
  · simp [h]
  · rw [List.lookup_cons, beq_false_of_ne h, if_neg h]

theorem lookup_pop (fields : Fields) (key k : String) :
    (pop fields key).lookup k = if k = key then none else fields.lookup k := by
  induction fields with
  | nil => simp [pop]
  | cons field fields ih =>
    rw [pop, filter_cons]
    by_cases hfield : field.1 = key
    · rw [if_neg (by simp [hfield])]
      refine ih.trans ?_
      by_cases hk : k = key
      · rw [if_pos hk, if_pos hk]
      · rw [if_neg hk, if_neg hk, lookup_cons_eq_ite, if_neg (hfield ▸ hk)]
    · rw [if_pos (by simpa using hfield), lookup_cons_eq_ite]
      refine (congrArg (fun rest => if k = field.1 then some field.2 else rest) ih).trans ?_
      rw [lookup_cons_eq_ite]
      by_cases hk : k = key
      · rw [if_pos hk, if_pos hk, if_neg fun heq : k = field.1 => hfield (heq.symm.trans hk)]
      · rw [if_neg hk, if_neg hk]

theorem lookup_set (fields : Fields) (key k : String) (value : Json) :
    (set fields key value).lookup k = if k = key then some value else fields.lookup k := by
  rw [set, lookup_cons_eq_ite, lookup_pop]
  split <;> rfl

theorem lookup_foldl_pop (keys : List String) (fields : Fields) (k : String) :
    (keys.foldl pop fields).lookup k = if k ∈ keys then none else fields.lookup k := by
  induction keys generalizing fields with
  | nil => simp
  | cons key keys ih =>
    rw [foldl_cons, ih, lookup_pop]
    by_cases hk : k = key
    · rw [if_pos hk, ite_self, if_pos (hk ▸ mem_cons_self)]
    · rw [if_neg hk]
      simp only [mem_cons, hk, false_or]

theorem lookup_insertField (key k : String) (value : Json) (fields : Fields) :
    (insertField key value fields).lookup k = if k = key then some value else fields.lookup k := by
  induction fields with
  | nil => rw [insertField, lookup_cons_eq_ite]
  | cons field fields ih =>
    obtain ⟨k', v'⟩ := field
    rw [insertField]
    split
    · rw [lookup_cons_eq_ite]
    · split
      · rename_i heq
        subst heq
        rw [lookup_cons_eq_ite, lookup_cons_eq_ite]
        split <;> rfl
      · rename_i hne
        rw [lookup_cons_eq_ite, lookup_cons_eq_ite, ih]
        by_cases h : k = key
        · subst h
          rw [if_neg hne, if_pos rfl, if_pos rfl]
        · rw [if_neg h, if_neg h]

theorem lookup_normalFields (key : String) : ∀ fields : Fields,
    (normalFields fields).lookup key = (fields.lookup key).map normal
  | [] => rfl
  | (k, v) :: fields => by
    rw [normalFields, lookup_insertField, lookup_normalFields key fields, lookup_cons_eq_ite]
    split <;> rfl

theorem normal_get (fields : Fields) (key : String) : normal (get fields key) = get (normalFields fields) key := by
  rw [get, get, lookup_normalFields]
  cases fields.lookup key <;> rfl

theorem get_pyEq {a b : Fields} (h : pyEq (.obj a) (.obj b) = true) (key : String) :
    pyEq (get a key) (get b key) = true := by
  rw [pyEq_iff, normal, normal, Json.obj.injEq] at h
  rw [pyEq_iff, normal_get, normal_get, h]

/-! ### Equal dicts -/

/-- Sorted by key, and so without a key that occurs twice. -/
def KeySorted (fields : Fields) : Prop := fields.Pairwise fun a b => a.1 < b.1

theorem mem_insertField {key : String} {value : Json} {field : String × Json} (h : field ∈ insertField key value fields) :
    field = (key, value) ∨ field ∈ fields := by
  induction fields with
  | nil => exact .inl (mem_singleton.mp h)
  | cons first fields ih =>
    rw [insertField] at h
    split at h
    · exact mem_cons.mp h
    · split at h
      · exact (mem_cons.mp h).imp_right (mem_cons_of_mem _)
      · rcases mem_cons.mp h with h | h
        · exact .inr (h ▸ mem_cons_self)
        · exact (ih h).imp_right (mem_cons_of_mem _)

theorem keySorted_insertField (key : String) (value : Json) (h : KeySorted fields) :
    KeySorted (insertField key value fields) := by
  induction fields with
  | nil => exact pairwise_singleton _ _
  | cons first fields ih =>
    obtain ⟨hfirst, hrest⟩ := pairwise_cons.mp h
    rw [insertField]
    split
    · rename_i hlt
      refine pairwise_cons.mpr ⟨?_, h⟩
      intro field hfield
      rcases mem_cons.mp hfield with rfl | hfield
      · exact hlt
      · exact lt_trans hlt (hfirst field hfield)
    · rename_i hnlt
      split
      · rename_i heq
        exact pairwise_cons.mpr ⟨fun field hfield => heq ▸ hfirst field hfield, hrest⟩
      · rename_i hne
        refine pairwise_cons.mpr ⟨?_, ih hrest⟩
        intro field hfield
        rcases mem_insertField hfield with rfl | hfield
        · exact lt_of_le_of_ne (not_lt.mp hnlt) (Ne.symm hne)
        · exact hfirst field hfield

theorem keySorted_normalFields : ∀ fields : Fields, KeySorted (normalFields fields)
  | [] => .nil
  | (key, value) :: fields => keySorted_insertField key (normal value) (keySorted_normalFields fields)

theorem lookup_eq_none_of_lt {key : String} (h : ∀ field ∈ fields, key < field.1) : fields.lookup key = none := by
  rw [lookup_eq_none_iff]
  intro field hfield
  simpa using (h field hfield).ne

/-- Sorted fields are known by what is looked up in them. -/
theorem KeySorted.eq_of_lookup {a b : Fields} (ha : KeySorted a) (hb : KeySorted b)
    (h : ∀ key, a.lookup key = b.lookup key) : a = b := by
  induction a generalizing b with
  | nil =>
    cases b with
    | nil => rfl
    | cons field b =>
      obtain ⟨k, v⟩ := field
      simpa using h k
  | cons field a ih =>
    obtain ⟨k, v⟩ := field
    cases b with
    | nil => simpa using h k
    | cons field' b =>
      obtain ⟨k', v'⟩ := field'
      obtain ⟨hk, hresta⟩ := pairwise_cons.mp ha
      obtain ⟨hk', hrestb⟩ := pairwise_cons.mp hb
      -- the smaller of two different first keys would be missing on the other side
      have hkey : k = k' := by
        rcases lt_trichotomy k k' with hlt | heq | hlt
        · have hnone : List.lookup k ((k', v') :: b) = none :=
            lookup_eq_none_of_lt (forall_mem_cons.mpr ⟨hlt, fun f hf => lt_trans hlt (hk' f hf)⟩)
          rw [← h k, lookup_cons_self] at hnone
          cases hnone
        · exact heq
        · have hnone : List.lookup k' ((k, v) :: a) = none :=
            lookup_eq_none_of_lt (forall_mem_cons.mpr ⟨hlt, fun f hf => lt_trans hlt (hk f hf)⟩)
          rw [h k', lookup_cons_self] at hnone
          cases hnone
      subst hkey
      have hvalue : v = v' := by simpa using h k
      subst hvalue
      refine congrArg ((k, v) :: ·) (ih hresta hrestb fun key => ?_)
      have hlookup := h key
      rw [lookup_cons_eq_ite, lookup_cons_eq_ite] at hlookup
      by_cases heq : key = k
      · rw [heq, lookup_eq_none_of_lt hk, lookup_eq_none_of_lt hk']
      · rwa [if_neg heq, if_neg heq] at hlookup

theorem pyEq_obj {a b : Fields} (h : ∀ key, (a.lookup key).map normal = (b.lookup key).map normal) :
    pyEq (.obj a) (.obj b) = true := by
  rw [pyEq_iff, normal, normal]
  refine congrArg Json.obj ((keySorted_normalFields a).eq_of_lookup (keySorted_normalFields b) fun key => ?_)
  rw [lookup_normalFields, lookup_normalFields, h key]

theorem pyEq_arr {as bs : List Json} (h : List.Forall₂ (fun a b => pyEq a b = true) as bs) :
    pyEq (.arr as) (.arr bs) = true := by
  rw [pyEq_iff, normal, normal]
  refine congrArg Json.arr ?_
  induction h with
  | nil => rfl
  | cons hab _ ih => rw [normalItems, normalItems, pyEq_iff.mp hab, ih]

/-! ### Truth value -/

/-- `bool(value)`. -/
def truthy : Json → Bool
  | .null => false
  | .bool b => b
  | .int n => n != 0
  | .float q => q != 0
  | .str s => s != ""
  | .arr items => !items.isEmpty
  | .obj fields => !fields.isEmpty

theorem insertField_ne_nil (key : String) (value : Json) (fields : Fields) : insertField key value fields ≠ [] := by
  cases fields with
  | nil => simp [insertField]
  | cons field fields => rw [insertField]; split <;> [simp; split <;> simp]

theorem truthy_normal (a : Json) : truthy (normal a) = truthy a := by
  cases a with
  | bool b => cases b <;> rfl
  | int n =>
    simp only [normal, truthy, bne]
    congr 1
    exact Bool.eq_iff_iff.mpr (by simp)
  | arr items => cases items <;> rfl
  | obj fields =>
    cases fields with
    | nil => rfl
    | cons field fields =>
      have := insertField_ne_nil field.1 (normal field.2) (normalFields fields)
      simp [normal, normalFields, truthy, this]
  | _ => rfl

theorem truthy_of_pyEq (h : pyEq a b = true) : truthy a = truthy b := by
  rw [← truthy_normal a, ← truthy_normal b, pyEq_iff.mp h]

theorem pyEq_str_iff {s : String} : pyEq a (.str s) = true ↔ a = .str s := by
  rw [pyEq_iff]
  cases a <;> simp [normal]

/-! ### The same value -/

mutual

/-- The value with the fields of all its dicts sorted by key. Two values with one sorted form are the same but for the order of fields, which no operation sees. -/
def sorted : Json → Json
  | .null => .null
  | .bool b => .bool b
  | .int n => .int n
  | .float q => .float q
  | .str s => .str s
  | .arr items => .arr (sortedItems items)
  | .obj fields => .obj (sortedFields fields)

def sortedItems : List Json → List Json
  | [] => []
  | item :: items => sorted item :: sortedItems items

def sortedFields : List (String × Json) → List (String × Json)
  | [] => []
  | (k, v) :: fields => insertField k (sorted v) (sortedFields fields)

end

theorem lookup_sortedFields (key : String) : ∀ fields : Fields,
    (sortedFields fields).lookup key = (fields.lookup key).map sorted
  | [] => rfl
  | (k, v) :: fields => by
    rw [sortedFields, lookup_insertField, lookup_sortedFields key fields, lookup_cons_eq_ite]
    split <;> rfl

theorem get_sortedFields (fields : Fields) (key : String) : get (sortedFields fields) key = sorted (get fields key) := by
  rw [get, get, lookup_sortedFields]
  cases fields.lookup key <;> rfl

theorem keySorted_sortedFields : ∀ fields : Fields, KeySorted (sortedFields fields)
  | [] => .nil
  | (key, value) :: fields => keySorted_insertField key (sorted value) (keySorted_sortedFields fields)

/-- Dicts with the same value under every key have one sorted form. -/
theorem sortedFields_eq_of_lookup {a b : Fields} (h : ∀ key, a.lookup key = b.lookup key) : sortedFields a = sortedFields b := by
  apply (keySorted_sortedFields a).eq_of_lookup (keySorted_sortedFields b)
  intro key
  rw [lookup_sortedFields, lookup_sortedFields, h key]

mutual

theorem normal_sorted : ∀ a : Json, normal (sorted a) = normal a
  | .arr items => by rw [sorted, normal, normal, normalItems_sortedItems items]
  | .obj fields => by
    rw [sorted, normal, normal]
    refine congrArg Json.obj ((keySorted_normalFields _).eq_of_lookup (keySorted_normalFields _) fun key => ?_)
    rw [lookup_normalFields, lookup_normalFields, lookup_sortedFields, Option.map_map]
    exact map_normal_sorted key fields
  | .null | .bool _ | .int _ | .float _ | .str _ => rfl

theorem normalItems_sortedItems : ∀ items : List Json, normalItems (sortedItems items) = normalItems items
  | [] => rfl
  | item :: items => by
    rw [sortedItems, normalItems, normalItems, normal_sorted item, normalItems_sortedItems items]

theorem map_normal_sorted (key : String) : ∀ fields : List (String × Json),
    (fields.lookup key).map (normal ∘ sorted) = (fields.lookup key).map normal
  | [] => rfl
  | (k, v) :: fields => by
    rw [lookup_cons_eq_ite]
    split
    · exact congrArg some (normal_sorted v)
    · exact map_normal_sorted key fields

end

theorem pyEq_of_sorted (h : sorted a = sorted b) : pyEq a b = true := by
  rw [pyEq_iff, ← normal_sorted a, ← normal_sorted b, h]

end Json

end ContextProxy
