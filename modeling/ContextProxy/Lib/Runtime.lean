import ContextProxy.Lib.Json

/-!
# The Python runtime

What the code gets from its language: exceptions, iteration over a value of unknown shape, and builtins whose results it passes on or compares and never looks into. The builtins are parameters, so what is proved holds whatever they compute.
-/

namespace ContextProxy

/-- The exceptions that reading a value of the wrong shape raises, and encoding a text. -/
inductive PyError where
  | typeError
  | attributeError
  | keyError
  | unicodeEncodeError
  deriving DecidableEq, Repr

/-- What the encoding of a value as JSON raises: on a number that JSON does not have, or on a value that is nested too deeply. -/
inductive CodecError where
  | valueError (text : String)
  | recursionError
  deriving DecidableEq, Repr

structure Runtime where
  /-- `str(value)`, which is also what a format string shows. -/
  str : Json → String
  str_str : ∀ text, str (.str text) = text
  /-- `hashlib.sha256(text.encode("utf-8")).hexdigest()`, or nothing where the text cannot be encoded. Such a text has a lone surrogate, a character that Lean does not have, so which texts these are is left open. -/
  sha256 : String → Option String
  /-- `str.lower`. -/
  lower : String → String
  /-- `json.dumps(value, separators=(",", ":"), ensure_ascii=False)`. -/
  dumps : Json → String
  /-- The same with `sort_keys=True`. -/
  dumpsSorted : Json → String
  /-- `json.loads`, or nothing where it raises `ValueError`. -/
  loads : String → Option Json
  /-- What a request with this vector in its body raises while it is encoded. What else the bodies hold can always be encoded. -/
  encodeVector : List Json → Except CodecError Unit
  encodeVector_nil : encodeVector [] = .ok ()

def plainRuntime : Runtime where
  str := fun
    | .str text => text
    | _ => ""
  str_str := fun _ => rfl
  sha256 := some
  lower := id
  dumps := fun _ => ""
  dumpsSorted := fun _ => ""
  loads := fun _ => none
  encodeVector := fun _ => .ok ()
  encodeVector_nil := rfl

/-- The hash of a text, with the exception where it cannot be encoded. -/
def Runtime.hexdigest (rt : Runtime) (text : String) : Except PyError String :=
  match rt.sha256 text with
  | some digest => .ok digest
  | none => .error .unicodeEncodeError

theorem Runtime.exists_hexdigest {rt : Runtime} {text : String} :
    (∃ digest, rt.hexdigest text = .ok digest) ↔ (rt.sha256 text).isSome = true := by
  rw [hexdigest]
  cases rt.sha256 text <;> simp

namespace Json

/-- `value or {}`, where the code goes on to call `.get` on the outcome. -/
def dictOr (value : Json) : Except PyError Fields :=
  if !truthy value then .ok []
  else
    match value with
    | .obj fields => .ok fields
    | _ => .error .attributeError

def fieldsOf : Json → Fields
  | .obj fields => fields
  | _ => []

/-- The items of `for item in value or []`. -/
def itemsOr (value : Json) : Except PyError (List Json) :=
  if !truthy value then .ok []
  else
    match value with
    | .arr items => .ok items
    | .obj fields => .ok (fields.map fun field => .str field.1)
    | .str text => .ok (text.toList.map fun c => .str (String.singleton c))
    | _ => .error .typeError

end Json

end ContextProxy
