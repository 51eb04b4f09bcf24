import ContextProxy.Context.Candidates
import ContextProxy.Lib.Utf8
import Mathlib.Data.List.Sort

/-!
# The assistant capture

`AssistantCapture`: the bytes of a streamed response are collected, and at the end its events are read and folded into the assistant message. Nobody has checked the fields that are read, so reading can raise.

A tool call is put together in a slot: a dict with `id`, `type`, `function` and `custom`, the first two only if truthy and the last two only as the code puts them there, and the fields it does not know. `ToolCallSlot` has a field for each.
-/

namespace ContextProxy

open Json

inductive Loaded where
  | value (payload : Json)
  /-- `ValueError`. -/
  | malformed
  /-- `RecursionError`. -/
  | tooDeep

inductive CaptureError where
  | python (error : PyError)
  | recursion
  deriving DecidableEq, Repr

/-- The fields in which providers send reasoning. -/
inductive ReasoningKey where
  | reasoning
  | reasoningContent
  | reasoningText
  deriving DecidableEq, Repr

def ReasoningKey.key : ReasoningKey → String
  | .reasoning => "reasoning"
  | .reasoningContent => "reasoning_content"
  | .reasoningText => "reasoning_text"

/-- `_REASONING_KEYS`, which is also their order as strings. -/
def ReasoningKey.all : List ReasoningKey := [.reasoning, .reasoningContent, .reasoningText]

structure ToolCallSlot where
  id : Json := .null
  type : Json := .null
  function : Option (String × String) := none
  custom : Option (String × String) := none
  extra : Fields := []

structure AssistantCapture where
  buffer : List UInt8 := []
  role : Json := .null
  contentParts : List Json := []
  refusalParts : List Json := []
  reasoningParts : ReasoningKey → List String := fun _ => []
  toolCalls : List (Json × ToolCallSlot) := []
  finishReason : Json := .null
  usage : Json := .null
  model : Json := .null
  sawAnyChoice : Bool := false
  maxBytes : Option ℕ := none
  overflowed : Bool := false

/-! ### Collecting -/

def AssistantCapture.feed (capture : AssistantCapture) (chunk : List UInt8) : AssistantCapture :=
  if capture.overflowed then capture
  else
    match capture.maxBytes with
    | some limit =>
      if limit < capture.buffer.length + chunk.length then { capture with overflowed := true }
      else { capture with buffer := capture.buffer ++ chunk }
    | none => { capture with buffer := capture.buffer ++ chunk }

/-! ### The events of a text -/

/-- `text.split("\n\n")`, with the current event in reverse. -/
def splitEvents (event : List Char) : List Char → List (List Char)
  | [] => [event.reverse]
  | '\n' :: '\n' :: cs => event.reverse :: splitEvents [] cs
  | c :: cs => splitEvents (c :: event) cs

/-- What a line of an event carries, if it is a data line and not the end mark. -/
def dataText (line : List Char) : Option String :=
  if "data:".toList.isPrefixOf line then
    let data := strip (line.drop 5)
    if data = [] ∨ data = "[DONE]".toList then none else some (String.ofList data)
  else none

/-- The texts that are given to `json.loads`. -/
def dataTexts (text : List Char) : List String :=
  (splitEvents [] text).flatMap fun event => (splitLines [] event).filterMap dataText

/-! ### Tool calls -/

/-- `old += value` where the value is truthy. -/
def appendText (old : String) (value : Json) : Except PyError String :=
  if !truthy value then .ok old
  else
    match value with
    | .str text => .ok (old ++ text)
    | _ => .error .typeError

/-- A fragment of a container: the name and the text grow. -/
def absorbContainer (textKey : String) (old : Option (String × String)) : Json → Except PyError (Option (String × String))
  | .obj container => do
      let name ← appendText (old.getD ("", "")).1 (get container "name")
      let text ← appendText (old.getD ("", "")).2 (get container textKey)
      return some (name, text)
  | _ => return old

def fragmentKeys : List String := ["index", "id", "type", "function", "custom"]

/-- `slot.setdefault(key, value)` for the fields that are not known. -/
def keepExtra (extra fragment : Fields) : Fields :=
  fragment.foldl (fun extra field =>
    if field.1 ∈ fragmentKeys ∨ has extra field.1 = true then extra else extra ++ [field]) extra

def ToolCallSlot.absorb (slot : ToolCallSlot) (fragment : Fields) : Except PyError ToolCallSlot := do
  let function ← absorbContainer "arguments" slot.function (get fragment "function")
  let custom ← absorbContainer "input" slot.custom (get fragment "custom")
  return {
    id := orElse (get fragment "id") slot.id
    type := orElse (get fragment "type") slot.type
    function
    custom
    extra := keepExtra slot.extra fragment }

/-- Change the slot under an index, which is made if there is none. -/
def updateSlot (index : Json) (update : ToolCallSlot → Except PyError ToolCallSlot) :
    List (Json × ToolCallSlot) → Except PyError (List (Json × ToolCallSlot))
  | [] => do
      let slot ← update {}
      return [(index, slot)]
  | (key, slot) :: slots =>
    if pyEq key index then do
      let slot ← update slot
      return (key, slot) :: slots
    else do
      let slots ← updateSlot index update slots
      return (key, slot) :: slots

def hashable : Json → Bool
  | .arr _ | .obj _ => false
  | _ => true

/-- `tool_call.get("index", 0)`. -/
def fragmentIndex (fragment : Fields) : Json := (fragment.lookup "index").getD (.int 0)

/-- One iteration of the loop over the tool calls of a delta. -/
def absorbToolCall (slots : List (Json × ToolCallSlot)) : Json → Except PyError (List (Json × ToolCallSlot))
  | .obj fragment =>
    if hashable (fragmentIndex fragment) then updateSlot (fragmentIndex fragment) (·.absorb fragment) slots
    else .error .typeError
  | _ => .error .attributeError

/-! ### Deltas -/

/-- `choices[0]` of something that is truthy. -/
def firstChoice : Json → Except PyError Json
  | .arr (choice :: _) => .ok choice
  | .str text => .ok (.str (String.ofList (text.toList.take 1)))
  | .obj _ => .error .keyError
  | _ => .error .typeError

/-- `choice.get("delta") or choice.get("message") or {}`. -/
def deltaOf (choice : Fields) : Json := orElse (get choice "delta") (orElse (get choice "message") (.obj []))

def addPart (parts : List Json) (value : Json) : List Json := if truthy value then parts ++ [value] else parts

def addReasoning (parts : List String) : Json → List String
  | .str text => if text = "" then parts else parts ++ [text]
  | _ => parts

namespace AssistantCapture

def absorbDelta (capture : AssistantCapture) (delta : Fields) : Except PyError AssistantCapture := do
  let calls ← itemsOr (get delta "tool_calls")
  let toolCalls ← calls.foldlM absorbToolCall capture.toolCalls
  return { capture with
    role := orElse (get delta "role") capture.role
    contentParts := addPart capture.contentParts (get delta "content")
    refusalParts := addPart capture.refusalParts (get delta "refusal")
    reasoningParts := fun key => addReasoning (capture.reasoningParts key) (get delta key.key)
    toolCalls }

def absorbChoice (capture : AssistantCapture) : Json → Except PyError AssistantCapture
  | .obj choice =>
    match deltaOf choice with
    | .obj delta => do
        let capture ← absorbDelta { capture with sawAnyChoice := true } delta
        return { capture with finishReason := orElse (get choice "finish_reason") capture.finishReason }
    | _ => .error .attributeError
  | _ => .error .attributeError

def absorb (capture : AssistantCapture) : Json → Except PyError AssistantCapture
  | .obj payload =>
    let capture := { capture with
      usage := orElse (get payload "usage") capture.usage
      model := orElse (get payload "model") capture.model }
    if truthy (get payload "choices") then do
      let choice ← firstChoice (get payload "choices")
      capture.absorbChoice choice
    else .ok capture
  | _ => .error .attributeError

end AssistantCapture

/-! ### The message -/

/-- `"".join(parts)`. -/
def joinTexts : List Json → Except PyError String
  | [] => .ok ""
  | .str text :: parts => do
      let rest ← joinTexts parts
      return text ++ rest
  | _ :: _ => .error .typeError

/-- `a < b` does not raise. -/
def comparable (a b : Json) : Bool :=
  match normal a, normal b with
  | .float _, .float _ | .str _, .str _ => true
  | _, _ => false

/-- `not b < a`, where it does not raise. -/
def notAfter (a b : Json) : Bool :=
  match normal a, normal b with
  | .float p, .float q => p ≤ q
  | .str s, .str t => s ≤ t
  | _, _ => true

instance : DecidableRel fun a b : Json × ToolCallSlot => comparable a.1 b.1 = true := fun _ _ => inferInstance

/-- The slots in the order of `sorted`, which raises as soon as two keys cannot be compared. -/
def sortedSlots (slots : List (Json × ToolCallSlot)) : Except PyError (List (Json × ToolCallSlot)) :=
  if slots.Pairwise fun a b => comparable a.1 b.1 = true then
    .ok (slots.insertionSort fun a b => notAfter a.1 b.1 = true)
  else .error .typeError

/-- The tool call of a slot; without an id there is none. -/
def ToolCallSlot.rebuild (slot : ToolCallSlot) : Option Fields :=
  if !truthy slot.id then none
  else if pyEq slot.type (.str "custom") || slot.custom.isSome then
    let (name, input) := slot.custom.getD ("", "")
    some ([("id", slot.id), ("type", .str "custom"), ("custom", .obj [("name", .str name), ("input", .str input)])]
      ++ slot.extra)
  else
    let (name, arguments) := slot.function.getD ("", "")
    some ([("id", slot.id), ("type", if slot.type = .null then .str "function" else slot.type),
      ("function", .obj [("name", .str name), ("arguments", .str arguments)])] ++ slot.extra)

/-- `text or None`. -/
def textOrNone (text : String) : Json := if text = "" then .null else .str text

def textField (key text : String) : Fields := if text = "" then [] else [(key, .str text)]

def callsField (calls : List Fields) : Fields := if calls = [] then [] else [("tool_calls", .arr (calls.map .obj))]

namespace AssistantCapture

def buildMessage (capture : AssistantCapture) : Except PyError Message := do
  let content ← joinTexts capture.contentParts
  let refusal ← joinTexts capture.refusalParts
  let slots ← sortedSlots capture.toolCalls
  return [("role", orElse capture.role (.str "assistant")), ("content", textOrNone content)]
    ++ ReasoningKey.all.flatMap (fun key => textField key.key (String.join (capture.reasoningParts key)))
    ++ callsField (slots.filterMap (·.2.rebuild)) ++ textField "refusal" refusal

def responseMetadata (capture : AssistantCapture) : Fields :=
  [("finish_reason", capture.finishReason), ("usage", capture.usage), ("model", capture.model)].filter (·.2 ≠ .null)

def absorbTexts (loads : String → Loaded) : AssistantCapture → List String → Except CaptureError AssistantCapture
  | capture, [] => .ok capture
  | capture, text :: texts =>
    match loads text with
    | .malformed => absorbTexts loads capture texts
    | .tooDeep => .error .recursion
    | .value payload => do
        let capture ← (capture.absorb payload).mapError .python
        absorbTexts loads capture texts

/-- `finalize`: the message, if there is something usable, and the state it leaves. -/
def finalize (loads : String → Loaded) (capture : AssistantCapture) :
    Except CaptureError (Option Message × AssistantCapture) :=
  if capture.overflowed then .ok (none, capture)
  else do
    let capture ← capture.absorbTexts loads (dataTexts (Utf8.decode capture.buffer))
    if capture.sawAnyChoice then
      let message ← capture.buildMessage.mapError .python
      return (some message, capture)
    else return (none, capture)

end AssistantCapture

end ContextProxy
