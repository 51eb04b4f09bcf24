import ContextProxy.Conversation.Message
import ContextProxy.Lib.Except

/-!
# Validation of chat payloads

`validate_chat_payload`, with the text of every rejection. It looks at shapes only, and lets absent fields, unknown fields and unknown types pass. Acceptance is stated per object (`AcceptedCall`, `AcceptedMessage`), and a payload that passed is a `ChatPayload`.
-/

namespace ContextProxy

open Json

/-! ### Checks -/

/-- `raise _reject(message)` unless the test passes. -/
def require (test : Bool) (message : String) : Except String Unit := if test then .ok () else .error message

/-- `isinstance(value, str) and value`. -/
def nonEmptyStr : Json → Bool
  | .str text => text ≠ ""
  | _ => false

/-- A string or `None`, which a missing key reads as. -/
def strOrNone : Json → Bool
  | .null | .str _ => true
  | _ => false

def dictOrNone : Json → Bool
  | .null | .obj _ => true
  | _ => false

def isDict : Json → Bool
  | .obj _ => true
  | _ => false

/-- `for index, item in enumerate(items)`, with the place of each item. -/
def forItems (check : String → Json → Except String Unit) (place : String) : ℕ → List Json → Except String Unit
  | _, [] => .ok ()
  | index, item :: items => do
      check (place ++ "[" ++ toString index ++ "]") item
      forItems check place (index + 1) items

inductive ToolKind where
  | function
  | custom
  deriving DecidableEq, Repr

def ToolKind.key : ToolKind → String
  | .function => "function"
  | .custom => "custom"

/-- The field that holds what the tool is called with. -/
def ToolKind.textKey : ToolKind → String
  | .function => "arguments"
  | .custom => "input"

/-! ### Tool definitions -/

def functionParametersOrNone (kind : ToolKind) (container : Fields) : Json :=
  if kind = .function then get container "parameters" else .null

def validateDefinition (place : String) (kind : ToolKind) (tool : Fields) : Except String Unit :=
  match get tool kind.key with
  | .obj container => do
      require (nonEmptyStr (get container "name")) (place ++ "." ++ kind.key ++ ".name must be a non-empty string")
      require (strOrNone (get container "description"))
        (place ++ "." ++ kind.key ++ ".description must be a string when present")
      require (dictOrNone (functionParametersOrNone kind container))
        (place ++ "." ++ kind.key ++ ".parameters must be an object when present")
  | _ => .error (place ++ "." ++ kind.key ++ " must be an object for " ++ kind.key ++ " tools")

def validateTool (place : String) : Json → Except String Unit
  | .obj tool => do
      require (nonEmptyStr (get tool "type")) (place ++ ".type must be a non-empty string")
      if get tool "type" = .str "function" then validateDefinition place .function tool
      else if get tool "type" = .str "custom" then validateDefinition place .custom tool
      else .ok ()
  | _ => .error (place ++ " must be an object")

/-! ### Tool calls -/

/-- The container a tool call is checked by. A type that is a string and not known has none. -/
def callKind (place : String) (call : Fields) : Except String (Option ToolKind) :=
  match get call "type" with
  | .str type =>
    if type = "custom" then .ok (some .custom)
    else if type = "function" then .ok (some .function)
    else .ok none
  | _ =>
    if has call "function" then .ok (some .function)
    else if has call "custom" then .ok (some .custom)
    else .error (place ++ " must carry a 'function' or 'custom' payload")

def validateContainer (place : String) (kind : ToolKind) (call : Fields) : Except String Unit :=
  match get call kind.key with
  | .obj container => do
      require (nonEmptyStr (get container "name")) (place ++ "." ++ kind.key ++ ".name must be a non-empty string")
      require (strOrNone (get container kind.textKey))
        (place ++ "." ++ kind.key ++ "." ++ kind.textKey ++ " must be a string when present")
  | _ => .error (place ++ "." ++ kind.key ++ " must be an object")

/-- One iteration of `_validate_tool_calls`. -/
def validateToolCall (place : String) : Json → Except String Unit
  | .obj call => do
      require (strOrNone (get call "id")) (place ++ ".id must be a string when present")
      match ← callKind place call with
      | some kind => validateContainer place kind call
      | none => .ok ()
  | _ => .error (place ++ " must be an object")

/-! ### Messages and the payload -/

def validateContent (place : String) : Json → Except String Unit
  | .null | .str _ => .ok ()
  | .arr parts => forItems (fun place part => require (isDict part) (place ++ " must be an object")) (place ++ ".content") 0 parts
  | _ => .error (place ++ ".content must be a string, array, or null")

/-- The rejection of a single tool call gives its position right after that of the message. -/
def validateToolCalls (place : String) : Json → Except String Unit
  | .null => .ok ()
  | .arr calls => forItems validateToolCall place 0 calls
  | _ => .error (place ++ ".tool_calls must be an array when present")

def validateMessage (place : String) : Json → Except String Unit
  | .obj message => do
      require (nonEmptyStr (get message "role")) (place ++ ".role must be a non-empty string")
      validateContent place (get message "content")
      validateToolCalls place (get message "tool_calls")
  | _ => .error (place ++ " must be an object")

def validateMessages : Json → Except String Unit
  | .arr [] => .error "'messages' must not be empty"
  | .arr messages => forItems validateMessage "messages" 0 messages
  | _ => .error "'messages' must be an array of message objects"

def validateTools : Json → Except String Unit
  | .null => .ok ()
  | .arr tools => forItems validateTool "tools" 0 tools
  | _ => .error "'tools' must be an array when present"

def validateStream : Json → Except String Unit
  | .null | .bool _ => .ok ()
  | _ => .error "'stream' must be a boolean when present"

def validateCount : Json → Except String Unit
  | .null => .ok ()
  | .int n => require (n ≤ 1) "only n=1 is supported by this proxy"
  | _ => .error "'n' must be an integer when present"

def validateChatPayload : Json → Except String Unit
  | .obj payload => do
      validateMessages (get payload "messages")
      validateTools (get payload "tools")
      validateStream (get payload "stream")
      validateCount (get payload "n")
  | _ => .error "request body must be a JSON object"

/-! ### What is accepted -/

theorem require_eq_ok {test : Bool} {message : String} : require test message = .ok () ↔ test = true := by
  cases test <;> simp [require]

theorem nonEmptyStr_iff {value : Json} : nonEmptyStr value = true ↔ ∃ text, value = .str text ∧ text ≠ "" := by
  cases value <;> simp [nonEmptyStr]

variable {place : String}

variable {items : List Json}

theorem forItems_eq_ok {check : String → Json → Except String Unit} {accepted : Json → Prop}
    (hcheck : ∀ place item, check place item = .ok () ↔ accepted item) {index : ℕ} :
    forItems check place index items = .ok () ↔ ∀ item ∈ items, accepted item := by
  induction items generalizing index with
  | nil => simp [forItems]
  | cons item items ih => simp [forItems, bind_unit_eq_ok, hcheck, ih]

def CheckedBy (call : Fields) (kind : ToolKind) : Prop :=
  get call "type" = .str kind.key ∨
    (∀ type, get call "type" ≠ .str type) ∧ has call kind.key = true ∧ (kind = .custom → has call "function" = false)

def OpaqueType (call : Fields) : Prop :=
  ∃ type, get call "type" = .str type ∧ type ≠ "function" ∧ type ≠ "custom"

/-- A container with a name, and with a text to call the tool with or none. -/
structure AcceptedContainer (kind : ToolKind) (container : Fields) : Prop where
  name : ∃ name, get container "name" = .str name ∧ name ≠ ""
  text : strOrNone (get container kind.textKey) = true

structure AcceptedCall (call : Fields) : Prop where
  id : strOrNone (get call "id") = true
  container : OpaqueType call ∨
    ∃ kind container, CheckedBy call kind ∧ get call kind.key = .obj container ∧ AcceptedContainer kind container

theorem callKind_eq_ok {call : Fields} (kind : Option ToolKind) : callKind place call = .ok kind ↔
      match kind with
      | some kind => CheckedBy call kind
      | none => OpaqueType call := by
  rw [callKind]
  cases htype : get call "type" with
  | str type =>
    simp only
    split_ifs with hcustom hfunction
    · subst hcustom
      rcases kind with _ | (_ | _) <;> simp [CheckedBy, OpaqueType, htype, ToolKind.key]
    · subst hfunction
      rcases kind with _ | (_ | _) <;> simp [CheckedBy, OpaqueType, htype, ToolKind.key]
    · rcases kind with _ | (_ | _) <;> simp [CheckedBy, OpaqueType, htype, ToolKind.key, hcustom, hfunction]
  | null | bool | int | float | arr | obj =>
    simp only
    split_ifs with hfunction hcustom
    · rcases kind with _ | (_ | _) <;> simp [CheckedBy, OpaqueType, htype, ToolKind.key, hfunction]
    · rcases kind with _ | (_ | _) <;> simp [CheckedBy, OpaqueType, htype, ToolKind.key, hfunction, hcustom]
    · rcases kind with _ | (_ | _) <;> simp [CheckedBy, OpaqueType, htype, ToolKind.key, hfunction, hcustom]

theorem validateContainer_eq_ok {kind : ToolKind} {call : Fields} : validateContainer place kind call = .ok () ↔
      ∃ container, get call kind.key = .obj container ∧ AcceptedContainer kind container := by
  rw [validateContainer]
  cases hcontainer : get call kind.key with
  | obj container =>
    simp only [bind_unit_eq_ok, require_eq_ok, nonEmptyStr_iff, Json.obj.injEq, exists_eq_left']
    exact ⟨fun h => ⟨h.1, h.2⟩, fun h => ⟨h.name, h.text⟩⟩
  | null | bool | int | float | str | arr => simp

theorem validateToolCall_eq_ok (place : String) (call : Json) :
    validateToolCall place call = .ok () ↔ ∃ fields, call = .obj fields ∧ AcceptedCall fields := by
  cases call with
  | obj call =>
    rw [validateToolCall, bind_unit_eq_ok, bind_eq_ok, require_eq_ok]
    simp only [Json.obj.injEq, exists_eq_left']
    constructor
    · intro ⟨hid, kind, hkind, h⟩
      rw [callKind_eq_ok] at hkind
      cases kind with
      | none => exact ⟨hid, .inl hkind⟩
      | some kind =>
        obtain ⟨container, hcontainer, haccepted⟩ := validateContainer_eq_ok.mp h
        exact ⟨hid, .inr ⟨kind, container, hkind, hcontainer, haccepted⟩⟩
    · intro h
      refine ⟨h.id, ?_⟩
      obtain hopaque | ⟨kind, container, hkind, hcontainer, haccepted⟩ := h.container
      · exact ⟨none, (callKind_eq_ok none).mpr hopaque, rfl⟩
      · exact ⟨some kind, (callKind_eq_ok (some kind)).mpr hkind, validateContainer_eq_ok.mpr ⟨container, hcontainer, haccepted⟩⟩
  | null | bool | int | float | str | arr => simp [validateToolCall]

def AcceptedCalls (value : Json) : Prop :=
  value = .null ∨ ∃ calls : List Fields, value = .arr (calls.map .obj) ∧ ∀ call ∈ calls, AcceptedCall call

def AcceptedContent (value : Json) : Prop :=
  strOrNone value = true ∨ ∃ parts : List Fields, value = .arr (parts.map .obj)

structure AcceptedMessage (message : Message) : Prop where
  role : ∃ role, get message "role" = .str role ∧ role ≠ ""
  content : AcceptedContent (get message "content")
  calls : AcceptedCalls (get message "tool_calls")

theorem forall_isObj_iff {accepted : Fields → Prop} : (∀ item ∈ items, ∃ fields, item = .obj fields ∧ accepted fields) ↔
      ∃ dicts : List Fields, items = dicts.map .obj ∧ ∀ fields ∈ dicts, accepted fields := by
  induction items with
  | nil => simp
  | cons item items ih =>
    rw [List.forall_mem_cons, ih]
    constructor
    · rintro ⟨⟨fields, rfl, hfields⟩, dicts, rfl, hdicts⟩
      exact ⟨fields :: dicts, rfl, List.forall_mem_cons.mpr ⟨hfields, hdicts⟩⟩
    · rintro ⟨dicts, hitems, hdicts⟩
      cases dicts with
      | nil => cases hitems
      | cons fields dicts =>
        obtain ⟨rfl, rfl⟩ := List.cons.inj hitems
        exact ⟨⟨fields, rfl, hdicts fields List.mem_cons_self⟩, dicts, rfl, fun d hd => hdicts d (List.mem_cons_of_mem _ hd)⟩

theorem validateContent_eq_ok {content : Json} : validateContent place content = .ok () ↔ AcceptedContent content := by
  have hdict : ∀ (place : String) (part : Json), require (isDict part) (place ++ " must be an object") = .ok () ↔
      ∃ fields, part = .obj fields ∧ True := by
    intro place part
    rw [require_eq_ok]
    cases part <;> simp [isDict]
  cases content with
  | arr parts =>
    rw [validateContent, forItems_eq_ok hdict, forall_isObj_iff]
    simp [AcceptedContent, strOrNone]
  | null | bool | int | float | str | obj => simp [validateContent, AcceptedContent, strOrNone]

theorem validateToolCalls_eq_ok {calls : Json} : validateToolCalls place calls = .ok () ↔ AcceptedCalls calls := by
  cases calls with
  | arr calls =>
    rw [validateToolCalls, forItems_eq_ok validateToolCall_eq_ok, forall_isObj_iff]
    simp [AcceptedCalls]
  | null | bool | int | float | str | obj => simp [validateToolCalls, AcceptedCalls]

theorem validateMessage_eq_ok (place : String) (message : Json) :
    validateMessage place message = .ok () ↔ ∃ fields, message = .obj fields ∧ AcceptedMessage fields := by
  cases message with
  | obj message =>
    simp only [validateMessage, bind_unit_eq_ok, require_eq_ok, nonEmptyStr_iff, validateContent_eq_ok,
      validateToolCalls_eq_ok, Json.obj.injEq, exists_eq_left']
    exact ⟨fun h => ⟨h.1, h.2.1, h.2.2⟩, fun h => ⟨h.role, h.content, h.calls⟩⟩
  | null | bool | int | float | str | arr => simp [validateMessage]

structure ChatPayload where
  fields : Fields
  accepted : validateChatPayload (.obj fields) = .ok ()

def dictItems : Json → List Fields
  | .arr items => items.filterMap fun
      | .obj fields => some fields
      | _ => none
  | _ => []

theorem dictItems_map_obj (dicts : List Fields) : dictItems (.arr (dicts.map .obj)) = dicts := by
  simp [dictItems, List.filterMap_map]

namespace ChatPayload

def messages (payload : ChatPayload) : List Message := dictItems (get payload.fields "messages")

/-- `payload.get("tools")`, where nothing counts as an empty list. -/
def tools (payload : ChatPayload) : List Json :=
  match get payload.fields "tools" with
  | .arr tools => tools
  | _ => []

theorem messages_accepted (payload : ChatPayload) : get payload.fields "messages" = .arr (payload.messages.map .obj) ∧
    payload.messages ≠ [] ∧ ∀ m ∈ payload.messages, AcceptedMessage m := by
  obtain ⟨h, -⟩ := bind_unit_eq_ok.mp payload.accepted
  rw [messages]
  unfold validateMessages at h
  split at h
  · cases h
  · rename_i items hne hitems
    rw [forItems_eq_ok validateMessage_eq_ok, forall_isObj_iff] at h
    obtain ⟨dicts, rfl, hdicts⟩ := h
    rw [hitems, dictItems_map_obj]
    refine ⟨rfl, ?_, hdicts⟩
    rintro rfl
    exact hne rfl
  · cases h

theorem itemsOr_tools (payload : ChatPayload) : itemsOr (get payload.fields "tools") = .ok payload.tools := by
  obtain ⟨-, h⟩ := bind_unit_eq_ok.mp payload.accepted
  obtain ⟨h, -⟩ := bind_unit_eq_ok.mp h
  rw [tools]
  unfold validateTools at h
  split at h
  · rename_i htools
    rw [htools]
    rfl
  · rename_i items htools
    rw [htools]
    cases items <;> rfl
  · cases h

end ChatPayload

end ContextProxy
