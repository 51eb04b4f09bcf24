import ContextProxy.Api.Validation
import ContextProxy.Context.Fallback
import ContextProxy.Context.Plan
import ContextProxy.Store.Writers

/-!
# Processing an accepted payload

What the proxy does with a payload that passed validation: split it, count it, render it, store it and plan the context. Validation checks one container of a tool call and neither `tool_call_id` nor `name`, while the token counter always opens `function` and the store opens any `custom` of a call without a type. What is hashed has to be encoded, and validation accepts a lone surrogate. So an accepted payload is processed to the end exactly when the unchecked fields can be opened (`harmless`) and what is hashed can be encoded.

`reconcile_projection` and `TokenCounter.tools` look at types before they read, so their models are total. Values are taken to be nested no deeper than the interpreter allows `json.dumps`, `str` and `==` to follow.
-/

namespace ContextProxy

open Json

/-! ### Values that a reader can open -/

/-- A value `TokenCounter.text` can measure: it is falsy or has a length. -/
def sized : Json → Bool
  | .str _ | .arr _ | .obj _ => true
  | value => !truthy value

/-- A value on which `(value or {}).get` can be called. -/
def dictLike : Json → Bool
  | .obj _ => true
  | value => !truthy value

theorem exists_valueTokens {value : Json} : (∃ n, valueTokens value = .ok n) ↔ sized value = true := by
  cases value with
  | null | str | arr | obj => simp [valueTokens, sized, truthy]
  | bool | int | float =>
    simp only [valueTokens, sized]
    split <;> simp_all

theorem dictOr_eq (value : Json) :
    dictOr value = if dictLike value = true then .ok (fieldsOf value) else .error .attributeError := by
  cases value with
  | obj fields => cases fields <;> rfl
  | null | bool | int | float | str | arr => rfl

theorem dictOr_eq_ok {value : Json} {fields : Fields} :
    dictOr value = .ok fields ↔ dictLike value = true ∧ fields = fieldsOf value := by
  rw [dictOr_eq]
  split
  · rename_i h
    simp [h, eq_comm]
  · rename_i h
    simp [h]

/-! ### Tool calls -/

def storedKind (call : Fields) : ToolKind := if pyEq (callTypeOf call) (.str "custom") then .custom else .function

def storedName (call : Fields) : Json := get (fieldsOf (get call (storedKind call).key)) "name"

theorem toolCallQuery_eq (rt : Runtime) (draws : Draws) (messageId : RowId) (index : ℕ) (call : Fields) :
    toolCallQuery rt draws messageId index call =
      if dictLike (get call (storedKind call).key) = true then
        .ok (.insertToolCall (draws.toolCallRow messageId index) messageId (get call "id") (rt.str (callTypeOf call))
          (storedName call) (if storedKind call = .function then some (get (fieldsOf (get call "function")) "arguments") else none)
          (if storedKind call = .custom then some (get (fieldsOf (get call "custom")) "input") else none)
          (call.filter fun field => field.1 ∉ ["id", "type", "function", "custom"]) draws.startedAt)
      else .error .pythonError := by
  rw [toolCallQuery, storedName, storedKind]
  by_cases hcustom : pyEq (callTypeOf call) (.str "custom") = true
  · simp only [if_pos hcustom, dictOr_eq, ToolKind.key]
    split <;> rfl
  · simp only [if_neg hcustom, dictOr_eq, ToolKind.key]
    split <;> rfl

/-- The readers of an accepted tool call can open what validation has not checked. -/
def openable (call : Fields) : Bool :=
  dictLike (get call "function") && sized (get (fieldsOf (get call "function")) "name") &&
    dictLike (get call (storedKind call).key)

theorem exists_toolCallTokens {rt : Runtime} {call : Fields} : (∃ n, toolCallTokens rt (.obj call) = .ok n) ↔
    dictLike (get call "function") = true ∧ sized (get (fieldsOf (get call "function")) "name") = true := by
  rw [← exists_valueTokens]
  simp only [toolCallTokens, bind_eq_ok, dictOr_eq_ok, pure_eq_ok]
  constructor
  · intro h
    obtain ⟨_, function, ⟨hfunction, hfields⟩, k, hk, -⟩ := h
    exact ⟨hfunction, k, hfields ▸ hk⟩
  · intro ⟨hfunction, k, hk⟩
    exact ⟨_, _, ⟨hfunction, rfl⟩, k, hk, rfl⟩

/-! ### Messages -/

def callsOf (message : Message) : List Fields := dictItems (get message "tool_calls")

/-- Whoever reads the accepted message can open what validation has not checked. -/
def harmless (message : Message) : Bool :=
  sized (get message "tool_call_id") && sized (get message "name") && (callsOf message).all openable

variable {rt : Runtime} {message : Message}

theorem AcceptedMessage.itemsOr_calls (h : AcceptedMessage message) :
    itemsOr (get message "tool_calls") = .ok ((callsOf message).map .obj) := by
  rw [callsOf]
  obtain hnull | ⟨calls, hcalls, -⟩ := h.calls
  · rw [hnull]
    rfl
  · rw [hcalls, dictItems_map_obj]
    cases calls <;> rfl

theorem AcceptedMessage.readable_iff (h : AcceptedMessage message) : Readable rt message ↔
    sized (get message "tool_call_id") = true ∧ sized (get message "name") = true ∧
      ∀ call ∈ callsOf message, ∃ n, toolCallTokens rt (.obj call) = .ok n := by
  simp only [Readable, messageTokens, bind_eq_ok, pure_eq_ok, h.itemsOr_calls, Except.ok.injEq, exists_eq_left',
    sumM_eq_ok, List.forall_mem_map, ← exists_valueTokens]
  constructor
  · intro h
    obtain ⟨_, _, ⟨hcalls, -⟩, i, hi, j, hj, -⟩ := h
    exact ⟨⟨i, hi⟩, ⟨j, hj⟩, hcalls⟩
  · intro ⟨⟨i, hi⟩, ⟨j, hj⟩, hcalls⟩
    exact ⟨_, _, ⟨hcalls, rfl⟩, i, hi, j, hj, rfl⟩

theorem AcceptedMessage.instructionRole (h : AcceptedMessage message) :
    ∃ b, instructionRole (get message "role") = .ok b := by
  obtain ⟨role, hrole, -⟩ := h.role
  exact ⟨_, by rw [hrole]; rfl⟩

/-! ### Projections that do not raise -/

/-- Whatever the database answers, the code between the statements raises nothing. -/
def Quiet {α : Type} (p : StoreProg α) : Prop := p.Emits (fun _ => True) fun _ => False

variable {messageId : RowId}

theorem quiet_persistToolCalls_iff {draws : Draws} {index : ℕ} {calls : List Fields} :
    Quiet (persistToolCalls rt draws messageId index (calls.map .obj)) ↔
      ∀ call ∈ calls, dictLike (get call (storedKind call).key) = true := by
  induction calls generalizing index with
  | nil => exact ⟨fun _ => List.forall_mem_nil _, fun _ => Prog.Emits.pure ()⟩
  | cons call calls ih =>
    rw [List.map_cons, persistToolCalls, toolCallQuery_eq, List.forall_mem_cons]
    split
    · rename_i hcall
      refine ⟨fun h => ⟨hcall, ?_⟩, fun h => Prog.Emits.bind (p := perform _) (emits_perform trivial) fun _ => ih.mpr h.2⟩
      -- the statement is answered, and the loop goes on
      have hrest : Quiet (persistToolCalls rt draws messageId (index + 1) (calls.map .obj)) := h.2 ()
      exact ih.mp hrest
    · rename_i hcall
      exact ⟨fun h => h.elim, fun h => absurd h.1 hcall⟩

theorem AcceptedMessage.quiet_persistToolParts_iff (h : AcceptedMessage message) {draws : Draws} :
    Quiet (persistToolParts rt draws messageId message) ↔
      ∀ call ∈ callsOf message, dictLike (get call (storedKind call).key) = true := by
  rw [persistToolParts, h.itemsOr_calls]
  constructor
  · intro hquiet
    exact quiet_persistToolCalls_iff.mp (Prog.Emits.of_bind hquiet)
  · intro hcalls
    refine (quiet_persistToolCalls_iff.mpr hcalls).bind fun _ => ?_
    split
    · exact Prog.Emits.bind (.send trivial) fun _ => emits_perform trivial
    · exact .pure ()

variable {messages : List Message}

/-- Whatever history is stored, reconciling and storing raises a conflict or nothing. -/
theorem raises_reconcileHistory (h : ∀ m ∈ messages, ∀ draws id, Quiet (persistToolParts rt draws id m))
    (hhashed : ∀ m ∈ messages, Fingerprintable rt m) (draws : Draws) (conversation : ConversationId)
    (metadata : Option Fields) :
    (reconcileHistory shorterLength rt draws conversation messages metadata).Emits (fun _ => True)
      fun error => error.isDivergence = true := by
  refine Prog.Emits.bind (emits_perform trivial) fun _ => Prog.Emits.bind (emits_perform trivial) fun _ => ?_
  refine Prog.Emits.bind (.send trivial) fun persisted =>
    emits_insertReconciled ?_ (fun m hm => .inl (hhashed m hm)) _ _ _ fun _ => ?_
  · intro m hm id
    exact (h m hm draws id).mono (fun _ _ => trivial) fun _ hraise => hraise.elim
  · rw [raisedDivergence_shorterLength]
    rfl

/-! ### The whole payload -/

theorem exists_requestEnd (h : ∀ m ∈ messages, ∃ b, instructionRole (get m "role") = .ok b) (lastUser : ℕ) {n : ℕ}
    (hn : n ≤ messages.length) : ∃ stop, requestEnd messages lastUser n = .ok stop := by
  induction n with
  | zero => exact ⟨0, rfl⟩
  | succ n ih =>
    rw [requestEnd]
    split
    · obtain ⟨b, hb⟩ := h messages[n] (List.getElem_mem _)
      rw [List.getElem?_eq_getElem hn, Option.getD_some, hb]
      cases b with
      | true => exact ih (Nat.le_of_succ_le hn)
      | false => exact ⟨n + 1, rfl⟩
    · exact ⟨n + 1, rfl⟩

theorem exists_separateCurrentRequest (h : ∀ m ∈ messages, ∃ b, instructionRole (get m "role") = .ok b) :
    ∃ parts, separateCurrentRequest messages = .ok parts := by
  rw [separateCurrentRequest]
  split
  · exact ⟨_, rfl⟩
  · rename_i lastUser _
    obtain ⟨stop, hstop⟩ := exists_requestEnd h lastUser (Nat.le_refl _)
    exact ⟨_, bind_eq_ok.mpr ⟨stop, hstop, rfl⟩⟩

theorem exists_extractRetrievalQuery (rt : Runtime) (messages : List Message) :
    ∃ query, extractRetrievalQuery rt (messages.map .obj) = .ok query := by
  rw [extractRetrievalQuery, ← List.map_reverse]
  induction messages.reverse with
  | nil => exact ⟨"", rfl⟩
  | cons message messages ih =>
    rw [List.map_cons, latestQuery]
    split
    · exact ⟨_, rfl⟩
    · exact ih

/-- The arguments of `build` come from the payload; what is pinned or retrieved can be read and hashed. -/
structure ChatPayload.Feeds (payload : ChatPayload) (rt : Runtime) {F : Type} (input : BuildInput F) : Prop where
  split : separateCurrentRequest payload.messages = .ok (input.history, input.currentRequest)
  tools : input.tools = payload.tools
  pinned : ∀ m ∈ input.pinned, Readable rt m ∧ Fingerprintable rt m
  retrieved : ∀ item ∈ input.retrieved, item.Fusable rt

/-- Everything the proxy does with the payload completes. -/
structure ChatPayload.Processed (rt : Runtime) (payload : ChatPayload) : Prop where
  separated : ∃ parts, separateCurrentRequest payload.messages = .ok parts
  segmented : ∃ units, segmentMessages rt payload.messages = .ok units
  counted : ∃ n, messagesTokens rt payload.messages = .ok n
  tools : itemsOr (get payload.fields "tools") = .ok payload.tools
  texts : ∃ text, messageTexts rt payload.messages = .ok text
  contentTexts : ∀ m ∈ payload.messages, ∃ texts, contentTexts rt m = .ok texts
  query : ∃ items query, get payload.fields "messages" = .arr items ∧ extractRetrievalQuery rt items = .ok query
  toolParts : ∀ m ∈ payload.messages, ∀ draws id, Quiet (persistToolParts rt draws id m)
  mediaParts : ∀ m ∈ payload.messages, ∀ id, Quiet (persistMediaParts rt id m)
  reconciled : ∀ draws conversation metadata,
    (reconcileHistory shorterLength rt draws conversation payload.messages metadata).Emits (fun _ => True)
      fun error => error.isDivergence = true
  built : ∀ (F : Type) [Score F] (engine : ContextAssemblyEngine F) (input : BuildInput F), payload.Feeds rt input →
    (∃ plan, engine.build rt input = .ok plan) ∨
      ∃ required, engine.build rt input = .error (.overflow required engine.usable)
  planned : ∀ history current usable reserved, separateCurrentRequest payload.messages = .ok (history, current) →
    (∃ plan, planContext rt history current payload.tools usable reserved = .ok plan) ∨
      ∃ required, planContext rt history current payload.tools usable reserved = .error (.overflow required usable)

theorem mem_of_separate {history current : List Message} (h : separateCurrentRequest messages = .ok (history, current))
    {m : Message} (hm : m ∈ history ∨ m ∈ current) : m ∈ messages := by
  obtain ⟨front, trailing, rfl, rfl⟩ := separateCurrentRequest_spec h
  simp only [List.mem_append] at hm ⊢
  tauto

/-- If every message can be read, hashed and stored, nothing raises. -/
theorem ChatPayload.processed_of_readable {payload : ChatPayload} (hreadable : ∀ m ∈ payload.messages, Readable rt m)
    (hhashed : ∀ m ∈ payload.messages, Fingerprintable rt m)
    (hquiet : ∀ m ∈ payload.messages, ∀ draws id, Quiet (persistToolParts rt draws id m)) : payload.Processed rt := by
  obtain ⟨hmessages, -, haccepted⟩ := payload.messages_accepted
  have hsegmentable : ∀ m ∈ payload.messages, Segmentable rt m := fun m hm =>
    ⟨(haccepted m hm).instructionRole, hreadable m hm⟩
  obtain ⟨query, hquery⟩ := exists_extractRetrievalQuery rt payload.messages
  refine {
    separated := exists_separateCurrentRequest fun m hm => (haccepted m hm).instructionRole
    segmented := exists_segmentMessages.mpr hsegmentable
    counted := ⟨_, messagesTokens_eq_ok.mpr ⟨hreadable, rfl⟩⟩
    tools := payload.itemsOr_tools
    texts := (exists_messageTexts hreadable).mpr hhashed
    contentTexts := fun m hm => exists_contentTexts.mpr (hhashed m hm)
    query := ⟨_, query, hmessages, hquery⟩
    toolParts := hquiet
    mediaParts := fun m hm row => Prog.Emits.mono (emits_persistMediaParts (fun _ => trivial) (.inl (hhashed m hm)) row)
      (fun _ h => h) fun _ h => h
    reconciled := raises_reconcileHistory hquiet hhashed
    built := ?_
    planned := ?_ }
  · intro F _ engine input hfeeds
    have hinput : input.Readable rt := {
      history := fun m hm => hsegmentable m (mem_of_separate hfeeds.split (.inl hm))
      currentRequest := fun m hm => hreadable m (mem_of_separate hfeeds.split (.inr hm))
      pinned := fun m hm => (hfeeds.pinned m hm).1
      fingerprintable := by
        simp only [List.forall_mem_append]
        exact ⟨⟨fun m hm => hhashed m (mem_of_separate hfeeds.split (.inl hm)),
          fun m hm => hhashed m (mem_of_separate hfeeds.split (.inr hm))⟩, fun m hm => (hfeeds.pinned m hm).2⟩
      retrieved := hfeeds.retrieved }
    obtain hover | hfits := Nat.lt_or_ge engine.usable (input.requiredTokens rt)
    · exact .inr ⟨_, build_of_overflow hinput hover⟩
    · obtain ⟨plan, -, -, -, hbuild, -⟩ := build_of_fits hinput hfits
      exact .inl ⟨plan, hbuild⟩
  · intro history current usable reserved hsplit
    have hplannable : Plannable rt history current :=
      ⟨fun m hm => hsegmentable m (mem_of_separate hsplit (.inl hm)),
        fun m hm => hreadable m (mem_of_separate hsplit (.inr hm))⟩
    obtain ⟨hoverflow, hplan⟩ := planContext_of_plannable hplannable payload.tools usable reserved
    obtain hover | hfits := Nat.lt_or_ge usable (windowRequired rt history current payload.tools reserved)
    · exact .inr ⟨_, hoverflow hover⟩
    · obtain ⟨plan, -, -, hok, -⟩ := hplan hfits
      exact .inl ⟨plan, hok⟩

/-- An accepted payload is processed to the end exactly when every field that validation has not checked can be opened by its readers, and every image and part of an unknown type can be encoded. -/
theorem ChatPayload.processed_iff (rt : Runtime) (payload : ChatPayload) :
    payload.Processed rt ↔ ∀ m ∈ payload.messages, harmless m = true ∧ Fingerprintable rt m := by
  obtain ⟨-, -, haccepted⟩ := payload.messages_accepted
  have hopen : ∀ m ∈ payload.messages, (harmless m = true ↔
      Readable rt m ∧ ∀ call ∈ callsOf m, dictLike (get call (storedKind call).key) = true) := by
    intro m hm
    rw [(haccepted m hm).readable_iff]
    simp only [harmless, openable, Bool.and_eq_true, List.all_eq_true, exists_toolCallTokens, and_assoc,
      ← forall₂_and]
  constructor
  · intro h m hm
    obtain ⟨n, hn⟩ := h.counted
    have hreadable := (messagesTokens_eq_ok.mp hn).1
    refine ⟨(hopen m hm).mpr ⟨hreadable m hm, ?_⟩, (exists_messageTexts hreadable).mp h.texts m hm⟩
    exact (haccepted m hm).quiet_persistToolParts_iff.mp
      (h.toolParts m hm { startedAt := 0, messageId := fun _ => 0, toolCallRow := fun _ _ => 0 } 0)
  · intro h
    apply ChatPayload.processed_of_readable
    · intro m hm
      exact ((hopen m hm).mp (h m hm).1).1
    · intro m hm
      exact (h m hm).2
    · intro m hm draws id
      exact (haccepted m hm).quiet_persistToolParts_iff.mpr ((hopen m hm).mp (h m hm).1).2

def numericName : ChatPayload where
  fields := [("messages", .arr [.obj [("role", .str "user"), ("content", .str "Hello."), ("name", .int 7)]])]
  accepted := rfl

/-- A tool call of a type validation does not know, with a text where the readers expect a dict. -/
def opaqueCall : ChatPayload where
  fields := [("messages", .arr [.obj [("role", .str "assistant"),
    ("tool_calls", .arr [.obj [("id", .str "c1"), ("type", .str "search"), ("function", .str "lookup")]])]])]
  accepted := rfl

/-- A picture under a URL that cannot be encoded. -/
def unencodablePicture : ChatPayload where
  fields := [("messages", .arr [.obj surrogateImage])]
  accepted := rfl

/-- The number has no length, the text has no fields, and the URL has no hash. -/
theorem accepted_payload_crashes :
    (¬numericName.Processed plainRuntime ∧ messagesTokens plainRuntime numericName.messages = .error .typeError) ∧
      (¬opaqueCall.Processed plainRuntime ∧ messagesTokens plainRuntime opaqueCall.messages = .error .attributeError) ∧
      ¬unencodablePicture.Processed surrogateRuntime ∧
      messageTexts surrogateRuntime unencodablePicture.messages = .error .unicodeEncodeError := by
  refine ⟨⟨fun h => ?_, rfl⟩, ⟨fun h => ?_, rfl⟩, fun h => ?_, rfl⟩
  · obtain ⟨n, hn⟩ := h.counted
    cases hn
  · obtain ⟨n, hn⟩ := h.counted
    cases hn
  · obtain ⟨text, htext⟩ := h.texts
    cases htext

end ContextProxy
