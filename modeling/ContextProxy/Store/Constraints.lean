import ContextProxy.Api.Processing
import ContextProxy.Conversation.Accepted
import Mathlib.Logic.Equiv.Nat

/-!
# Storing an accepted payload

Which constraints of the schema the rows of an accepted payload can violate. Roles, sequence numbers, tool results and the shape check of a tool call are fine. What remains is a tool call whose id or name is missing: validation lets a call have no id, and does not check every container the store reads the name from. Calls are stored in order, so such a call is reached unless an earlier one fails for another reason (`callFault`).
-/

namespace ContextProxy

open Json
open List hiding get

def StoreError.isConstraint : StoreError → Bool
  | .notNullViolation | .checkViolation | .uniqueViolation | .foreignKeyViolation => true
  | _ => false

/-! ### Tool calls -/

/-- Why a tool call cannot be stored. -/
inductive CallFault where
  /-- The container is not a dict. -/
  | unreadable
  /-- The id or the name is no text. -/
  | unencodable
  /-- There is no id or no name. -/
  | missing
  deriving DecidableEq, Repr

def CallFault.error : CallFault → StoreError
  | .unreadable => .pythonError
  | .unencodable => .dataError
  | .missing => .notNullViolation

/-- The first thing that goes wrong when the tool call is stored. -/
def callFault (call : Fields) : Option CallFault :=
  if dictLike (get call (storedKind call).key) = false then some .unreadable
  else if strOrNone (get call "id") = false ∨ strOrNone (storedName call) = false then some .unencodable
  else if get call "id" = .null ∨ storedName call = .null then some .missing
  else none

variable {value : Json} {rows : Rows} {last : ℤ} {message : Message} {messages : List Message}

theorem textParam_of_not_strOrNone (h : strOrNone value = false) : textParam value = .error .dataError := by
  cases value <;> first | rfl | cases h

theorem textParam_eq_error {error : StoreError} (h : textParam value = .error error) : error = .dataError := by
  cases value <;> first | exact (Except.error.inj h).symm | cases h

theorem textParam_of_strOrNone (h : strOrNone value = true) :
    value = .null ∧ textParam value = .ok none ∨ ∃ text, value = .str text ∧ textParam value = .ok (some text) := by
  cases value <;> first | exact .inl ⟨rfl, rfl⟩ | exact .inr ⟨_, rfl, rfl⟩ | cases h

section InsertToolCall

variable (rows : Rows) {id messageId : RowId} {toolCallId name : Json} {callType : String} {arguments input : Option Json}
  {extra : Fields} {createdAt : ℕ}

theorem exec_toolCall_unencodable (h : strOrNone toolCallId = false ∨ strOrNone name = false) :
    execQuery (.insertToolCall id messageId toolCallId callType name arguments input extra createdAt) rows
      = .error .dataError := by
  rw [execQuery]
  cases hid : strOrNone toolCallId with
  | false => rw [textParam_of_not_strOrNone hid]; rfl
  | true =>
    have hname := textParam_of_not_strOrNone (h.resolve_left (by simp [hid]))
    obtain ⟨-, htext⟩ | ⟨text, -, htext⟩ := textParam_of_strOrNone hid
    · rw [htext, hname]; rfl
    · rw [htext, hname]; rfl

theorem exec_toolCall_missing (hid : strOrNone toolCallId = true) (hname : strOrNone name = true)
    (h : toolCallId = .null ∨ name = .null) :
    execQuery (.insertToolCall id messageId toolCallId callType name arguments input extra createdAt) rows
      = .error .notNullViolation := by
  rw [execQuery]
  obtain ⟨rfl, htext⟩ | ⟨text, rfl, htext⟩ := textParam_of_strOrNone hid <;>
    obtain ⟨rfl, htext'⟩ | ⟨text', rfl, htext'⟩ := textParam_of_strOrNone hname
  · rfl
  · rfl
  · rfl
  · simp at h

theorem exec_toolCall_ok (hid : strOrNone toolCallId = true) (hname : strOrNone name = true)
    (h : ¬(toolCallId = .null ∨ name = .null)) (hshape : typeShape callType arguments input = true) :
    ∃ ws, execQuery (.insertToolCall id messageId toolCallId callType name arguments input extra createdAt) rows
      = .ok ((), ws) := by
  obtain ⟨rfl, -⟩ | ⟨text, rfl, -⟩ := textParam_of_strOrNone hid
  · simp at h
  obtain ⟨rfl, -⟩ | ⟨text', rfl, -⟩ := textParam_of_strOrNone hname
  · simp at h
  simp only [execQuery, textParam, notNull, bind, Except.bind, hshape]
  split
  · simp_all
  · split
    · exact ⟨_, rfl⟩
    · exact ⟨_, rfl⟩

end InsertToolCall

section ToolCalls

variable {rt : Runtime} (draws : Draws) (messageId : RowId)

theorem typeShape_stored (hstr : ∀ value, rt.str value = "custom" → value = .str "custom") (call : Fields)
    (arguments input : Json) :
    typeShape (rt.str (callTypeOf call)) (if storedKind call = .function then some arguments else none)
      (if storedKind call = .custom then some input else none) = true := by
  rw [storedKind]
  by_cases hcustom : pyEq (callTypeOf call) (.str "custom") = true
  · rw [if_pos hcustom, pyEq_str_iff.mp hcustom, rt.str_str]
    rfl
  · have hne : rt.str (callTypeOf call) ≠ "custom" := fun h => hcustom (pyEq_str_iff.mpr (hstr _ h))
    rw [if_neg hcustom]
    by_cases hfunction : rt.str (callTypeOf call) = "function"
    · simp [typeShape, hfunction]
    · simp [typeShape, hfunction, hne]

theorem run_perform (q : Query) (rows : Rows) :
    storeTables.run (perform q) rows = (execQuery q rows).map fun out => ((), out.2) := by
  rw [perform, Tables.run_bind, Tables.run_send]
  change Except.bind (execQuery q rows) _ = _
  cases execQuery q rows with
  | error e => rfl
  | ok out => exact congrArg (fun ws => Except.ok ((), ws)) (append_nil out.2)

theorem run_call_fault {call : Fields} {fault : CallFault} (h : callFault call = some fault) (index : ℕ)
    (calls : List Json) (rows : Rows) :
    storeTables.run (persistToolCalls rt draws messageId index (.obj call :: calls)) rows = .error fault.error := by
  rw [persistToolCalls, toolCallQuery_eq]
  unfold callFault at h
  split_ifs at h with hdict htext hnull
  · obtain rfl := Option.some.inj h
    rw [if_neg (by simp [hdict])]
    rfl
  · obtain rfl := Option.some.inj h
    rw [if_pos (by simpa using hdict)]
    change storeTables.run (perform _ >>= _) rows = _
    rw [Tables.run_bind, run_perform, exec_toolCall_unencodable rows htext]
    rfl
  · obtain rfl := Option.some.inj h
    rw [if_pos (by simpa using hdict)]
    change storeTables.run (perform _ >>= _) rows = _
    rw [not_or, Bool.not_eq_false, Bool.not_eq_false] at htext
    rw [Tables.run_bind, run_perform, exec_toolCall_missing rows htext.1 htext.2 hnull]
    rfl

theorem run_call_stored (hstr : ∀ value, rt.str value = "custom" → value = .str "custom") {call : Fields}
    (h : callFault call = none) (index : ℕ) (calls : List Json) (rows : Rows) :
    ∃ ws, storeTables.run (persistToolCalls rt draws messageId index (.obj call :: calls)) rows
      = (storeTables.run (persistToolCalls rt draws messageId (index + 1) calls) (storeTables.applyParts ws rows)).map
          fun out => (out.1, ws ++ out.2) := by
  rw [persistToolCalls, toolCallQuery_eq]
  unfold callFault at h
  split_ifs at h with hdict htext hnull
  rw [not_or, Bool.not_eq_false, Bool.not_eq_false] at htext
  obtain ⟨ws, hws⟩ := exec_toolCall_ok rows htext.1 htext.2 hnull (typeShape_stored hstr call
    (get (fieldsOf (get call "function")) "arguments") (get (fieldsOf (get call "custom")) "input"))
  refine ⟨ws, ?_⟩
  rw [if_pos (by simpa using hdict)]
  change storeTables.run (perform _ >>= _) rows = _
  rw [Tables.run_bind, run_perform, hws]
  rfl

theorem run_persistToolCalls (hstr : ∀ value, rt.str value = "custom" → value = .str "custom") (index : ℕ)
    (calls : List Fields) (rows : Rows) : (∀ fault, calls.findSome? callFault = some fault →
      storeTables.run (persistToolCalls rt draws messageId index (calls.map .obj)) rows = .error fault.error) ∧
    (calls.findSome? callFault = none →
      ∃ ws, storeTables.run (persistToolCalls rt draws messageId index (calls.map .obj)) rows = .ok ((), ws)) := by
  induction calls generalizing index rows with
  | nil => exact ⟨fun fault h => (nomatch h), fun _ => ⟨[], rfl⟩⟩
  | cons call calls ih =>
    rw [findSome?_cons, map_cons]
    cases hcall : callFault call with
    | some fault =>
      refine ⟨fun fault' h => ?_, fun h => nomatch h⟩
      obtain rfl := Option.some.inj h
      exact run_call_fault draws messageId hcall _ _ _
    | none =>
      obtain ⟨ws, hrun⟩ := run_call_stored draws messageId hstr hcall index (calls.map .obj) rows
      obtain ⟨hfault, hok⟩ := ih (index + 1) (storeTables.applyParts ws rows)
      rw [hrun]
      refine ⟨fun fault h => (by rw [hfault fault h]; rfl), fun h => ?_⟩
      obtain ⟨rest, hrest⟩ := hok h
      exact ⟨ws ++ rest, by rw [hrest]; rfl⟩

end ToolCalls

/-! ### One message after the other -/

/-- The conversation exists, `top` is at least every sequence number, and the ids of messages numbered above `used` are new to the tool results. -/
structure Ready (draws : Draws) (top used : ℤ) (rows : Rows) : Prop where
  known : rows.known = true
  seqs : ∀ row ∈ rows.messages, row.seq ≤ top
  results : ∀ row ∈ rows.toolResults, ∀ seq, used < seq → draws.messageId seq ≠ row.messageId

def Query.addsPart : Query → Bool
  | .insertToolCall .. | .insertMedia _ => true
  | _ => false

variable {rt : Runtime} {draws : Draws} {top used : ℤ}

theorem Ready.addsPart {q : Query} (hq : q.addsPart = true) (h : Ready draws top used rows) {answer : Answer q}
    {ws : List Write} (hexec : execQuery q rows = .ok (answer, ws)) :
    Ready draws top used (storeTables.applyParts ws rows) := by
  cases q with
  | insertToolCall id messageId toolCallId callType name arguments input extra createdAt =>
    obtain ⟨_, -, hexec⟩ := bind_eq_ok.mp hexec
    obtain ⟨_, -, hexec⟩ := bind_eq_ok.mp hexec
    obtain ⟨_, -, hexec⟩ := bind_eq_ok.mp hexec
    obtain ⟨_, -, hexec⟩ := bind_eq_ok.mp hexec
    split_ifs at hexec <;> (cases hexec; exact ⟨h.known, h.seqs, h.results⟩)
  | insertMedia row =>
    simp only [execQuery] at hexec
    split_ifs at hexec <;> (cases hexec; exact ⟨h.known, h.seqs, h.results⟩)
  | ensureConversation | lockConversation | fetchMessages | maxSeq | insertMessage | findToolCall | insertToolResult =>
    cases hq

theorem Ready.exec_insertMessage (h : Ready draws last used rows) {role : String} (hrole : role ∈ storedRoles)
    (id : RowId) (message : Message) (metadata : Fields) :
    storeTables.exec (.insertMessage id (last + 1) (.str role) message metadata) rows
      = .ok (id, [.message { id, seq := last + 1, role, content := message, metadata }]) := by
  change execQuery (.insertMessage id (last + 1) (.str role) message metadata) rows = _
  have hseq : rows.messages.any (·.seq = last + 1) = false := by
    rw [any_eq_false]
    intro row hrow
    have := h.seqs row hrow
    simp
    omega
  simp [execQuery, textParam, notNull, bind, Except.bind, hrole, hseq, h.known]

variable {err : StoreError → Prop}

theorem runs_insertMessage {role : String} (hrole : role ∈ storedRoles) (last : ℤ) (id : RowId) (message : Message)
    (metadata : Fields) :
    storeTables.Runs (Ready draws last last) (Prog.send (Query.insertMessage id (last + 1) (.str role) message metadata))
      (fun answer rows => answer = id ∧ Ready draws (last + 1) last rows) err := by
  refine .send fun rows hrows => ?_
  have hexec := hrows.exec_insertMessage hrole id message metadata
  refine ⟨fun answer ws h => ?_, fun e h => nomatch hexec.symm.trans h⟩
  cases hexec.symm.trans h
  refine ⟨rfl, hrows.known, fun row hrow => ?_, hrows.results⟩
  obtain hrow | hrow := mem_append.mp hrow
  · have := hrows.seqs row hrow
    omega
  · rw [mem_singleton.mp hrow]

theorem runs_persistToolCalls (hstr : ∀ value, rt.str value = "custom" → value = .str "custom") {calls : List Fields}
    (hcalls : calls.findSome? callFault ≠ some .missing) (messageId : RowId) :
    storeTables.Runs (Ready draws top used) (persistToolCalls rt draws messageId 0 (calls.map .obj))
      (fun _ => Ready draws top used) fun error => error.isConstraint = false := by
  constructor
  · have hemits : (persistToolCalls rt draws messageId 0 (calls.map .obj)).Emits (fun q => q.addsPart = true)
        fun _ => True := by
      apply emits_persistToolCalls
      · intros
        rfl
      · trivial
    exact .of_emits hemits fun q hq rows hrows answer ws => hrows.addsPart hq
  · intro rows _ error hrun
    obtain ⟨hfault, hok⟩ := run_persistToolCalls draws messageId hstr 0 calls rows
    cases hfirst : calls.findSome? callFault with
    | none =>
      obtain ⟨ws, hws⟩ := hok hfirst
      rw [hws] at hrun
      cases hrun
    | some fault =>
      rw [hfault fault hfirst] at hrun
      cases hrun
      cases fault with
      | unreadable | unencodable => rfl
      | missing => exact absurd hfirst hcalls

theorem runs_perform {q : Query} {pre post : Rows → Prop}
    (h : ∀ rows, pre rows → (∀ answer ws, execQuery q rows = .ok (answer, ws) → post (storeTables.applyParts ws rows)) ∧
      ∀ e, execQuery q rows = .error e → err e) : storeTables.Runs pre (perform q) (fun _ => post) err := by
  have hsend : storeTables.Runs pre (Prog.send q) (fun _ => post) err := .send h
  exact hsend.bind fun _ => .ret fun _ hrows => hrows

theorem runs_insertToolResult (hinj : Function.Injective draws.messageId) {toolCallId : Json}
    (hid : truthy toolCallId = true) (toolCallRef : Option RowId) (content : Json) :
    storeTables.Runs (Ready draws (last + 1) last)
      (perform (.insertToolResult (draws.messageId (last + 1)) toolCallRef toolCallId content))
      (fun _ => Ready draws (last + 1) (last + 1)) fun error => error.isConstraint = false := by
  refine runs_perform fun rows hrows => ?_
  cases hstr : strOrNone toolCallId with
  | false =>
    rw [execQuery, textParam_of_not_strOrNone hstr]
    constructor
    · intro answer ws h
      cases h
    · intro e h
      cases h
      rfl
  | true =>
    obtain ⟨rfl, -⟩ | ⟨text, rfl, -⟩ := textParam_of_strOrNone hstr
    · cases hid
    have hnew : rows.toolResults.any
        (fun row => row.messageId = draws.messageId (last + 1) && row.toolCallId = text) = false := by
      rw [any_eq_false]
      intro row hrow
      have := hrows.results row hrow (last + 1) (by omega)
      simp [this.symm]
    simp only [execQuery, textParam, notNull, bind, Except.bind, hnew]
    refine ⟨fun answer ws h => ?_, fun e h => absurd h (by simp)⟩
    cases h
    refine ⟨hrows.known, hrows.seqs, fun row hrow seq hseq => ?_⟩
    obtain hrow | hrow := mem_append.mp hrow
    · exact hrows.results row hrow seq (by omega)
    · rw [mem_singleton.mp hrow]
      intro hsame
      have := hinj hsame
      omega

theorem runs_persistMediaParts (messageId : RowId) (message : Message) :
    storeTables.Runs (Ready draws top used) (persistMediaParts rt messageId message) (fun _ => Ready draws top used)
      fun error => error.isConstraint = false := by
  have hemits : (persistMediaParts rt messageId message).Emits (fun q => ∃ row, q = .insertMedia row)
      (· = .pythonError) := by
    apply emits_persistMediaParts
    · exact fun row => ⟨row, rfl⟩
    · exact .inr rfl
  constructor
  · refine .of_emits hemits fun q hq rows hrows answer ws => hrows.addsPart ?_
    obtain ⟨row, rfl⟩ := hq
    rfl
  · refine .of_emits hemits (fun q hq rows e hexec => ?_) fun e h => h ▸ rfl
    obtain ⟨row, rfl⟩ := hq
    change execQuery (.insertMedia row) rows = _ at hexec
    simp only [execQuery] at hexec
    split_ifs at hexec

theorem runs_persistToolParts (hstr : ∀ value, rt.str value = "custom" → value = .str "custom")
    (hinj : Function.Injective draws.messageId) (hmessage : AcceptedMessage message)
    (hcalls : (callsOf message).findSome? callFault ≠ some .missing) (last : ℤ) :
    storeTables.Runs (Ready draws (last + 1) last) (persistToolParts rt draws (draws.messageId (last + 1)) message)
      (fun _ => Ready draws (last + 1) (last + 1)) fun error => error.isConstraint = false := by
  rw [persistToolParts, hmessage.itemsOr_calls]
  refine Tables.Runs.bind (p := persistToolCalls _ _ _ _ _) (runs_persistToolCalls hstr hcalls _) fun _ => ?_
  split
  · rename_i htool
    rw [Bool.and_eq_true] at htool
    have hfind : storeTables.Runs (Ready draws (last + 1) last) (Prog.send (Query.findToolCall (get message "tool_call_id")))
        (fun _ => Ready draws (last + 1) last) fun error => error.isConstraint = false := by
      refine .send fun rows hrows => ⟨fun answer ws h => ?_, fun e h => ?_⟩
      · obtain ⟨_, -, h⟩ := bind_eq_ok.mp h
        cases h
        exact hrows
      · obtain h | ⟨_, -, h⟩ := bind_eq_error.mp h
        · rw [textParam_eq_error h]
          rfl
        · cases h
    exact hfind.bind fun toolCallRef => runs_insertToolResult hinj htool.2 toolCallRef _
  · exact .ret fun rows hrows => ⟨hrows.known, hrows.seqs, fun row hrow seq hseq => hrows.results row hrow seq (by omega)⟩

/-- An accepted message with a role the schema knows, none of whose calls is refused for a missing id or name. -/
structure Storable (message : Message) : Prop where
  accepted : AcceptedMessage message
  role : ∃ role ∈ storedRoles, get message "role" = .str role
  calls : (callsOf message).findSome? callFault ≠ some .missing

theorem runs_insertAll (hstr : ∀ value, rt.str value = "custom" → value = .str "custom")
    (hinj : Function.Injective draws.messageId) (metadata : Fields) (hmessages : ∀ m ∈ messages, Storable m) (last : ℤ) :
    storeTables.Runs (Ready draws last last) (insertAll rt draws metadata last messages) (fun _ _ => True)
      fun error => error.isConstraint = false := by
  induction messages generalizing last with
  | nil => exact .ret fun _ _ => trivial
  | cons message messages ih =>
    have hmessage := hmessages message mem_cons_self
    obtain ⟨role, hrole, hget⟩ := hmessage.role
    rw [insertAll, hget]
    refine (runs_insertMessage hrole last (draws.messageId (last + 1)) message metadata).bind fun messageId => .of_and ?_
    intro hid
    rw [hid]
    refine (runs_persistToolParts hstr hinj hmessage.accepted hmessage.calls last).bind fun _ => ?_
    refine (runs_persistMediaParts _ message).bind fun _ => ?_
    refine (ih (fun m hm => hmessages m (mem_cons_of_mem _ hm)) (last + 1)).bind fun _ => ?_
    exact .ret fun _ _ => trivial

theorem le_lastSeq (rows : Rows) {row : MessageRow} (h : row ∈ rows.messages) : row.seq ≤ rows.lastSeq := by
  have hmem : row.seq ∈ rows.messages.map (·.seq) := mem_map_of_mem h
  rw [Rows.lastSeq]
  cases hmax : (rows.messages.map (·.seq)).max? with
  | none => rw [max?_eq_none_iff.mp hmax] at hmem; cases hmem
  | some m => exact (max?_eq_some_iff.mp hmax).2 _ hmem

/-- The ids that will be drawn are distinct, and no tool result has one of them. -/
structure Draws.Fresh (draws : Draws) (rows : Rows) : Prop where
  injective : Function.Injective draws.messageId
  results : ∀ row ∈ rows.toolResults, ∀ seq, draws.messageId seq ≠ row.messageId

theorem run_insertMessages (hne : messages ≠ []) (metadata : Option Fields) (rows : Rows) :
    storeTables.run (insertMessages rt draws messages metadata) rows
      = storeTables.run (insertAll rt draws (metadata.getD []) rows.lastSeq messages) rows := by
  rw [insertMessages, if_neg hne]
  change Except.map id (storeTables.run (insertAll rt draws (metadata.getD []) rows.lastSeq messages) rows) = _
  cases storeTables.run (insertAll rt draws (metadata.getD []) rows.lastSeq messages) rows <;> rfl

theorem raisedDivergence_isConstraint (rt : Runtime) (conversation : ConversationId) (index : ℕ) (a b : Option Message) :
    (raisedDivergence rt conversation index a b).isConstraint = false := by
  cases a with
  | none => rfl
  | some a =>
    cases b with
    | none => rfl
    | some b =>
      rw [raisedDivergence]
      split <;> rfl

/-- Storable messages are never refused by a constraint. -/
theorem not_isConstraint_of_storable (hstr : ∀ value, rt.str value = "custom" → value = .str "custom")
    (divergesAt : List Message → List Message → ℕ) (conversation : ConversationId)
    (hmessages : ∀ m ∈ messages, Storable m) (metadata : Option Fields) (hfresh : draws.Fresh rows) {error : StoreError}
    (hrun : storeTables.run (reconcileHistory divergesAt rt draws conversation messages metadata) rows = .error error) :
    error.isConstraint = false := by
  rw [run_reconcileHistory] at hrun
  cases hinsert : storeTables.run (insertReconciled divergesAt rt draws conversation messages metadata rows.log)
      { rows with known := true } with
  | ok out =>
    rw [hinsert] at hrun
    cases hrun
  | error e =>
    rw [hinsert] at hrun
    obtain rfl := Except.error.inj hrun
    rw [insertReconciled] at hinsert
    split at hinsert
    · cases hinsert
      exact raisedDivergence_isConstraint ..
    split at hinsert
    · cases hinsert
    rename_i start _
    split at hinsert
    · cases hinsert
    rename_i hshort
    have hne : messages.drop start ≠ [] := by
      rw [Ne, drop_eq_nil_iff]
      exact hshort
    rw [run_insertMessages hne] at hinsert
    have hready : Ready draws rows.lastSeq rows.lastSeq { rows with known := true } :=
      ⟨rfl, fun _ hrow => le_lastSeq rows hrow, fun row hrow seq _ => hfresh.results row hrow seq⟩
    exact (runs_insertAll hstr hfresh.injective _ (fun m hm => hmessages m (mem_of_mem_drop hm)) _).fails _ hready
      _ hinsert

/-! ### When a constraint refuses the payload -/

def rowsOfLog (rt : Runtime) (log : List Message) : Rows where
  known := true
  messages := log.zipIdx.map fun (message, index) =>
    { id := index, seq := index, role := rt.str (get message "role"), content := message, metadata := [] }
  toolCalls := []
  toolResults := []
  media := []

theorem contiguous_rowsOfLog (rt : Runtime) (log : List Message) : Contiguous (rowsOfLog rt log).messages := by
  have hseqs : (rowsOfLog rt log).messages.map (·.seq) = (log.zipIdx.map Prod.snd).map fun k : ℕ => (k : ℤ) := by
    rw [rowsOfLog, map_map, map_map]
    rfl
  rw [Contiguous, hseqs, zipIdx_map_snd, range_eq_range']
  simp [rowsOfLog]

theorem log_rowsOfLog (rt : Runtime) (log : List Message) : (rowsOfLog rt log).log = log := by
  have hcontents : (rowsOfLog rt log).messages.map (·.content) = log.zipIdx.map Prod.fst := by
    simp [rowsOfLog, Function.comp_def]
  rw [(contiguous_rowsOfLog rt log).log, hcontents, zipIdx_map_fst]

/-- The calls of a message are reached once its row is stored, and the first faulty one of them ends the run. -/
theorem run_insertAll_of_missing (hstr : ∀ value, rt.str value = "custom" → value = .str "custom")
    (haccepted : AcceptedMessage message) (hrole : ∃ role ∈ storedRoles, get message "role" = .str role)
    (hmissing : (callsOf message).findSome? callFault = some .missing) (metadata : Fields) (messages : List Message)
    (hready : Ready draws last used rows) :
    storeTables.run (insertAll rt draws metadata last (message :: messages)) rows = .error .notNullViolation := by
  obtain ⟨role, hrole, hget⟩ := hrole
  have hexec := hready.exec_insertMessage hrole (draws.messageId (last + 1)) message metadata
  have hcalls := fun rows =>
    (run_persistToolCalls draws (draws.messageId (last + 1)) hstr 0 (callsOf message) rows).1
      .missing hmissing
  have hparts : ∀ rows, storeTables.run (persistToolParts rt draws (draws.messageId (last + 1)) message) rows
      = .error .notNullViolation := by
    intro rows
    rw [persistToolParts, haccepted.itemsOr_calls]
    change storeTables.run (persistToolCalls rt draws _ 0 ((callsOf message).map .obj) >>= _) rows = _
    rw [Tables.run_bind, hcalls rows]
    rfl
  rw [insertAll, hget]
  change storeTables.run (Prog.ask (.insertMessage (draws.messageId (last + 1)) (last + 1) (.str role) message metadata) _)
    rows = _
  rw [storeTables.run_ask hexec]
  change Except.map _ (storeTables.run (persistToolParts rt draws (draws.messageId (last + 1)) message >>= _) _) = _
  rw [Tables.run_bind, hparts]
  rfl

/-- A history that ends before a message is continued by it, so its calls are stored next. -/
theorem run_reconcileHistory_of_missing (hstr : ∀ value, rt.str value = "custom" → value = .str "custom")
    (divergesAt : List Message → List Message → ℕ) (draws : Draws) (conversation : ConversationId)
    (before after : List Message) (haccepted : AcceptedMessage message)
    (hrole : ∃ role ∈ storedRoles, get message "role" = .str role)
    (hmissing : (callsOf message).findSome? callFault = some .missing) (metadata : Option Fields) :
    storeTables.run (reconcileHistory divergesAt rt draws conversation (before ++ message :: after) metadata)
      (rowsOfLog rt before) = .error .notNullViolation := by
  have hreconcile : reconcileProjection before (before ++ message :: after)
      = { mode := .append, appendFrom := some before.length } :=
    reconcile_of_extension (cons_ne_nil _ _) (agree_refl before)
  have hready : Ready draws (rowsOfLog rt before).lastSeq 0 (rowsOfLog rt before) :=
    ⟨rfl, fun _ hrow => le_lastSeq _ hrow, fun _ hrow => nomatch hrow⟩
  have hinsert : insertReconciled divergesAt rt draws conversation (before ++ message :: after) metadata before
      = insertMessages rt draws (message :: after) metadata := by
    rw [insertReconciled, hreconcile]
    simp
  rw [run_reconcileHistory, log_rowsOfLog, hinsert]
  change Except.map _ (storeTables.run (insertMessages rt draws (message :: after) metadata) (rowsOfLog rt before)) = _
  rw [run_insertMessages (cons_ne_nil _ _), run_insertAll_of_missing hstr haccepted hrole hmissing _ _ hready]
  rfl

/-- Reconciling the payload never fails on a constraint, whatever log is stored. -/
def ChatPayload.NeverRefused (rt : Runtime) (divergesAt : List Message → List Message → ℕ) (payload : ChatPayload) : Prop :=
  ∀ conversation metadata rows draws error, Contiguous rows.messages → draws.Fresh rows →
    storeTables.run (reconcileHistory divergesAt rt draws conversation payload.messages metadata) rows = .error error →
    error.isConstraint = false

/-- No constraint refuses an accepted payload exactly when in no message the first call that cannot be stored is one that lacks its id or its name. -/
theorem ChatPayload.neverRefused_iff (hstr : ∀ value, rt.str value = "custom" → value = .str "custom")
    (divergesAt : List Message → List Message → ℕ) (payload : ChatPayload)
    (hroles : ∀ m ∈ payload.messages, ∃ role ∈ storedRoles, get m "role" = .str role) :
    payload.NeverRefused rt divergesAt ↔
      ∀ m ∈ payload.messages, (callsOf m).findSome? callFault ≠ some .missing := by
  obtain ⟨-, -, haccepted⟩ := payload.messages_accepted
  constructor
  · intro h m hm hmissing
    obtain ⟨before, after, hsplit⟩ := append_of_mem hm
    have hrun := run_reconcileHistory_of_missing hstr divergesAt
      { startedAt := 0, messageId := Equiv.intEquivNat, toolCallRow := fun _ index => index } "" before after
      (haccepted m hm) (hroles m hm) hmissing none
    rw [← hsplit] at hrun
    cases h "" none _ _ _ (contiguous_rowsOfLog rt before) ⟨Equiv.intEquivNat.injective, fun _ hrow => nomatch hrow⟩ hrun
  · intro h conversation metadata rows draws error _ hfresh hrun
    exact not_isConstraint_of_storable hstr divergesAt conversation
      (fun m hm => ⟨haccepted m hm, hroles m hm, h m hm⟩) metadata hfresh hrun

theorem eq_custom_of_plainRuntime (value : Json) (h : plainRuntime.str value = "custom") : value = .str "custom" := by
  cases value with
  | str text => exact congrArg Json.str h
  | null | bool | int | float | arr | obj => exact absurd (show "" = "custom" from h) (by decide)

def payloadWithCall (call : Fields) (h : validateChatPayload (.obj [("messages", .arr [.obj [("role", .str "assistant"),
    ("tool_calls", .arr [.obj call])]])]) = .ok ()) : ChatPayload := ⟨_, h⟩

/-- The call has a type, an id and a name. -/
theorem neverRefused_complete : (payloadWithCall [("id", .str "c1"), ("type", .str "function"),
      ("function", .obj [("name", .str "lookup"), ("arguments", .str "")])] rfl).NeverRefused plainRuntime shorterLength := by
  refine (ChatPayload.neverRefused_iff eq_custom_of_plainRuntime shorterLength _ ?_).mpr ?_
  · exact forall_mem_singleton.mpr ⟨"assistant", by decide, rfl⟩
  · exact forall_mem_singleton.mpr (by decide)

/-- Validation lets a call have no id, and no name if it does not know its type. -/
theorem tool_call_refused :
    ¬(payloadWithCall [("type", .str "function"), ("function", .obj [("name", .str "lookup"), ("arguments", .str "")])]
      rfl).NeverRefused plainRuntime shorterLength ∧
    ¬(payloadWithCall [("id", .str "c1"), ("type", .str "search")] rfl).NeverRefused plainRuntime shorterLength := by
  have hfresh : Draws.Fresh { startedAt := 0, messageId := Equiv.intEquivNat, toolCallRow := fun _ index => index }
      (rowsOfLog plainRuntime []) := ⟨Equiv.intEquivNat.injective, fun _ hrow => nomatch hrow⟩
  constructor
  · intro h
    have hrefused := h "" none _ _ .notNullViolation (contiguous_rowsOfLog plainRuntime []) hfresh rfl
    cases hrefused
  · intro h
    have hrefused := h "" none _ _ .notNullViolation (contiguous_rowsOfLog plainRuntime []) hfresh rfl
    cases hrefused

end ContextProxy
