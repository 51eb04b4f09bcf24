import ContextProxy.Conversation.Message
import ContextProxy.Lib.Runtime
import ContextProxy.Lib.Transaction
import Mathlib.Data.List.Sort

/-!
# The conversation tables and their statements

The rows the store keeps, and the SQL statements it sends, each with what it reads, the constraints it can violate and the row it writes. Every statement reads and writes the rows of one conversation (`storeTables`). Row ids are numbers; those that are drawn and the start time of the transaction are parameters.
-/

namespace ContextProxy

open Json

abbrev ConversationId := String

abbrev RowId := ℕ

structure MessageRow where
  id : RowId
  seq : ℤ
  role : String
  content : Message
  metadata : Fields

structure ToolCallRow where
  id : RowId
  messageId : RowId
  toolCallId : String
  callType : String
  name : String
  arguments : Option Json
  input : Option Json
  extra : Fields
  createdAt : ℕ

structure ToolResultRow where
  messageId : RowId
  toolCallRef : Option RowId
  toolCallId : String
  content : Json

structure MediaRow where
  messageId : RowId
  partIndex : ℕ
  kind : String
  source : String
  mediaHash : String
  sourceSize : ℕ

structure Db where
  conversations : List ConversationId := []
  messages : List (ConversationId × MessageRow) := []
  toolCalls : List (ConversationId × ToolCallRow) := []
  toolResults : List (ConversationId × ToolResultRow) := []
  media : List (ConversationId × MediaRow) := []

structure Rows where
  known : Bool
  messages : List MessageRow
  toolCalls : List ToolCallRow
  toolResults : List ToolResultRow
  media : List MediaRow

/-- `WHERE conversation_id = c`. -/
def rowsOf {α : Type} (c : ConversationId) (table : List (ConversationId × α)) : List α :=
  table.filterMap fun row => if row.1 = c then some row.2 else none

def Db.rows (c : ConversationId) (db : Db) : Rows where
  known := decide (c ∈ db.conversations)
  messages := rowsOf c db.messages
  toolCalls := rowsOf c db.toolCalls
  toolResults := rowsOf c db.toolResults
  media := rowsOf c db.media

inductive StoreError where
  | historyDivergence (conversation : ConversationId) (index : ℕ) (persisted incoming : Option Message)
  | notNullViolation
  | checkViolation
  | uniqueViolation
  | foreignKeyViolation
  /-- The driver cannot encode a parameter. -/
  | dataError
  /-- `AttributeError` or `TypeError` in the code between two statements. -/
  | pythonError

def StoreError.isDivergence : StoreError → Bool
  | .historyDivergence .. => true
  | _ => false

/-! ### Statements -/

/-- The SQL statements of the store, with their parameters as the code passes them. -/
inductive Query where
  | ensureConversation
  | lockConversation
  | fetchMessages
  | maxSeq
  | insertMessage (id : RowId) (seq : ℤ) (role : Json) (content : Message) (metadata : Fields)
  | insertToolCall (id messageId : RowId) (toolCallId : Json) (callType : String) (name : Json)
      (arguments input : Option Json) (extra : Fields) (createdAt : ℕ)
  | findToolCall (toolCallId : Json)
  | insertToolResult (messageId : RowId) (toolCallRef : Option RowId) (toolCallId : Json) (content : Json)
  | insertMedia (row : MediaRow)

def Answer : Query → Type
  | .fetchMessages => List Message
  | .maxSeq => ℤ
  | .insertMessage .. => RowId
  | .findToolCall _ => Option RowId
  | _ => Unit

inductive Write where
  | conversation
  | message (row : MessageRow)
  | toolCall (row : ToolCallRow)
  | toolResult (row : ToolResultRow)
  | media (row : MediaRow)

/-- A value bound to a `TEXT` parameter. The driver encodes all parameters before it sends the statement. -/
def textParam : Json → Except StoreError (Option String)
  | .str text => .ok (some text)
  | .null => .ok none
  | _ => .error .dataError

def notNull : Option String → Except StoreError String
  | some text => .ok text
  | none => .error .notNullViolation

/-- `messages_role_check`. -/
def storedRoles : List String := ["system", "developer", "user", "assistant", "tool"]

/-- `tool_calls_type_shape`. -/
def typeShape (callType : String) (arguments input : Option Json) : Bool :=
  (callType = "function" && arguments.isSome) || (callType = "custom" && input.isSome) ||
    (callType != "function" && callType != "custom")

/-- `ORDER BY created_at DESC, id DESC LIMIT 1`. -/
def newestCall (calls : List ToolCallRow) : Option ToolCallRow :=
  calls.foldl (fun best call =>
    match best with
    | none => some call
    | some b => if b.createdAt < call.createdAt ∨ (b.createdAt = call.createdAt ∧ b.id < call.id) then some call else best)
    none

/-- The contents of the rows, `ORDER BY seq`. -/
def Rows.log (rows : Rows) : List Message := (rows.messages.insertionSort (·.seq ≤ ·.seq)).map (·.content)

/-- `COALESCE(MAX(seq), -1)`. -/
def Rows.lastSeq (rows : Rows) : ℤ := (rows.messages.map (·.seq)).max?.getD (-1)

/-- What a statement answers on the rows of its conversation, and the rows it adds. -/
def execQuery : (q : Query) → Rows → Except StoreError (Answer q × List Write)
  | .ensureConversation, _ => .ok ((), [.conversation])
  | .lockConversation, _ => .ok ((), [])
  | .fetchMessages, rows => .ok (rows.log, [])
  | .maxSeq, rows => .ok (rows.lastSeq, [])
  | .insertMessage id seq role content metadata, rows => do
      let role ← textParam role
      let role ← notNull role
      if role ∉ storedRoles then .error .checkViolation
      else if rows.messages.any (·.seq = seq) then .error .uniqueViolation
      else if !rows.known then .error .foreignKeyViolation
      else .ok (id, [.message { id, seq, role, content, metadata }])
  | .insertToolCall id messageId toolCallId callType name arguments input extra createdAt, rows => do
      let toolCallId ← textParam toolCallId
      let name ← textParam name
      let toolCallId ← notNull toolCallId
      let name ← notNull name
      if !typeShape callType arguments input then .error .checkViolation
      -- ON CONFLICT (message_id, tool_call_id) DO NOTHING
      else if rows.toolCalls.any (fun row => row.messageId = messageId && row.toolCallId = toolCallId) then .ok ((), [])
      else .ok ((), [.toolCall { id, messageId, toolCallId, callType, name, arguments, input, extra, createdAt }])
  | .findToolCall toolCallId, rows => do
      let toolCallId ← textParam toolCallId
      .ok ((newestCall (rows.toolCalls.filter (some ·.toolCallId = toolCallId))).map (·.id), [])
  | .insertToolResult messageId toolCallRef toolCallId content, rows => do
      let toolCallId ← textParam toolCallId
      let toolCallId ← notNull toolCallId
      if rows.toolResults.any (fun row => row.messageId = messageId && row.toolCallId = toolCallId) then
        .error .uniqueViolation
      else .ok ((), [.toolResult { messageId, toolCallRef, toolCallId, content }])
  | .insertMedia row, rows =>
    -- ON CONFLICT (message_id, part_index) DO NOTHING
    if rows.media.any (fun old => old.messageId = row.messageId && old.partIndex = row.partIndex) then .ok ((), [])
    else .ok ((), [.media row])

def takesLock : Query → Bool
  | .ensureConversation | .lockConversation => true
  | _ => false

/-! ### The rows a statement adds -/

def Db.add (c : ConversationId) (w : Write) (db : Db) : Db :=
  match w with
  | .conversation => if c ∈ db.conversations then db else { db with conversations := db.conversations ++ [c] }
  | .message row => { db with messages := db.messages ++ [(c, row)] }
  | .toolCall row => { db with toolCalls := db.toolCalls ++ [(c, row)] }
  | .toolResult row => { db with toolResults := db.toolResults ++ [(c, row)] }
  | .media row => { db with media := db.media ++ [(c, row)] }

def Rows.add (w : Write) (rows : Rows) : Rows :=
  match w with
  | .conversation => { rows with known := true }
  | .message row => { rows with messages := rows.messages ++ [row] }
  | .toolCall row => { rows with toolCalls := rows.toolCalls ++ [row] }
  | .toolResult row => { rows with toolResults := rows.toolResults ++ [row] }
  | .media row => { rows with media := rows.media ++ [row] }

theorem rowsOf_concat_self {α : Type} (c : ConversationId) (table : List (ConversationId × α)) (row : α) :
    rowsOf c (table ++ [(c, row)]) = rowsOf c table ++ [row] := by
  simp [rowsOf, List.filterMap_append]

variable {c c' : ConversationId}

theorem rowsOf_concat_of_ne {α : Type} (h : c' ≠ c) (table : List (ConversationId × α)) (row : α) :
    rowsOf c' (table ++ [(c, row)]) = rowsOf c' table := by
  simp [rowsOf, List.filterMap_append, h.symm]

theorem Db.rows_add (c : ConversationId) (w : Write) (db : Db) : (db.add c w).rows c = (db.rows c).add w := by
  cases w with
  | conversation =>
    rw [Db.add]
    split
    · rename_i h
      simp [Db.rows, Rows.add, h]
    · simp [Db.rows, Rows.add]
  | message | toolCall | toolResult | media =>
    simp only [Db.add, Db.rows, Rows.add, rowsOf_concat_self]
    rfl

theorem Db.rows_add_of_ne (h : c' ≠ c) (w : Write) (db : Db) : (db.add c w).rows c' = db.rows c' := by
  cases w with
  | conversation =>
    rw [Db.add]
    split
    · rfl
    · simp [Db.rows, h]
  | message | toolCall | toolResult | media =>
    simp only [Db.add, Db.rows, rowsOf_concat_of_ne h]
    rfl

def storeTables : Tables ConversationId Db Rows Write Answer StoreError where
  part := Db.rows
  exec := execQuery
  apply := Db.add
  applyPart := Rows.add
  part_apply := Db.rows_add
  part_apply_of_ne := fun _ _ w db h => Db.rows_add_of_ne h w db

theorem Db.rows_applyAll (c : ConversationId) (ws : List Write) (db : Db) :
    (storeTables.applyAll c ws db).rows c = storeTables.applyParts ws (db.rows c) := storeTables.part_applyAll c ws db

theorem Db.rows_applyAll_of_ne (h : c' ≠ c) (ws : List Write) (db : Db) :
    (storeTables.applyAll c ws db).rows c' = db.rows c' := storeTables.part_applyAll_of_ne h ws db

end ContextProxy
