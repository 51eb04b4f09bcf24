import ContextProxy.Conversation.Reconciliation
import ContextProxy.Lib.Except
import ContextProxy.Store.Tables

/-!
# The writers of the store

`append_messages` and `reconcile_history` as the statements they send. Both lock the conversation row first. The sequence numbers come from a `MAX(seq)`, and behind each message its tool and media projections are written. What the rest uses is `Call.ensures`: a call that returns has appended the contents `Call.appended` says, and the sequence numbers go on where they stopped.
-/

namespace ContextProxy

open Json
open List hiding get

abbrev StoreProg := Prog Answer StoreError

/-- What the database draws for one transaction: its start time, and the ids of the rows it inserts. -/
structure Draws where
  startedAt : ℕ
  messageId : ℤ → RowId
  toolCallRow : RowId → ℕ → RowId

/-! ### Projections of one message -/

/-- An exception in the code between two statements. -/
def raised {α : Type} (x : Except PyError α) : Except StoreError α := x.mapError fun _ => .pythonError

def callTypeOf (call : Fields) : Json :=
  if get call "type" = .null then if has call "custom" then .str "custom" else .str "function" else get call "type"

def toolCallQuery (rt : Runtime) (draws : Draws) (messageId : RowId) (index : ℕ) (call : Fields) :
    Except StoreError Query := do
  let callType := callTypeOf call
  let extra := call.filter fun field => field.1 ∉ ["id", "type", "function", "custom"]
  if pyEq callType (.str "custom") then
    let custom ← raised (dictOr (get call "custom"))
    return .insertToolCall (draws.toolCallRow messageId index) messageId (get call "id") (rt.str callType)
      (get custom "name") none (some (get custom "input")) extra draws.startedAt
  else
    let function ← raised (dictOr (get call "function"))
    return .insertToolCall (draws.toolCallRow messageId index) messageId (get call "id") (rt.str callType)
      (get function "name") (some (get function "arguments")) none extra draws.startedAt

def perform (q : Query) : StoreProg Unit := do
  let _ ← Prog.send q
  return ()

def persistToolCalls (rt : Runtime) (draws : Draws) (messageId : RowId) : ℕ → List Json → StoreProg Unit
  | _, [] => return ()
  | index, .obj call :: calls => do
      let q ← Prog.ofExcept (toolCallQuery rt draws messageId index call)
      perform q
      persistToolCalls rt draws messageId (index + 1) calls
  | _, _ :: _ => Prog.raise .pythonError

def persistToolParts (rt : Runtime) (draws : Draws) (messageId : RowId) (message : Message) : StoreProg Unit := do
  let calls ← Prog.ofExcept (raised (itemsOr (get message "tool_calls")))
  persistToolCalls rt draws messageId 0 calls
  if pyEq (get message "role") (.str "tool") && truthy (get message "tool_call_id") then
    let toolCallRef : Option RowId ← Prog.send (Query.findToolCall (get message "tool_call_id"))
    perform (.insertToolResult messageId toolCallRef (get message "tool_call_id") (get message "content"))

def mediaRow (rt : Runtime) (messageId : RowId) (index : ℕ) (part : Fields) : Except StoreError MediaRow := do
  let url := imageUrl rt part
  let mediaHash ← raised (rt.hexdigest url)
  return { messageId, partIndex := index, kind := rt.str (get part "type"),
           source := if "data:".toList <+: url.toList then "data" else "url", mediaHash, sourceSize := url.length }

def persistMediaFrom (rt : Runtime) (messageId : RowId) : ℕ → List Json → StoreProg Unit
  | _, [] => return ()
  | index, part :: parts => do
      match part with
      | .obj fields =>
        if pyEq (get fields "type") (.str "image_url") then
          let row ← Prog.ofExcept (mediaRow rt messageId index fields)
          perform (.insertMedia row)
      | _ => pure ()
      persistMediaFrom rt messageId (index + 1) parts

def persistMediaParts (rt : Runtime) (messageId : RowId) (message : Message) : StoreProg Unit :=
  match get message "content" with
  | .arr parts => persistMediaFrom rt messageId 0 parts
  | _ => return ()

/-! ### Writers -/

/-- The loop of `_insert_messages`. -/
def insertAll (rt : Runtime) (draws : Draws) (metadata : Fields) : ℤ → List Message → StoreProg (List RowId)
  | _, [] => return []
  | last, message :: messages => do
      let seq := last + 1
      let messageId : RowId ←
        Prog.send (Query.insertMessage (draws.messageId seq) seq (get message "role") message metadata)
      persistToolParts rt draws messageId message
      persistMediaParts rt messageId message
      let ids ← insertAll rt draws metadata seq messages
      return messageId :: ids

def insertMessages (rt : Runtime) (draws : Draws) (messages : List Message) (metadata : Option Fields) :
    StoreProg (List RowId) :=
  if messages = [] then return []
  else do
    let last : ℤ ← Prog.send Query.maxSeq
    insertAll rt draws (metadata.getD []) last messages

def appendMessages (rt : Runtime) (draws : Draws) (messages : List Message) (metadata : Option Fields) :
    StoreProg (List RowId) :=
  if messages = [] then return []
  else do
    perform .ensureConversation
    perform .lockConversation
    insertMessages rt draws messages metadata

/-- `_message_fingerprint`, or nothing where the message cannot be encoded. -/
def messageFingerprint (rt : Runtime) (message : Message) : Option String :=
  (rt.sha256 (rt.dumpsSorted (.obj message))).map fun digest => String.ofList (digest.toList.take 16)

/-- What `raise HistoryDivergenceError(…)` raises: where both messages are there, the constructor fingerprints them. -/
def raisedDivergence (rt : Runtime) (conversation : ConversationId) (index : ℕ) (persisted incoming : Option Message) :
    StoreError :=
  match persisted, incoming with
  | some a, some b =>
    if (messageFingerprint rt a).isSome && (messageFingerprint rt b).isSome then
      .historyDivergence conversation index (some a) (some b)
    else .pythonError
  | a, b => .historyDivergence conversation index a b

/-- What `reconcile_history` does with the history it has fetched. -/
def insertReconciled (divergesAt : List Message → List Message → ℕ) (rt : Runtime) (draws : Draws)
    (conversation : ConversationId) (messages : List Message) (metadata : Option Fields) (persisted : List Message) :
    StoreProg (List RowId) :=
  if (reconcileProjection persisted messages).mode = .conflict then
    Prog.raise (raisedDivergence rt conversation (divergesAt persisted messages)
      persisted[divergesAt persisted messages]? messages[divergesAt persisted messages]?)
  else
    match (reconcileProjection persisted messages).appendFrom with
    | none => return []
    | some start =>
      if messages.length ≤ start then return []
      else insertMessages rt draws (messages.drop start) metadata

/-- `reconcile_history` of both store classes, which differ in the position a conflict is reported at. -/
def reconcileHistory (divergesAt : List Message → List Message → ℕ) (rt : Runtime) (draws : Draws)
    (conversation : ConversationId) (messages : List Message) (metadata : Option Fields) : StoreProg (List RowId) := do
  perform .ensureConversation
  perform .lockConversation
  let persisted : List Message ← Prog.send Query.fetchMessages
  insertReconciled divergesAt rt draws conversation messages metadata persisted

theorem run_reconcileHistory (divergesAt : List Message → List Message → ℕ) (rt : Runtime) (draws : Draws)
    (conversation : ConversationId) (messages : List Message) (metadata : Option Fields) (rows : Rows) :
    storeTables.run (reconcileHistory divergesAt rt draws conversation messages metadata) rows
      = (storeTables.run (insertReconciled divergesAt rt draws conversation messages metadata rows.log)
          { rows with known := true }).map fun out => (out.1, .conversation :: out.2) := by
  change Except.map _ (Except.map _ (Except.map _ (storeTables.run
    (insertReconciled divergesAt rt draws conversation messages metadata rows.log) { rows with known := true }))) = _
  cases storeTables.run (insertReconciled divergesAt rt draws conversation messages metadata rows.log)
    { rows with known := true } <;> rfl

variable {messages : List Message} {rows : Rows} {err : StoreError → Prop} {draws : Draws} {messageId : RowId}
  {rt : Runtime} {M : List MessageRow}

theorem run_reconcileHistory_of_conflict (divergesAt : List Message → List Message → ℕ) (rt : Runtime) (draws : Draws)
    (c : ConversationId) (metadata : Option Fields) (h : (reconcileProjection rows.log messages).mode = .conflict) :
    storeTables.run (reconcileHistory divergesAt rt draws c messages metadata) rows
      = .error (raisedDivergence rt c (divergesAt rows.log messages) rows.log[divergesAt rows.log messages]?
          messages[divergesAt rows.log messages]?) := by
  rw [run_reconcileHistory, insertReconciled, if_pos h]
  rfl

/-- `PostgresConversationStore` reports the first position that is not equivalent. -/
def firstDivergence (persisted incoming : List Message) : ℕ := prefixLen persisted incoming

/-- `ProjectionAwareConversationStore` reports the length of the shorter history. -/
def shorterLength (persisted incoming : List Message) : ℕ := min persisted.length incoming.length

/-- There is no pair of messages to fingerprint behind the shorter history. -/
theorem raisedDivergence_shorterLength (rt : Runtime) (c : ConversationId) (persisted incoming : List Message) :
    raisedDivergence rt c (shorterLength persisted incoming) persisted[shorterLength persisted incoming]?
        incoming[shorterLength persisted incoming]?
      = .historyDivergence c (shorterLength persisted incoming) persisted[shorterLength persisted incoming]?
          incoming[shorterLength persisted incoming]? := by
  have hmissing : persisted[shorterLength persisted incoming]? = none ∨ incoming[shorterLength persisted incoming]? = none := by
    rw [List.getElem?_eq_none_iff, List.getElem?_eq_none_iff, shorterLength]
    omega
  rcases hmissing with hnone | hnone
  · rw [hnone]
    rfl
  · rw [hnone]
    cases persisted[shorterLength persisted incoming]? <;> rfl

inductive Call where
  | ensureConversation (conversation : ConversationId)
  | appendMessages (conversation : ConversationId) (messages : List Message) (metadata : Option Fields) (draws : Draws)
  | reconcileHistory (conversation : ConversationId) (messages : List Message) (metadata : Option Fields) (draws : Draws)
  | reconcileProjectionAware (conversation : ConversationId) (messages : List Message) (metadata : Option Fields)
      (draws : Draws)

def Call.conversation : Call → ConversationId
  | .ensureConversation c | .appendMessages c .. | .reconcileHistory c .. | .reconcileProjectionAware c .. => c

def Call.prog (rt : Runtime) : Call → StoreProg (List RowId)
  | .ensureConversation _ => do
      perform .ensureConversation
      return []
  | .appendMessages _ messages metadata draws => ContextProxy.appendMessages rt draws messages metadata
  | .reconcileHistory c messages metadata draws =>
    ContextProxy.reconcileHistory firstDivergence rt draws c messages metadata
  | .reconcileProjectionAware c messages metadata draws =>
    ContextProxy.reconcileHistory shorterLength rt draws c messages metadata

def Call.appended (log : List Message) : Call → List Message
  | .ensureConversation _ => []
  | .appendMessages _ messages _ _ => messages
  | .reconcileHistory _ messages _ _ | .reconcileProjectionAware _ messages _ _ =>
    appendedTail (reconcileProjection log messages) messages

theorem Call.locksFirst (rt : Runtime) (call : Call) : (call.prog rt).LocksFirst takesLock := by
  cases call with
  | appendMessages c messages metadata draws =>
    rw [Call.prog, ContextProxy.appendMessages]
    split
    · trivial
    · exact rfl
  | ensureConversation | reconcileHistory | reconcileProjectionAware => exact rfl

/-! ### What the statements leave alone -/

def Query.addsMessage : Query → Bool
  | .insertMessage .. => true
  | _ => false

def KeepsMessages {α : Type} (p : StoreProg α) : Prop :=
  ∀ M, storeTables.Ensures (fun rows => rows.messages = M) p fun _ rows => rows.messages = M

variable {q : Query}

theorem execQuery_keeps (hq : q.addsMessage = false) {answer : Answer q} {ws : List Write}
    (h : execQuery q rows = .ok (answer, ws)) : (storeTables.applyParts ws rows).messages = rows.messages := by
  cases q with
  | insertMessage => simp [Query.addsMessage] at hq
  | ensureConversation | lockConversation | fetchMessages | maxSeq =>
    cases h
    rfl
  | insertToolCall id messageId toolCallId callType name arguments input extra createdAt =>
    obtain ⟨_, -, h⟩ := bind_eq_ok.mp h
    obtain ⟨_, -, h⟩ := bind_eq_ok.mp h
    obtain ⟨_, -, h⟩ := bind_eq_ok.mp h
    obtain ⟨_, -, h⟩ := bind_eq_ok.mp h
    split_ifs at h <;> (cases h; rfl)
  | findToolCall toolCallId =>
    obtain ⟨_, -, h⟩ := bind_eq_ok.mp h
    cases h
    rfl
  | insertToolResult messageId toolCallRef toolCallId content =>
    obtain ⟨_, -, h⟩ := bind_eq_ok.mp h
    obtain ⟨_, -, h⟩ := bind_eq_ok.mp h
    split_ifs at h
    cases h
    rfl
  | insertMedia row =>
    simp only [execQuery] at h
    split_ifs at h <;> (cases h; rfl)

/-- Between the inserts of two messages the writers send no statement that adds a message, and what goes wrong there without a statement is an exception of the code. -/
def Projects {α : Type} (p : StoreProg α) : Prop :=
  p.Emits (fun q => q.addsMessage = false) fun error => error = .pythonError

variable {α : Type} {error : StoreError} {I : Rows → Prop}

theorem Projects.keepsMessages {p : StoreProg α} (h : Projects p) : KeepsMessages p := by
  intro M
  refine Tables.Ensures.of_emits h fun q hq rows hrows answer ws hexec => ?_
  rw [execQuery_keeps hq hexec, hrows]

variable {stmt : Query → Prop}

theorem emits_perform (hq : stmt q) :
    (perform q).Emits stmt err := Prog.Emits.bind (.send hq) fun _ => .pure ()

theorem keepsMessages_perform (hq : q.addsMessage = false) : KeepsMessages (perform q) :=
  Projects.keepsMessages (emits_perform hq)

theorem eq_pythonError_of_raised {x : Except PyError α} (h : raised x = .error error) : error = .pythonError := by
  cases x with
  | ok a => cases h
  | error e => exact (Except.error.inj h).symm

theorem toolCallQuery_eq_ok {index : ℕ} {call : Fields} (h : toolCallQuery rt draws messageId index call = .ok q) :
    ∃ toolCallId callType name arguments input extra, q = .insertToolCall (draws.toolCallRow messageId index) messageId
      toolCallId callType name arguments input extra draws.startedAt := by
  rw [toolCallQuery] at h
  split_ifs at h <;>
    (obtain ⟨container, -, h⟩ := bind_eq_ok.mp h
     cases h
     exact ⟨_, _, _, _, _, _, rfl⟩)

theorem toolCallQuery_error {index : ℕ} {call : Fields} (h : toolCallQuery rt draws messageId index call = .error error) :
    error = .pythonError := by
  rw [toolCallQuery] at h
  split_ifs at h <;> rcases bind_eq_error.mp h with h | ⟨_, -, h⟩
  · exact eq_pythonError_of_raised h
  · cases h
  · exact eq_pythonError_of_raised h
  · cases h

theorem emits_persistToolCalls
    (hstmt : ∀ id toolCallId callType name arguments input extra createdAt,
      stmt (.insertToolCall id messageId toolCallId callType name arguments input extra createdAt))
    (herr : err .pythonError) (rt : Runtime) (draws : Draws) (index : ℕ) (calls : List Json) :
    (persistToolCalls rt draws messageId index calls).Emits stmt err := by
  induction calls generalizing index with
  | nil => exact Prog.Emits.pure ()
  | cons call calls ih =>
    cases call with
    | obj fields =>
      rw [persistToolCalls]
      cases hquery : toolCallQuery rt draws messageId index fields with
      | error error => exact toolCallQuery_error hquery ▸ herr
      | ok q =>
        obtain ⟨toolCallId, callType, name, arguments, input, extra, rfl⟩ := toolCallQuery_eq_ok hquery
        exact Prog.Emits.bind (p := perform _) (emits_perform (hstmt ..)) fun _ => ih (index + 1)
    | null | bool | int | float | str | arr => exact herr

theorem projects_persistToolParts (rt : Runtime) (draws : Draws) (messageId : RowId) (message : Message) :
    Projects (persistToolParts rt draws messageId message) := by
  refine Prog.Emits.bind (.ofExcept fun _ => eq_pythonError_of_raised) fun calls => ?_
  have hcalls : Projects (persistToolCalls rt draws messageId 0 calls) := by
    apply emits_persistToolCalls
    · intros
      rfl
    · rfl
  refine hcalls.bind fun _ => ?_
  split
  · exact Prog.Emits.bind (.send rfl) fun _ => emits_perform rfl
  · exact Prog.Emits.pure ()

theorem emits_mediaRow {fields : Fields} (herr : (rt.sha256 (imageUrl rt fields)).isSome = true ∨ err .pythonError)
    (messageId : RowId) (index : ℕ) :
    (Prog.ofExcept (mediaRow rt messageId index fields) : StoreProg MediaRow).Emits stmt err := by
  refine .ofExcept fun error h => ?_
  rcases bind_eq_error.mp h with h | ⟨_, -, h⟩
  · rcases herr with hsome | herr
    · obtain ⟨digest, hdigest⟩ := Runtime.exists_hexdigest.mpr hsome
      rw [hdigest] at h
      cases h
    · exact eq_pythonError_of_raised h ▸ herr
  · cases h

theorem emits_persistMediaFrom (hstmt : ∀ row, stmt (.insertMedia row)) {parts : List Json}
    (herr : (∀ part ∈ parts, ∀ text ∈ hashedText rt part, (rt.sha256 text).isSome = true) ∨ err .pythonError)
    (messageId : RowId) (index : ℕ) : (persistMediaFrom rt messageId index parts).Emits stmt err := by
  induction parts generalizing index with
  | nil => exact Prog.Emits.pure ()
  | cons part parts ih =>
    rw [forall_mem_cons] at herr
    have hrest := fun index => ih (herr.imp_left And.right) index
    cases part with
    | obj fields =>
      rw [persistMediaFrom]
      split
      · rename_i himage
        have hurl : hashedText rt (.obj fields) = some (imageUrl rt fields) := by
          rw [hashedText, pyEq_str_iff.mp himage]
          rfl
        have hrow := herr.imp_left fun h => h.1 _ hurl
        exact Prog.Emits.bind (emits_mediaRow hrow messageId index) fun _ =>
          Prog.Emits.bind (emits_perform (hstmt _)) fun _ => hrest _
      · exact hrest _
    | null | bool | int | float | str | arr => exact hrest _

theorem emits_persistMediaParts (hstmt : ∀ row, stmt (.insertMedia row)) {message : Message}
    (herr : Fingerprintable rt message ∨ err .pythonError) (messageId : RowId) :
    (persistMediaParts rt messageId message).Emits stmt err := by
  rw [persistMediaParts]
  split
  · rename_i parts hparts
    exact emits_persistMediaFrom hstmt (herr.imp_left fun h => h parts hparts) _ _
  · exact Prog.Emits.pure ()

theorem projects_persistMediaParts (rt : Runtime) (messageId : RowId) (message : Message) :
    Projects (persistMediaParts rt messageId message) := by
  apply emits_persistMediaParts
  · exact fun _ => rfl
  · exact .inr rfl

/-! ### What the writers raise -/

theorem emits_insertMessages
    (h : ∀ m ∈ messages, ∀ messageId, (persistToolParts rt draws messageId m).Emits (fun _ => True) err)
    (hmedia : ∀ m ∈ messages, Fingerprintable rt m ∨ err .pythonError) (metadata : Option Fields) :
    (insertMessages rt draws messages metadata).Emits (fun _ => True) err := by
  have hall : ∀ metadata last, (insertAll rt draws metadata last messages).Emits (fun _ => True) err := by
    intro metadata last
    induction messages generalizing last with
    | nil => exact Prog.Emits.pure _
    | cons message messages ih =>
      refine Prog.Emits.bind (.send trivial) fun messageId => (h message mem_cons_self messageId).bind fun _ => ?_
      refine (emits_persistMediaParts (fun _ => trivial) (hmedia message mem_cons_self) messageId).bind fun _ => ?_
      exact (ih (fun m hm => h m (mem_cons_of_mem _ hm)) (fun m hm => hmedia m (mem_cons_of_mem _ hm)) _).bind
        fun _ => .pure _
  rw [insertMessages]
  split
  · exact Prog.Emits.pure _
  · exact Prog.Emits.bind (.send trivial) (hall _)

/-- A reconciliation raises a conflict, or what storing the messages it appends raises. -/
theorem emits_insertReconciled
    (h : ∀ m ∈ messages, ∀ messageId, (persistToolParts rt draws messageId m).Emits (fun _ => True) err)
    (hmedia : ∀ m ∈ messages, Fingerprintable rt m ∨ err .pythonError) (divergesAt : List Message → List Message → ℕ)
    (conversation : ConversationId) (metadata : Option Fields) {persisted : List Message}
    (hconflict : (reconcileProjection persisted messages).mode = .conflict →
      err (raisedDivergence rt conversation (divergesAt persisted messages)
        persisted[divergesAt persisted messages]? messages[divergesAt persisted messages]?)) :
    (insertReconciled divergesAt rt draws conversation messages metadata persisted).Emits (fun _ => True) err := by
  rw [insertReconciled]
  split
  · rename_i hmode
    exact hconflict hmode
  · split
    · exact Prog.Emits.pure _
    · split
      · exact Prog.Emits.pure _
      · exact emits_insertMessages (fun m hm => h m (mem_of_mem_drop hm)) (fun m hm => hmedia m (mem_of_mem_drop hm))
          metadata

/-! ### Contiguous sequence numbers -/

/-- The sequence numbers are `0, 1, …` in the order of the rows. -/
def Contiguous (rows : List MessageRow) : Prop :=
  rows.map (·.seq) = (List.range rows.length).map fun k : ℕ => (k : ℤ)

theorem Contiguous.concat {rows : List MessageRow} (h : Contiguous rows) {row : MessageRow}
    (hseq : row.seq = rows.length) : Contiguous (rows ++ [row]) := by
  rw [Contiguous, length_append, length_singleton, range_succ, map_append, map_append, h,
    map_singleton, map_singleton, hseq]

theorem Contiguous.pairwise_lt {messages : List MessageRow} (h : Contiguous messages) :
    messages.Pairwise (·.seq < ·.seq) := by
  rw [← pairwise_map, h, pairwise_map]
  exact pairwise_lt_range.imp fun hab => Int.ofNat_lt.mpr hab

theorem Contiguous.lastSeq (h : Contiguous rows.messages) : rows.lastSeq = rows.messages.length - 1 := by
  rw [Rows.lastSeq, h]
  cases rows.messages.length with
  | zero => rfl
  | succ n =>
    have hmax : ((List.range (n + 1)).map fun k : ℕ => (k : ℤ)).max? = some (n : ℤ) := by
      refine max?_eq_some_iff.mpr ⟨mem_map.mpr ⟨n, by simp, rfl⟩, ?_⟩
      intro b hb
      obtain ⟨k, hk, rfl⟩ := mem_map.mp hb
      rw [mem_range] at hk
      omega
    rw [hmax, Option.getD_some]
    omega

theorem Contiguous.log (h : Contiguous rows.messages) : rows.log = rows.messages.map (·.content) := by
  have hsorted : rows.messages.Pairwise (·.seq ≤ ·.seq) := by
    rw [← pairwise_map, h, pairwise_map]
    exact pairwise_le_range.imp fun hab => Int.ofNat_le.mpr hab
  rw [Rows.log, hsorted.insertionSort_eq]

/-! ### What a call does alone -/

/-- The messages `M`, followed by rows with the given contents. -/
def Extended (M : List MessageRow) (contents : List Message) (rows : Rows) : Prop :=
  Contiguous rows.messages ∧ ∃ new, rows.messages = M ++ new ∧ new.map (·.content) = contents

theorem ensures_insertMessage (id : RowId) (seq : ℤ) (role : Json) (content : Message) (metadata : Fields)
    (M : List MessageRow) : storeTables.Ensures (fun rows => rows.messages = M)
      (Prog.send (Query.insertMessage id seq role content metadata))
      fun _ rows => ∃ row, rows.messages = M ++ [row] ∧ row.seq = seq ∧ row.content = content := by
  refine .send fun rows hrows answer ws h => ?_
  obtain ⟨_, -, h⟩ := bind_eq_ok.mp h
  obtain ⟨role, -, h⟩ := bind_eq_ok.mp h
  split_ifs at h
  cases h
  exact ⟨_, congrArg (· ++ [_]) hrows, rfl, rfl⟩

theorem ensures_insertAll (rt : Runtime) (draws : Draws) (metadata : Fields) (messages : List Message) {last : ℤ}
    (hM : Contiguous M) (hlast : last = M.length - 1) :
    storeTables.Ensures (fun rows => rows.messages = M) (insertAll rt draws metadata last messages)
      fun _ => Extended M messages := by
  induction messages generalizing last M with
  | nil => exact .ret fun rows hrows => ⟨hrows ▸ hM, [], by simp [hrows], rfl⟩
  | cons message messages ih =>
    refine (ensures_insertMessage _ _ _ _ _ M).bind fun messageId rows hrows => ?_
    obtain ⟨row, hrows, hseq, hcontent⟩ := hrows
    have hcontiguous : Contiguous (M ++ [row]) := hM.concat (by omega)
    have hrest := ih hcontiguous (show last + 1 = ((M ++ [row]).length : ℤ) - 1 by simp; omega)
    have hparts := (projects_persistToolParts rt draws messageId message).keepsMessages (M ++ [row])
    have hmedia := (projects_persistMediaParts rt messageId message).keepsMessages (M ++ [row])
    refine hparts.bind (fun _ => hmedia.bind fun _ => hrest.bind fun ids => .ret ?_) rows hrows
    rintro rows ⟨hrows, new, hnew, hcontents⟩
    exact ⟨hrows, row :: new, by rw [hnew, append_assoc, singleton_append], by simp [hcontent, hcontents]⟩

theorem ensures_insertMessages (rt : Runtime) (draws : Draws) (messages : List Message) (metadata : Option Fields)
    (hM : Contiguous M) : storeTables.Ensures (fun rows => rows.messages = M) (insertMessages rt draws messages metadata)
      fun _ => Extended M messages := by
  rw [insertMessages]
  split
  · rename_i hnil
    exact .ret fun rows hrows => ⟨hrows ▸ hM, [], by simp [hrows], by simp [hnil]⟩
  · have hread : storeTables.Ensures (fun rows => rows.messages = M) (Prog.send Query.maxSeq)
        fun (last : ℤ) rows => last = M.length - 1 ∧ rows.messages = M := by
      refine .send fun rows hrows answer ws h => ?_
      cases h
      exact ⟨(Contiguous.lastSeq (hrows ▸ hM)).trans (by rw [hrows]), hrows⟩
    refine hread.bind fun last rows hrows => ?_
    exact ensures_insertAll rt draws _ messages hM hrows.1 rows hrows.2

theorem ensures_perform {J : Rows → Prop}
    (h : ∀ rows, I rows → ∀ answer ws, execQuery q rows = .ok (answer, ws) → J (storeTables.applyParts ws rows)) :
    storeTables.Ensures I (perform q) fun _ => J :=
  (Tables.Ensures.send h : storeTables.Ensures I (Prog.send q) fun _ => J).bind fun _ => .ret fun _ hrows => hrows

theorem ensures_locked (hI : ∀ rows, I rows → I (rows.add .conversation)) {p : StoreProg α} {post : α → Rows → Prop}
    (h : storeTables.Ensures I p post) : storeTables.Ensures I
      (do
        perform .ensureConversation
        perform .lockConversation
        p) post := by
  have hensure : storeTables.Ensures I (perform .ensureConversation) fun _ => I := by
    refine ensures_perform fun rows hrows answer ws hexec => ?_
    cases hexec
    exact hI rows hrows
  have hlock : storeTables.Ensures I (perform .lockConversation) fun _ => I := by
    refine ensures_perform fun rows hrows answer ws hexec => ?_
    cases hexec
    exact hrows
  exact hensure.bind fun _ => hlock.bind fun _ => h

theorem ensures_appendMessages (rt : Runtime) (draws : Draws) (messages : List Message) (metadata : Option Fields)
    (hM : Contiguous M) : storeTables.Ensures (fun rows => rows.messages = M) (appendMessages rt draws messages metadata)
      fun _ => Extended M messages := by
  rw [appendMessages]
  split
  · rename_i hnil
    exact .ret fun rows hrows => ⟨hrows ▸ hM, [], by simp [hrows], by simp [hnil]⟩
  · exact ensures_locked (fun _ h => h) (ensures_insertMessages rt draws messages metadata hM)

theorem ensures_insertReconciled (divergesAt : List Message → List Message → ℕ) (rt : Runtime) (draws : Draws)
    (conversation : ConversationId) (messages : List Message) (metadata : Option Fields) (persisted : List Message)
    (hM : Contiguous M) : storeTables.Ensures (fun rows => rows.messages = M)
      (insertReconciled divergesAt rt draws conversation messages metadata persisted)
      fun _ => Extended M (appendedTail (reconcileProjection persisted messages) messages) := by
  have hnone : storeTables.Ensures (fun rows => rows.messages = M) (Prog.ret ([] : List RowId)) fun _ => Extended M [] :=
    .ret fun rows hrows => ⟨hrows ▸ hM, [], by simp [hrows], rfl⟩
  rw [insertReconciled, appendedTail]
  split
  · exact .raise _
  · cases (reconcileProjection persisted messages).appendFrom with
    | none => exact hnone
    | some start =>
      simp only
      split
      · rename_i hend
        rw [drop_eq_nil_of_le hend]
        exact hnone
      · exact ensures_insertMessages rt draws _ metadata hM

theorem ensures_fetchMessages (hM : Contiguous M) :
    storeTables.Ensures (fun rows => rows.messages = M) (Prog.send Query.fetchMessages)
      fun (persisted : List Message) rows => persisted = M.map (·.content) ∧ rows.messages = M := by
  refine .send fun rows hrows answer ws h => ?_
  cases h
  exact ⟨(Contiguous.log (hrows ▸ hM)).trans (by rw [hrows]), hrows⟩

/-- A reconciliation that returns has appended exactly the tail that `reconcileProjection` left open. -/
theorem ensures_reconcileHistory (divergesAt : List Message → List Message → ℕ) (rt : Runtime) (draws : Draws)
    (conversation : ConversationId) (messages : List Message) (metadata : Option Fields) (hM : Contiguous M) :
    storeTables.Ensures (fun rows => rows.messages = M)
      (reconcileHistory divergesAt rt draws conversation messages metadata)
      fun _ => Extended M (appendedTail (reconcileProjection (M.map (·.content)) messages) messages) := by
  refine ensures_locked (fun _ h => h) ?_
  refine (ensures_fetchMessages hM).bind fun persisted rows hrows => ?_
  obtain ⟨rfl, hrows⟩ := hrows
  exact ensures_insertReconciled divergesAt rt draws conversation messages metadata _ hM rows hrows

/-- A call that returns has extended the log it found by what `Call.appended` says, and nothing else. -/
theorem Call.ensures (rt : Runtime) (call : Call) (hM : Contiguous M) :
    storeTables.Ensures (fun rows => rows.messages = M) (call.prog rt)
      fun _ => Extended M (call.appended (M.map (·.content))) := by
  cases call with
  | ensureConversation c =>
    exact (keepsMessages_perform rfl M).bind fun _ => .ret fun rows hrows => ⟨hrows ▸ hM, [], by simp [hrows], rfl⟩
  | appendMessages c messages metadata draws => exact ensures_appendMessages rt draws messages metadata hM
  | reconcileHistory c messages metadata draws => exact ensures_reconcileHistory _ rt draws c messages metadata hM
  | reconcileProjectionAware c messages metadata draws =>
    exact ensures_reconcileHistory _ rt draws c messages metadata hM

end ContextProxy
