import ContextProxy.Lib.Effect
import ContextProxy.Memory.Qdrant
import Mathlib.Data.List.Sort
import Mathlib.Data.Prod.Lex

/-!
# Indexing chunks and memories

The three writers of the vector index in `MemoryService`: the pass over the pending chunks, the rebuild, and the creation of a memory. Each goes on after a `VectorStoreError`, and any other error of the client ends it. If embeddings succeed, each keeps its promise exactly when every upsert is stored or declined (`Contained`).
-/

namespace ContextProxy

open Json

/-! ### The tables -/

structure ChunkRow where
  id : String
  conversationId : String
  startSeq : ℕ
  rawContent : String
  vectorIndexedAt : Option ℚ

structure ChunkTable where
  rows : List ChunkRow
  ids_nodup : (rows.map (·.id)).Nodup

namespace ChunkTable

def update (table : ChunkTable) (f : ChunkRow → Option ℚ) : ChunkTable where
  rows := table.rows.map fun row => { row with vectorIndexedAt := f row }
  ids_nodup := by
    rw [List.map_map]
    exact table.ids_nodup

def mark (table : ChunkTable) (id : String) (now : ℚ) : ChunkTable :=
  table.update fun row => if row.id = id ∧ row.vectorIndexedAt = none then some now else row.vectorIndexedAt

end ChunkTable

inductive MemoryKind where
  | decision
  | constraint
  | fact
  | task
  | bug
  | implementation
  | toolResult
  | episodeSummary
  | conversationSummary
  deriving DecidableEq, Repr

def MemoryKind.value : MemoryKind → String
  | .decision => "decision"
  | .constraint => "constraint"
  | .fact => "fact"
  | .task => "task"
  | .bug => "bug"
  | .implementation => "implementation"
  | .toolResult => "tool_result"
  | .episodeSummary => "episode_summary"
  | .conversationSummary => "conversation_summary"

inductive MemoryStatus where
  | active
  | superseded
  | resolved
  | obsolete
  deriving DecidableEq, Repr

structure MemoryRow where
  id : String
  conversationId : String
  kind : MemoryKind
  content : String
  sourceMessageIds : List String
  importance : ℚ
  status : MemoryStatus
  supersedes : Option String
  supersededBy : Option String
  metadata : Fields

/-- What the service works on: the tables, the cached readiness, and the upserts it has asked for. -/
structure MemoryState where
  chunks : ChunkTable
  memories : List MemoryRow
  conversations : List String
  ready : Bool
  calls : List (List Point)

inductive ServiceError where
  | vector (error : VectorError)
  | valueError (message : String)
  | dataError
  | uniqueViolation
  | indexError
  deriving DecidableEq, Repr

/-- The service: its settings, the embedding endpoint, what Qdrant answers to each upsert, the time of the update behind it, and how PostgreSQL reads a UUID. -/
structure MemoryService where
  rt : Runtime
  collection : String
  embed : List String → Except String (List (List Json))
  maxEmbedChars : ℕ
  embedBatchSize : ℕ
  embedBatchSize_pos : 0 < embedBatchSize
  answers : ℕ → UpsertAnswers
  now : ℕ → ℚ
  uuid : String → Option String

/-- The slices of a list that a loop in steps of `size` takes. -/
def batches {α : Type} (size : ℕ) : ℕ → List α → List (List α)
  | 0, _ => []
  | fuel + 1, items => if items.isEmpty then [] else items.take size :: batches size fuel (items.drop size)

namespace MemoryService

variable (service : MemoryService)

/-- `text[:max_embed_chars]`. -/
def truncate (text : String) : String := String.ofList (text.toList.take service.maxEmbedChars)

def safeEmbedBatch (texts : List String) : Option (List (List Json)) :=
  if texts.isEmpty then some []
  else
    match service.embed (texts.map service.truncate) with
    | .error _ => none
    | .ok vectors => if vectors.length ≠ texts.length then none else some vectors

def safeEmbed (text : String) : Except ServiceError (Option (List Json)) :=
  match service.embed [service.truncate text] with
  | .error _ => .ok none
  | .ok [] => .error .indexError
  | .ok (vector :: _) => .ok (some vector)

def upsert (points : List Point) (vectorSize : ℕ) : Eff MemoryState ServiceError Unit := do
  let st ← get
  let outcome := upsertPoints service.rt service.collection points vectorSize (service.answers st.calls.length) st.ready
  modify fun st => { st with ready := outcome.2, calls := st.calls ++ [points] }
  match outcome.1 with
  | .ok () => pure ()
  | .error error => throw (.vector error)

/-- An upsert whose `VectorStoreError` is caught; whether it was stored. -/
def tryUpsert (points : List Point) (vectorSize : ℕ) : Eff MemoryState ServiceError Bool :=
  tryCatch (do
    service.upsert points vectorSize
    return true) fun error =>
      match error with
      | .vector (.vectorStore _) => pure false
      | error => throw error

def chunkPoint (conversationId : String) (row : ChunkRow) (vector : List Json) : Point where
  id := row.id
  vector
  payload := [("conversation_id", .str conversationId), ("kind", .str "chunk"), ("chunk_id", .str row.id),
    ("start_seq", .int row.startSeq)]

/-- What `_index_chunk` and `_rebuild_chunk` do with a vector: upsert it, and mark the chunk once it is stored. -/
def storeChunk (conversationId : String) (row : ChunkRow) (vector : List Json) : Eff MemoryState ServiceError Bool := do
  if ← service.tryUpsert [chunkPoint conversationId row vector] vector.length then
    modify fun st => { st with chunks := st.chunks.mark row.id (service.now st.calls.length) }
    return true
  else return false

def indexChunk (conversationId : String) (row : ChunkRow) (vector : List Json) : Eff MemoryState ServiceError Bool :=
  service.storeChunk conversationId row vector

def rebuildChunk (row : ChunkRow) (vector : List Json) : Eff MemoryState ServiceError Bool :=
  service.storeChunk row.conversationId row vector

/-- The rows of the query in `_index_pending_chunks`. -/
def pendingChunks (conversationId : String) (st : MemoryState) : List ChunkRow :=
  ((st.chunks.rows.filter fun row => row.conversationId = conversationId ∧ row.vectorIndexedAt = none).insertionSort
    fun a b => a.startSeq ≤ b.startSeq).take 100

def indexPendingChunks (conversationId : String) : Eff MemoryState ServiceError ℕ := do
  let rows := pendingChunks conversationId (← get)
  (batches service.embedBatchSize rows.length rows).foldlM (fun indexed batch =>
    match service.safeEmbedBatch (batch.map (·.rawContent)) with
    | none => pure indexed
    | some vectors =>
      (batch.zip vectors).foldlM (fun indexed (row, vector) => do
        let ok ← service.indexChunk conversationId row vector
        return if ok then indexed + 1 else indexed) indexed) 0

structure RebuildSummary where
  chunks : ℕ := 0
  chunksFailed : ℕ := 0
  memories : ℕ := 0
  memoriesFailed : ℕ := 0
  deriving DecidableEq, Repr

namespace RebuildSummary

def addChunk (summary : RebuildSummary) (ok : Bool) : RebuildSummary :=
  if ok then { summary with chunks := summary.chunks + 1 } else { summary with chunksFailed := summary.chunksFailed + 1 }

def addMemory (summary : RebuildSummary) (ok : Bool) : RebuildSummary :=
  { summary with
    memories := summary.memories + 1
    memoriesFailed := if ok then summary.memoriesFailed else summary.memoriesFailed + 1 }

end RebuildSummary

/-- Whether a row is in the scope of the rebuild. An empty identifier counts as none. -/
def inScope (scope : Option String) (conversationId : String) : Bool :=
  match scope with
  | none => true
  | some id => id = "" || conversationId = id

def unmark (scope : Option String) (st : MemoryState) : MemoryState :=
  { st with chunks := st.chunks.update fun row => if inScope scope row.conversationId then none else row.vectorIndexedAt }

def rebuildChunks (scope : Option String) (st : MemoryState) : List ChunkRow :=
  (st.chunks.rows.filter fun row => inScope scope row.conversationId).insertionSort
    fun a b => toLex (a.conversationId, a.startSeq) ≤ toLex (b.conversationId, b.startSeq)

def rebuildMemories (scope : Option String) (st : MemoryState) : List MemoryRow :=
  st.memories.filter fun row => row.status = .active ∧ inScope scope row.conversationId

def memoryPoint (id conversationId : String) (kind : MemoryKind) (vector : List Json) : Point where
  id
  vector
  payload := [("conversation_id", .str conversationId), ("kind", .str kind.value), ("memory_id", .str id)]

def rebuildChunkRows (rows : List ChunkRow) : Eff MemoryState ServiceError RebuildSummary :=
  (batches service.embedBatchSize rows.length rows).foldlM (fun summary batch =>
    match service.safeEmbedBatch (batch.map (·.rawContent)) with
    | none => pure { summary with chunksFailed := summary.chunksFailed + batch.length }
    | some vectors =>
      (batch.zip vectors).foldlM (fun summary (row, vector) => do
        let ok ← service.rebuildChunk row vector
        return summary.addChunk ok) summary) ({} : RebuildSummary)

def rebuildMemoryRows (rows : List MemoryRow) (summary : RebuildSummary) : Eff MemoryState ServiceError RebuildSummary :=
  match service.safeEmbedBatch (rows.map fun row => service.truncate row.content) with
  | none => pure { summary with memories := rows.length, memoriesFailed := rows.length }
  | some vectors =>
    (rows.zip vectors).foldlM (fun summary (row, vector) => do
      let ok ← service.tryUpsert [memoryPoint row.id row.conversationId row.kind vector] vector.length
      return summary.addMemory ok) summary

def rebuildVectorIndex (scope : Option String) (force : Bool) : Eff MemoryState ServiceError RebuildSummary := do
  if force then
    modify (unmark scope)
  let st ← get
  let summary ← service.rebuildChunkRows (rebuildChunks scope st)
  service.rebuildMemoryRows (rebuildMemories scope st) summary

structure MemoryCreate where
  kind : MemoryKind
  content : String
  conversationId : String
  sourceMessageIds : List String := []
  importance : ℚ := 0
  supersedes : Option String := none
  metadata : Fields := []

/-- The identifier of the superseded memory, where one is given. -/
def MemoryCreate.target (spec : MemoryCreate) : Option String := spec.supersedes.filter (· ≠ "")

/-- The check of the superseded memory, before anything is written. -/
def findTarget (spec : MemoryCreate) (st : MemoryState) : Except ServiceError (Option String) :=
  match spec.target with
  | none => .ok none
  | some text =>
    match service.uuid text with
    | none => .error (.valueError "badly formed hexadecimal UUID string")
    | some id =>
      match st.memories.find? (·.id = id) with
      | none => .error (.valueError ("supersedes target " ++ text ++ " not found"))
      | some row =>
        if row.conversationId ≠ spec.conversationId then
          .error (.valueError "supersedes target belongs to a different conversation")
        else .ok (some id)

/-- The transaction of `create_memory`. -/
def insertMemory (spec : MemoryCreate) (memoryId : String) (st : MemoryState) : Except ServiceError MemoryState :=
  match service.uuid spec.conversationId with
  | none => .error .dataError
  | some conversation => do
      let target ← service.findTarget spec st
      let inserted := st.memories ++ [{
        id := memoryId
        conversationId := conversation
        kind := spec.kind
        content := spec.content
        sourceMessageIds := spec.sourceMessageIds
        importance := spec.importance
        status := .active
        supersedes := target
        supersededBy := none
        metadata := spec.metadata }]
      if st.memories.any (·.id = memoryId) then .error .uniqueViolation
      else
        .ok { st with
          conversations :=
            if conversation ∈ st.conversations then st.conversations else st.conversations ++ [conversation]
          memories := inserted.map fun row =>
            if target = some row.id ∧ row.status ≠ .superseded then
              { row with status := .superseded, supersededBy := some memoryId }
            else row }

/-- `_embed_and_upsert`, for the point of a memory. -/
def embedAndUpsert (memoryId text conversationId : String) (kind : MemoryKind) : Eff MemoryState ServiceError Unit := do
  match service.safeEmbed text with
  | .error error => throw error
  | .ok none => pure ()
  | .ok (some vector) =>
    let _ ← service.tryUpsert [memoryPoint memoryId conversationId kind vector] vector.length

/-- `create_memory`, where `memoryId` is the identifier it draws. -/
def createMemory (spec : MemoryCreate) (memoryId : String) : Eff MemoryState ServiceError String := do
  let st ← get
  match service.insertMemory spec memoryId st with
  | .error error => throw error
  | .ok committed =>
    set committed
    service.embedAndUpsert memoryId spec.content spec.conversationId spec.kind
    return memoryId

/-! ### One upsert -/

def load (vector : List Json) : Load := ⟨vector.length, (service.rt.encodeVector vector).isOk⟩

/-- The program asks for one upsert. If it is stored or declined, the program returns `value` and leaves `settle`; any other end comes out as an error. -/
def AsksOnce {β : Type} (load : Load) (p : Eff MemoryState ServiceError β) (value : Bool → β)
    (settle : Bool → MemoryState → MemoryState) : Prop :=
  ∀ st, let answers := service.answers st.calls.length
    (answers.stores service.collection load st.ready = true ∧ p.exec st = (.ok (value true), settle true st)) ∨
      (answers.stores service.collection load st.ready = false ∧
        answers.declines service.collection load st.ready = true ∧ p.exec st = (.ok (value false), settle false st)) ∨
      (answers.stores service.collection load st.ready = false ∧
        answers.declines service.collection load st.ready = false ∧ ∃ error st', p.exec st = (.error error, st'))

def asked (points : List Point) (load : Load) (st : MemoryState) : MemoryState :=
  { st with
    ready := (service.answers st.calls.length).readyAfter service.collection load st.ready
    calls := st.calls ++ [points] }

variable {service}

theorem exec_upsert {points : List Point} {size : ℕ} {st : MemoryState} {outcome : Except VectorError Unit} {ready : Bool}
    (h : upsertPoints service.rt service.collection points size (service.answers st.calls.length) st.ready
      = (outcome, ready)) : (service.upsert points size).exec st
      = (outcome.mapError ServiceError.vector, { st with ready, calls := st.calls ++ [points] }) := by
  rw [upsert, Eff.exec_bind_of_ok (Eff.exec_get st), Eff.exec_bind_of_ok (Eff.exec_modify _ st), h]
  cases outcome with
  | ok u => rfl
  | error e => rfl

theorem asksOnce_tryUpsert (point : Point) :
    service.AsksOnce (service.load point.vector) (service.tryUpsert [point] point.vector.length) id
      fun _ => service.asked [point] (service.load point.vector) := by
  intro st
  rw [show point.vector.length = (service.load point.vector).size from rfl]
  simp only [tryUpsert, Eff.exec_tryCatch]
  have hencodes : (service.load point.vector).encodes = (encodePoints service.rt [point]).isOk := by
    change (service.rt.encodeVector point.vector).isOk = (service.rt.encodeVector point.vector >>= fun _ => pure ()).isOk
    cases service.rt.encodeVector point.vector with
    | error error => rfl
    | ok => rfl
  rcases upsertPoints_cases service.collection service.rt (List.isEmpty_cons ..) hencodes (service.answers st.calls.length)
    st.ready with ⟨hstores, h⟩ | ⟨hstores, hdeclines, message, h⟩ | ⟨hstores, hdeclines, error, left, herror, h⟩
  · refine .inl ⟨hstores, ?_⟩
    rw [Eff.exec_bind_of_ok (exec_upsert h)]
    rfl
  · refine .inr (.inl ⟨hstores, hdeclines, ?_⟩)
    rw [Eff.exec_bind_of_error (exec_upsert h)]
    rfl
  · refine .inr (.inr ⟨hstores, hdeclines, .vector error, { st with ready := left, calls := st.calls ++ [[point]] }, ?_⟩)
    rw [Eff.exec_bind_of_error (exec_upsert h)]
    cases error with
    | vectorStore message => cases herror
    | httpStatus text | transport text | attributeError | codec error => rfl

theorem AsksOnce.bind {β γ : Type} {load : Load} {p : Eff MemoryState ServiceError β} {value : Bool → β}
    {settle : Bool → MemoryState → MemoryState} (h : service.AsksOnce load p value settle)
    {f : β → Eff MemoryState ServiceError γ} {value' : Bool → γ} {settle' : Bool → MemoryState → MemoryState}
    (hf : ∀ ok st, (f (value ok)).exec (settle ok st) = (.ok (value' ok), settle' ok st)) :
    service.AsksOnce load (p >>= f) value' settle' := by
  intro st
  rcases h st with ⟨hstores, h⟩ | ⟨hstores, hdeclines, h⟩ | ⟨hstores, hdeclines, error, st', h⟩
  · exact .inl ⟨hstores, (Eff.exec_bind_of_ok h).trans (hf true st)⟩
  · exact .inr (.inl ⟨hstores, hdeclines, (Eff.exec_bind_of_ok h).trans (hf false st)⟩)
  · exact .inr (.inr ⟨hstores, hdeclines, error, st', Eff.exec_bind_of_error h⟩)

def chunkAsked (service : MemoryService) (conversationId : String) (row : ChunkRow) (vector : List Json) (ok : Bool)
    (st : MemoryState) : MemoryState :=
  let st := service.asked [chunkPoint conversationId row vector] (service.load vector) st
  if ok then { st with chunks := st.chunks.mark row.id (service.now st.calls.length) } else st

theorem asksOnce_storeChunk (conversationId : String) (row : ChunkRow) (vector : List Json) :
    service.AsksOnce (service.load vector) (service.storeChunk conversationId row vector) id
      (service.chunkAsked conversationId row vector) := by
  apply (asksOnce_tryUpsert (chunkPoint conversationId row vector)).bind
  intro ok st
  cases ok with
  | true => rfl
  | false => rfl

/-! ### A pass of upserts -/

variable (service)

/-- Every upsert of a pass is stored or declined, from the given call on. -/
def Contained : ℕ → Bool → List Load → Prop
  | _, _, [] => True
  | call, ready, load :: loads =>
    ((service.answers call).stores service.collection load ready = true ∨
      (service.answers call).declines service.collection load ready = true) ∧
    Contained (call + 1) ((service.answers call).readyAfter service.collection load ready) loads

def stored : ℕ → Bool → List Load → List Bool
  | _, _, [] => []
  | call, ready, load :: loads =>
    (service.answers call).stores service.collection load ready ::
      stored (call + 1) ((service.answers call).readyAfter service.collection load ready) loads

theorem length_stored (call : ℕ) (ready : Bool) (loads : List Load) :
    (service.stored call ready loads).length = loads.length := by
  induction loads generalizing call ready with
  | nil => rfl
  | cons load loads ih => rw [stored, List.length_cons, List.length_cons, ih]

section Pass

variable {J β : Type} {load : J → Load} {body : β → J → Eff MemoryState ServiceError β} {next : β → Bool → β}
  {settle : J → Bool → MemoryState → MemoryState}

/-- A loop that asks for one upsert each time ends well exactly if all of them are stored or declined. -/
theorem exec_pass (hbody : ∀ acc job, service.AsksOnce (load job) (body acc job) (next acc) (settle job))
    (hready : ∀ job ok st, (settle job ok st).ready
      = (service.answers st.calls.length).readyAfter service.collection (load job) st.ready)
    (hcalls : ∀ job ok st, (settle job ok st).calls.length = st.calls.length + 1) (jobs : List J) (acc : β)
    (st : MemoryState) : (service.Contained st.calls.length st.ready (jobs.map load) →
      (jobs.foldlM body acc).exec st
        = (.ok ((service.stored st.calls.length st.ready (jobs.map load)).foldl next acc),
          (jobs.zip (service.stored st.calls.length st.ready (jobs.map load))).foldl
            (fun st job => settle job.1 job.2 st) st)) ∧
    (¬service.Contained st.calls.length st.ready (jobs.map load) →
      ∃ error st', (jobs.foldlM body acc).exec st = (.error error, st')) := by
  induction jobs generalizing acc st with
  | nil => exact ⟨fun _ => rfl, fun h => absurd trivial h⟩
  | cons job jobs ih =>
    simp only [List.foldlM_cons, List.map_cons, Contained, stored, List.foldl_cons, List.zip_cons_cons]
    rcases hbody acc job st with ⟨hstores, h⟩ | ⟨hstores, hdeclines, h⟩ | ⟨hstores, hdeclines, error, st', h⟩
    · have hrest := ih (next acc true) (settle job true st)
      rw [hready, hcalls] at hrest
      rw [Eff.exec_bind_of_ok h, hstores]
      exact ⟨fun hcontained => hrest.1 hcontained.2, fun hcontained => hrest.2 fun h => hcontained ⟨.inl rfl, h⟩⟩
    · have hrest := ih (next acc false) (settle job false st)
      rw [hready, hcalls] at hrest
      rw [Eff.exec_bind_of_ok h, hstores]
      exact ⟨fun hcontained => hrest.1 hcontained.2, fun hcontained => hrest.2 fun h => hcontained ⟨.inr hdeclines, h⟩⟩
    · rw [Eff.exec_bind_of_error h, hstores, hdeclines]
      exact ⟨fun hcontained => by simp at hcontained, fun _ => ⟨error, st', rfl⟩⟩

end Pass

end MemoryService

end ContextProxy
