import ContextProxy.Context.Plan
import ContextProxy.Lib.Ranked
import ContextProxy.Memory.Supersession

/-!
# Retrieval

`MemoryService.retrieve` merges the hits of the vector index with those of the full-text search and ranks them. What the backends answer is a parameter. Of their failures the code expects some, and goes on without the backend or raises `RetrievalError`, which the chat endpoint expects; `retrieve_degrades_iff` says which answers end as other errors.
-/

namespace ContextProxy

open Json

/-! ### Requests -/

/-- How a request ends: with a response and the text of the error its status would raise, or with an error of the transport. -/
inductive JsonAnswer where
  | response (status : ℕ) (statusError : String) (body : JsonBody)
  | transport (text : String)

inductive ProgrammingError where
  | recursionError
  | indexError
  | overflowError
  | valueError
  | python (error : PyError)
  deriving DecidableEq, Repr

/-- What a client raises: the error its callers expect (`EmbeddingProviderError` or `VectorStoreError`), or another one. -/
inductive ClientError where
  | expected (message : String)
  | programming (error : ProgrammingError)
  deriving DecidableEq, Repr

/-- A request that is checked by `raise_for_status` and whose body is then read. The clients name the two errors they expect in their own words. -/
def JsonAnswer.load (answer : JsonAnswer) (failed malformed : String) : Except ClientError Json :=
  match answer with
  | .transport text => .error (.expected (failed ++ text))
  | .response status statusError body =>
    if 200 ≤ status ∧ status < 300 then
      match body with
      | .value value => .ok value
      | .malformed text => .error (.expected (malformed ++ text))
      | .tooDeep => .error (.programming .recursionError)
    else .error (.expected (failed ++ statusError))

def expectArray (message : String) : Json → Except ClientError (List Json)
  | .arr items => .ok items
  | _ => .error (.expected message)

def expectObject (message : String) : Json → Except ClientError Fields
  | .obj fields => .ok fields
  | _ => .error (.expected message)

/-! ### The embedding endpoint -/

def embeddingOf (item : Json) : Except ClientError (List Json) := do
  let fields ← expectObject "embedding response items must carry an embedding array" item
  expectArray "embedding response items must carry an embedding array" (get fields "embedding")

/-- `embed`, as a function of what the endpoint answers. -/
def embed (answer : JsonAnswer) : Except ClientError (List (List Json)) := do
  let value ← answer.load "embedding endpoint failed: " "embedding endpoint returned malformed body: "
  let data ← expectObject "embedding response missing 'data' array" value
  let items ← expectArray "embedding response missing 'data' array" (get data "data")
  items.mapM embeddingOf

def safeEmbed (answer : JsonAnswer) : Except ProgrammingError (Option (List Json)) :=
  match embed answer with
  | .error (.expected _) => .ok none
  | .error (.programming error) => .error error
  -- `vectors[0]`
  | .ok [] => .error .indexError
  | .ok (vector :: _) => .ok (some vector)

/-! ### The vector index -/

structure VectorQuery where
  vector : List Json
  limit : ℕ
  conversationId : String

/-- `fields.get(key, default)`. -/
def getOr (fields : Fields) (key : String) (default : Json) : Json := (fields.lookup key).getD default

/-- What `search` makes of an error while its request is encoded. -/
def CodecError.ofSearch : CodecError → ClientError
  | .valueError text => .expected ("qdrant search failed: " ++ text)
  | .recursionError => .programming .recursionError

/-- `search`, as a function of what the encoding of its request comes to and of what Qdrant answers. -/
def search (request : Except CodecError Unit) (answer : JsonAnswer) : Except ClientError (List Json) := do
  request.mapError CodecError.ofSearch
  let value ← answer.load "qdrant search failed: " "qdrant search failed: "
  let result ← expectObject "qdrant search returned malformed payload" value
  expectArray "qdrant search returned malformed payload" (getOr result "result" (.arr []))

/-- The least integer that rounds to no finite float: half a unit in the last place above the greatest one. -/
def floatOverflow : ℕ := 2 ^ 1024 - 2 ^ 970

/-- What the code relies on of floats. -/
structure Floats (F : Type) [Score F] where
  /-- `float(n)`, or nothing where it raises `OverflowError`. -/
  ofInt : ℤ → Option F
  ofInt_eq_none : ∀ n, ofInt n = none ↔ floatOverflow ≤ n.natAbs
  ofInt_one : ofInt 1 = some 1
  ofRat : ℚ → F
  /-- `float(text)`, or nothing where it raises `ValueError`. -/
  ofString : String → Option F
  /-- `round(_, 6)`. -/
  round6 : F → F
  /-- `total_seconds()` of so many microseconds. -/
  totalSeconds : ℤ → F
  zero_lt_one : (0 : F) < 1

/-- Identifiers as the retrieval reads them: no text with fewer characters than a UUID has digits is one. -/
structure UuidReader extends UuidText where
  le_length : ∀ text id, python text = some id → 32 ≤ text.length

/-- The service: its settings and what it gets from its language. -/
structure RetrievalService (F : Type) [Score F] where
  rt : Runtime
  floats : Floats F
  uuid : UuidReader
  weights : Weights F
  limitDefault : ℕ
  limitDefault_pos : 0 < limitDefault
  candidatePool : ℕ
  candidatePool_pos : 0 < candidatePool
  maxEmbedChars : ℕ

/-- The embedding endpoint and Qdrant, by what they answer. -/
structure Backends where
  embeddings : List String → JsonAnswer
  search : VectorQuery → JsonAnswer

namespace RetrievalService

variable {F : Type} [Score F] (service : RetrievalService F)

/-- `text[:max_embed_chars]`. -/
def truncate (text : String) : String := String.ofList (text.toList.take service.maxEmbedChars)

/-- `float(value)`. -/
def float : Json → Except ProgrammingError F
  | .int n =>
    match service.floats.ofInt n with
    | some x => .ok x
    | none => .error .overflowError
  | .float q => .ok (service.floats.ofRat q)
  | .bool b => .ok (if b then 1 else 0)
  | .str text =>
    match service.floats.ofString text with
    | some x => .ok x
    | none => .error .valueError
  | .null | .arr _ | .obj _ => .error (.python .typeError)

/-- `str(payload.get("chunk_id") or payload.get("memory_id") or "")`. -/
def hitKey (payload : Fields) : String :=
  service.rt.str (if truthy (get payload "chunk_id") then get payload "chunk_id"
    else if truthy (get payload "memory_id") then get payload "memory_id"
    else .str "")

/-- The body of the loop over the hits. -/
def addHit (scores : List (String × F)) : Json → Except ProgrammingError (List (String × F))
  | .obj hit => do
      let payload ← (dictOr (get hit "payload")).mapError .python
      let key := service.hitKey payload
      if key = "" then return scores
      else if !has hit "score" then .error (.python .keyError)
      else do
        let score ← service.float (get hit "score")
        return Dict.set key (min 1 (max 0 score)) scores
  | _ => .error (.python .attributeError)

/-- The search and the loop over its hits. -/
def searchScores (request : Except CodecError Unit) (answer : JsonAnswer) : Except ProgrammingError (List (String × F)) :=
  match search request answer with
  | .error (.expected _) => .ok []
  | .error (.programming error) => .error error
  | .ok hits => hits.foldlM service.addHit []

def vectorQuery (conversationId : String) (vector : List Json) : VectorQuery :=
  { vector, limit := service.candidatePool, conversationId }

def semanticScores (backends : Backends) (query conversationId : String) : Except ProgrammingError (List (String × F)) := do
  match ← safeEmbed (backends.embeddings [service.truncate query]) with
  | none => return []
  | some vector =>
    service.searchScores (service.rt.encodeVector vector) (backends.search (service.vectorQuery conversationId vector))

end RetrievalService

/-! ### PostgreSQL -/

/-- A row of `memory_records`; the time is in microseconds. -/
structure StoredMemory extends MemoryRow where
  createdAt : ℤ

/-- A row of `conversation_chunks`. -/
structure StoredChunk where
  id : String
  conversationId : String
  messageIds : List String
  rawContent : String
  startSeq : Option ℤ
  endSeq : Option ℤ
  createdAt : ℤ

inductive DatabaseError where
  | postgresError (text : String)
  | interfaceError (text : String)

def DatabaseError.text : DatabaseError → String
  | .postgresError text | .interfaceError text => text

/-- What PostgreSQL answers to the four queries: the active memories and the chunks of a conversation that match a text, with their ranks, and those with given identifiers. -/
structure RetrievalStore (F : Type) where
  lexicalMemories : (conversationId query : String) → Except DatabaseError (List (StoredMemory × F))
  lexicalChunks : (conversationId query : String) → Except DatabaseError (List (StoredChunk × F))
  memoriesById : (conversationId : String) → (ids : List String) → Except DatabaseError (List StoredMemory)
  chunksById : (conversationId : String) → (ids : List String) → Except DatabaseError (List StoredChunk)

structure Recalled (F : Type) where
  itemType : ItemType
  kind : String
  content : String
  importance : ℚ
  createdAt : Option ℤ
  sourceMessageIds : List String
  rank : F
  startSeq : Option ℤ
  endSeq : Option ℤ

/-- A retrieved item as `retrieve` returns it. -/
structure ScoredItem (F : Type) extends RetrievedItem F where
  score : F
  sourceMessageIds : List String
  startSeq : Option ℤ
  endSeq : Option ℤ

/-- `TYPE_PRIORITY`, in hundredths. -/
def typePriorities : List (String × ℕ) :=
  [("decision", 90), ("constraint", 85), ("task", 70), ("bug", 70), ("episode_summary", 60), ("conversation_summary", 60),
    ("fact", 50), ("implementation", 50), ("chunk", 40), ("tool_result", 30)]

section Recalled

variable {F : Type}

def recallMemory (row : StoredMemory) (rank : F) : String × Recalled F :=
  (row.id, {
    itemType := .memory
    kind := row.kind.value
    content := row.content
    importance := row.importance
    createdAt := some row.createdAt
    sourceMessageIds := row.sourceMessageIds
    rank
    startSeq := none
    endSeq := none })

def recallChunk (row : StoredChunk) (rank : F) : String × Recalled F :=
  (row.id, {
    itemType := .chunk
    kind := "chunk"
    content := row.rawContent
    importance := 0
    createdAt := some row.createdAt
    sourceMessageIds := row.messageIds
    rank
    startSeq := row.startSeq
    endSeq := row.endSeq })

variable [Score F]

/-- The rows a query has matched, before they are cut. -/
def rankedHits (memories : List (StoredMemory × F)) (chunks : List (StoredChunk × F)) : List (String × Recalled F) :=
  ((memories.map fun hit => recallMemory hit.1 hit.2) ++ chunks.map fun hit => recallChunk hit.1 hit.2).insertionSort
    fun a b => -a.2.rank ≤ -b.2.rank

def lexicalSearch (store : RetrievalStore F) (query conversationId : String) (limit : ℕ) :
    Except DatabaseError (List (String × Recalled F)) := do
  let memories ← store.lexicalMemories conversationId query
  let chunks ← store.lexicalChunks conversationId query
  return (rankedHits memories chunks).take limit

/-- `_fetch_by_ids`; one identifier that cannot be read is enough, and nothing is fetched. -/
def fetchByIds (uuid : UuidReader) (store : RetrievalStore F) (conversationId : String) (ids : List String) :
    Except DatabaseError (List (String × Recalled F)) :=
  match ids.mapM uuid.python with
  | none => return []
  | some uuids => do
      let memories ← store.memoriesById conversationId uuids
      let chunks ← store.chunksById conversationId uuids
      return Dict.ofList ((memories.map fun row => recallMemory row 0) ++ chunks.map fun row => recallChunk row 0)

/-- `TYPE_PRIORITY.get(kind, 0.4)`. -/
def typePriority (kind : String) : F := ((typePriorities.lookup kind).getD 40 : ℕ) / (100 : ℕ)

/-- `items[:limit]`. -/
def sliceTo {α : Type} (limit : ℤ) (items : List α) : List α :=
  if 0 ≤ limit then items.take limit.toNat else items.take (items.length - limit.natAbs)

/-- The key of the final sort: `(-score, id)`. -/
def ScoredItem.sortKey (item : ScoredItem F) : F ×ₗ String := toLex (-item.score, item.id)

end Recalled

/-! ### `retrieve` -/

inductive RetrieveError where
  /-- `RetrievalError`. -/
  | retrieval (message : String)
  | programming (error : ProgrammingError)
  deriving DecidableEq, Repr

namespace RetrievalService

variable {F : Type} [Score F] (service : RetrievalService F)

def candidates (store : RetrievalStore F) (query conversationId : String) (scores : List (String × F)) :
    Except DatabaseError (F × List (String × Recalled F)) := do
  let lexical ← lexicalSearch store query conversationId service.candidatePool
  let maxRank := maxOrZero (lexical.map (·.2.rank))
  let found := Dict.ofList lexical
  let missing := (scores.map Prod.fst).filter fun key => (found.lookup key).isNone
  if missing = [] then return (maxRank, found)
  else do
    let fetched ← fetchByIds service.uuid store conversationId missing
    return (maxRank, Dict.update found fetched)

/-- The item of a candidate; one without any relevance is left out. -/
def item (conversationId : String) (now : ℤ) (scores : List (String × F)) (maxRank : F) (candidate : String × Recalled F) :
    Option (ScoredItem F) :=
  let row := candidate.2
  let sem := (scores.lookup candidate.1).getD 0
  let lex := if 0 < maxRank then row.rank / maxRank else 0
  if sem ≤ 0 ∧ lex ≤ 0 then none
  else
    let ageDays := match row.createdAt with
      | none => 0
      | some createdAt => max 0 (service.floats.totalSeconds (now - createdAt) / (86400 : ℕ))
    let kind := if row.kind = "" then "chunk" else row.kind
    let round6 := service.floats.round6
    let semantic := round6 sem
    let lexical := round6 lex
    let recency := round6 (1 / (1 + ageDays))
    let importance := round6 (service.floats.ofRat row.importance)
    let priority := typePriority kind
    let score := service.weights.semantic * semantic + service.weights.lexical * lexical + service.weights.recency * recency
      + service.weights.importance * importance + service.weights.type * priority
    some {
      itemType := row.itemType
      id := candidate.1
      conversationId
      kind
      content := row.content
      components := [("semantic", semantic), ("lexical", lexical), ("recency", recency), ("importance", importance),
        ("type_priority", priority)]
      score := round6 score
      sourceMessageIds := row.sourceMessageIds
      startSeq := row.startSeq
      endSeq := row.endSeq }

/-- `limit or limit_default`. -/
def limitOr (limit : Option ℤ) : ℤ :=
  match limit with
  | none | some 0 => service.limitDefault
  | some n => n

/-- `retrieve`, where `now` is what the clock shows. -/
def retrieve (backends : Backends) (store : RetrievalStore F) (query conversationId : String) (limit : Option ℤ) (now : ℤ) :
    Except RetrieveError (List (ScoredItem F)) := do
  let scores ← (service.semanticScores backends query conversationId).mapError .programming
  let (maxRank, found) ← (service.candidates store query conversationId scores).mapError fun error =>
    .retrieval ("lexical retrieval unavailable: " ++ error.text)
  let items := found.filterMap (service.item conversationId now scores maxRank)
  return sliceTo (service.limitOr limit) (items.insertionSort fun a b => a.sortKey ≤ b.sortKey)

/-- The retrieval step of a chat request: it goes on without items after a `RetrievalError`. -/
def retrievalStep (backends : Backends) (store : RetrievalStore F) (query conversationId : String) (now : ℤ) :
    Except ProgrammingError (List (RetrievedItem F)) :=
  if query = "" then return []
  else
    match service.retrieve backends store query conversationId none now with
    | .ok items => return items.map (·.toRetrievedItem)
    | .error (.retrieval _) => return []
    | .error (.programming error) => .error error

end RetrievalService

/-! ### Which answers are survived -/

namespace JsonAnswer

def Carries (answer : JsonAnswer) (body : JsonBody) : Prop :=
  ∃ status statusError, answer = .response status statusError body ∧ 200 ≤ status ∧ status < 300

/-- A success whose items all carry an embedding, and these are the embeddings. -/
def Embeds (answer : JsonAnswer) (vectors : List (List Json)) : Prop :=
  ∃ data items, answer.Carries (.value (.obj data)) ∧ get data "data" = .arr items ∧
    List.Forall₂ (fun item vector => ∃ fields, item = .obj fields ∧ get fields "embedding" = .arr vector) items vectors

def Lists (answer : JsonAnswer) (hits : List Json) : Prop :=
  ∃ result, answer.Carries (.value (.obj result)) ∧ getOr result "result" (.arr []) = .arr hits

variable {malformed : String}

theorem load_eq_ok {answer : JsonAnswer} {failed : String} {value : Json} :
    answer.load failed malformed = .ok value ↔ answer.Carries (.value value) := by
  cases answer with
  | transport text => simp [load, Carries]
  | response status statusError body =>
    by_cases hstatus : 200 ≤ status ∧ status < 300
    · cases body <;> simp [load, Carries, hstatus]
    · simp [load, Carries, hstatus]

theorem load_eq_programming {answer : JsonAnswer} {failed : String} {error : ProgrammingError} :
    answer.load failed malformed = .error (.programming error) ↔ answer.Carries .tooDeep ∧ error = .recursionError := by
  cases answer with
  | transport text => simp [load, Carries]
  | response status statusError body =>
    by_cases hstatus : 200 ≤ status ∧ status < 300
    · cases body <;> simp [load, Carries, hstatus, eq_comm]
    · simp [load, Carries, hstatus]

end JsonAnswer

theorem expectArray_eq_ok {message : String} {value : Json} {items : List Json} :
    expectArray message value = .ok items ↔ value = .arr items := by
  cases value <;> simp [expectArray]

theorem expectObject_eq_ok {message : String} {value : Json} {fields : Fields} :
    expectObject message value = .ok fields ↔ value = .obj fields := by
  cases value <;> simp [expectObject]

theorem expectArray_ne_programming (message : String) (value : Json) (error : ProgrammingError) :
    expectArray message value ≠ .error (.programming error) := by
  cases value <;> simp [expectArray]

theorem expectObject_ne_programming (message : String) (value : Json) (error : ProgrammingError) :
    expectObject message value ≠ .error (.programming error) := by
  cases value <;> simp [expectObject]

variable {vector : List Json} {request : Except CodecError Unit}

theorem embeddingOf_eq_ok {item : Json} :
    embeddingOf item = .ok vector ↔ ∃ fields, item = .obj fields ∧ get fields "embedding" = .arr vector := by
  simp only [embeddingOf, bind_eq_ok, expectObject_eq_ok, expectArray_eq_ok]

theorem embeddingOf_ne_programming (item : Json) (error : ProgrammingError) :
    embeddingOf item ≠ .error (.programming error) := by
  intro h
  rcases bind_eq_error.mp h with h | ⟨fields, -, h⟩
  · exact expectObject_ne_programming _ _ _ h
  · exact expectArray_ne_programming _ _ _ h

variable {answer : JsonAnswer}

theorem embed_eq_ok {vectors : List (List Json)} : embed answer = .ok vectors ↔ answer.Embeds vectors := by
  simp only [embed, bind_eq_ok, JsonAnswer.load_eq_ok, expectObject_eq_ok, expectArray_eq_ok, mapM_eq_ok, embeddingOf_eq_ok,
    JsonAnswer.Embeds]
  refine ⟨fun ⟨value, hvalue, data, hdata, items, hitems, hvectors⟩ => ?_, fun ⟨data, items, hdata, hitems, hvectors⟩ => ?_⟩
  · exact ⟨data, items, hdata ▸ hvalue, hitems, hvectors⟩
  · exact ⟨.obj data, hdata, data, rfl, items, hitems, hvectors⟩

theorem embed_eq_programming : (∃ error, embed answer = .error (.programming error)) ↔ answer.Carries .tooDeep := by
  refine ⟨fun ⟨error, h⟩ => ?_, fun h => ⟨.recursionError, bind_eq_error.mpr (.inl (JsonAnswer.load_eq_programming.mpr ⟨h, rfl⟩))⟩⟩
  rcases bind_eq_error.mp h with h | ⟨value, -, h⟩
  · exact (JsonAnswer.load_eq_programming.mp h).1
  rcases bind_eq_error.mp h with h | ⟨data, -, h⟩
  · exact absurd h (expectObject_ne_programming _ _ _)
  rcases bind_eq_error.mp h with h | ⟨items, -, h⟩
  · exact absurd h (expectArray_ne_programming _ _ _)
  · obtain ⟨item, -, hitem⟩ := exists_mem_of_mapM_eq_error h
    exact absurd hitem (embeddingOf_ne_programming _ _)

theorem search_eq_ok {hits : List Json} : search request answer = .ok hits ↔ request = .ok () ∧ answer.Lists hits := by
  simp only [search, bind_eq_ok, JsonAnswer.load_eq_ok, expectObject_eq_ok, expectArray_eq_ok, JsonAnswer.Lists]
  have hrequest : (∃ u, request.mapError CodecError.ofSearch = .ok u) ↔ request = .ok () := by
    cases request <;> simp [Except.mapError]
  refine ⟨fun ⟨u, hu, value, hvalue, result, hresult, hhits⟩ => ?_, fun ⟨hsent, result, hresult, hhits⟩ => ?_⟩
  · exact ⟨hrequest.mp ⟨u, hu⟩, result, hresult ▸ hvalue, hhits⟩
  · obtain ⟨u, hu⟩ := hrequest.mpr hsent
    exact ⟨u, hu, .obj result, hresult, result, rfl, hhits⟩

theorem search_eq_programming : (∃ error, search request answer = .error (.programming error)) ↔
      request = .error .recursionError ∨ (request = .ok () ∧ answer.Carries .tooDeep) := by
  match request with
  | .error (.valueError text) => simp [search, Except.mapError, CodecError.ofSearch, bind, Except.bind]
  | .error .recursionError => simp [search, Except.mapError, CodecError.ofSearch, bind, Except.bind]
  | .ok () =>
    simp only [reduceCtorEq, true_and, false_or]
    refine ⟨fun ⟨error, h⟩ => ?_, fun h => ⟨.recursionError, bind_eq_error.mpr (.inr ⟨(), rfl,
      bind_eq_error.mpr (.inl (JsonAnswer.load_eq_programming.mpr ⟨h, rfl⟩))⟩)⟩⟩
    rcases bind_eq_error.mp h with h | ⟨u, -, h⟩
    · cases h
    rcases bind_eq_error.mp h with h | ⟨value, -, h⟩
    · exact (JsonAnswer.load_eq_programming.mp h).1
    rcases bind_eq_error.mp h with h | ⟨data, -, h⟩
    · exact absurd h (expectObject_ne_programming _ _ _)
    · exact absurd h (expectArray_ne_programming _ _ _)

/-- An embedding fails for good only with a body that is too deep to be read, or without any vector. -/
theorem exists_safeEmbed : (∃ vector, safeEmbed answer = .ok vector) ↔ ¬answer.Carries .tooDeep ∧ ¬answer.Embeds [] := by
  rw [← embed_eq_programming, ← embed_eq_ok, safeEmbed]
  match embed answer with
  | .error (.expected message) => simp
  | .error (.programming error) => simp
  | .ok [] => simp
  | .ok (vector :: vectors) => simp

theorem safeEmbed_eq_some : safeEmbed answer = .ok (some vector) ↔ ∃ vectors, answer.Embeds (vector :: vectors) := by
  simp only [← embed_eq_ok, safeEmbed]
  match embed answer with
  | .error (.expected message) => simp
  | .error (.programming error) => simp
  | .ok [] => simp
  | .ok (vector :: vectors) => simp

/-- A hit as the interface of Qdrant describes it: an object with a numeric score and an object as its payload. -/
def WellFormedHit (hit : Json) : Prop :=
  ∃ fields payload, hit = .obj fields ∧ get fields "payload" = .obj payload ∧
    ((∃ n, get fields "score" = .int n) ∨ ∃ q, get fields "score" = .float q)

namespace RetrievalService

variable {F : Type} [Score F] {service : RetrievalService F}

/-- The score of the hit is not an integer beyond the floats, if it is used. -/
def Convertible (service : RetrievalService F) (hit : Json) : Prop :=
  ∀ fields payload n, hit = .obj fields → get fields "payload" = .obj payload → service.hitKey payload ≠ "" →
    get fields "score" = .int n → n.natAbs < floatOverflow

theorem dictOr_obj (fields : Fields) : dictOr (.obj fields) = .ok fields := by
  cases fields with
  | nil => rfl
  | cons field fields => rfl

theorem has_of_get_ne_null {fields : Fields} {key : String} (h : get fields key ≠ .null) : has fields key = true := by
  rw [has]
  cases hlookup : fields.lookup key with
  | none =>
    have hnull : get fields key = .null := congrArg (fun value => value.getD Json.null) hlookup
    exact absurd hnull h
  | some value => rfl

theorem exists_float (service : RetrievalService F) {value : Json} (h : (∃ n, value = .int n) ∨ ∃ q, value = .float q) :
    (∃ x, service.float value = .ok x) ↔ ∀ n, value = .int n → n.natAbs < floatOverflow := by
  rcases h with ⟨n, rfl⟩ | ⟨q, rfl⟩
  · have hnone := service.floats.ofInt_eq_none n
    rw [float]
    cases hn : service.floats.ofInt n with
    | none =>
      have hlarge := hnone.mp hn
      simpa using hlarge
    | some x =>
      have hsmall : ¬floatOverflow ≤ n.natAbs := fun hlarge => by simp [hnone.mpr hlarge] at hn
      simpa using hsmall
  · simp [float]

theorem exists_addHit {hit : Json} (h : WellFormedHit hit) (scores : List (String × F)) :
    (∃ scores', service.addHit scores hit = .ok scores') ↔ service.Convertible hit := by
  obtain ⟨fields, payload, rfl, hpayload, hscore⟩ := h
  have hhas : has fields "score" = true := by
    apply has_of_get_ne_null
    rcases hscore with ⟨n, hn⟩ | ⟨q, hq⟩
    · simp [hn]
    · simp [hq]
  have hread : (dictOr (get fields "payload")).mapError ProgrammingError.python = .ok payload := by
    rw [hpayload, dictOr_obj]
    rfl
  have hconvertible : service.Convertible (.obj fields) ↔
      (service.hitKey payload ≠ "" → ∀ n, get fields "score" = .int n → n.natAbs < floatOverflow) := by
    refine ⟨fun h hkey n hn => h fields payload n rfl hpayload hkey hn, fun h fields' payload' n hfields hpayload' hkey hn => ?_⟩
    cases hfields
    cases hpayload.symm.trans hpayload'
    exact h hkey n hn
  rw [hconvertible, ← exists_float service hscore]
  simp only [addHit, bind_eq_ok, hread, hhas, Except.ok.injEq, exists_eq_left', Bool.not_true, Bool.false_eq_true, if_false]
  by_cases hkey : service.hitKey payload = ""
  · simp [hkey, pure_eq_ok]
  · simp only [hkey, if_false, bind_eq_ok, pure_eq_ok, ne_eq, not_false_eq_true, forall_const]
    exact ⟨fun ⟨_, x, hx, _⟩ => ⟨x, hx⟩, fun ⟨x, hx⟩ => ⟨_, x, hx, rfl⟩⟩

theorem exists_foldlM_addHit (service : RetrievalService F) {hits : List Json} (h : ∀ hit ∈ hits, WellFormedHit hit)
    (scores : List (String × F)) :
    (∃ scores', hits.foldlM service.addHit scores = .ok scores') ↔ ∀ hit ∈ hits, service.Convertible hit := by
  induction hits generalizing scores with
  | nil => exact ⟨fun _ => List.forall_mem_nil _, fun _ => ⟨scores, rfl⟩⟩
  | cons hit hits ih =>
    rw [List.forall_mem_cons] at h
    rw [List.forall_mem_cons, ← exists_addHit h.1 scores]
    simp only [List.foldlM_cons, bind_eq_ok]
    refine ⟨fun ⟨scores'', scores', hhit, hrest⟩ => ⟨⟨scores', hhit⟩, (ih h.2 scores').mp ⟨scores'', hrest⟩⟩, ?_⟩
    intro ⟨⟨scores', hhit⟩, hrest⟩
    obtain ⟨scores'', hscores⟩ := (ih h.2 scores').mpr hrest
    exact ⟨scores'', scores', hhit, hscores⟩

/-! ### When `retrieve` degrades -/

section Degrades

variable {backends : Backends} {store : RetrievalStore F} {query c : String} {limit : Option ℤ} {now : ℤ}

/-- What the backends must not answer: a body that is nested too deeply to be read, a list of no embeddings, an embedding nested so deeply that the search for it cannot be encoded, and a score that is no float. -/
structure Answerable (service : RetrievalService F) (backends : Backends) (query conversationId : String) : Prop where
  embeddings_read : ¬(backends.embeddings [service.truncate query]).Carries .tooDeep
  embeddings_nonempty : ¬(backends.embeddings [service.truncate query]).Embeds []
  search_encodable : ∀ vector vectors, (backends.embeddings [service.truncate query]).Embeds (vector :: vectors) →
    service.rt.encodeVector vector ≠ .error .recursionError
  hits_read : ∀ vector vectors, (backends.embeddings [service.truncate query]).Embeds (vector :: vectors) →
    service.rt.encodeVector vector = .ok () →
      ¬(backends.search (service.vectorQuery conversationId vector)).Carries .tooDeep
  scores_convertible : ∀ vector vectors hits, (backends.embeddings [service.truncate query]).Embeds (vector :: vectors) →
    service.rt.encodeVector vector = .ok () →
      (backends.search (service.vectorQuery conversationId vector)).Lists hits → ∀ hit ∈ hits, service.Convertible hit

structure Scorable (service : RetrievalService F) (request : Except CodecError Unit) (answer : JsonAnswer) : Prop where
  encodable : request ≠ .error .recursionError
  read : request = .ok () → ¬answer.Carries .tooDeep
  convertible : request = .ok () → ∀ hits, answer.Lists hits → ∀ hit ∈ hits, service.Convertible hit

theorem exists_searchScores (service : RetrievalService F) (request : Except CodecError Unit) {answer : JsonAnswer}
    (hhits : ∀ hits, answer.Lists hits → ∀ hit ∈ hits, WellFormedHit hit) :
    (∃ scores, service.searchScores request answer = .ok scores) ↔ service.Scorable request answer := by
  have hscorable : service.Scorable request answer ↔
      (¬∃ error, search request answer = .error (.programming error)) ∧
        ∀ hits, search request answer = .ok hits → ∀ hit ∈ hits, service.Convertible hit := by
    simp only [search_eq_programming, search_eq_ok, not_or, not_and]
    exact ⟨fun h => ⟨⟨h.1, h.2⟩, fun hits ⟨hsent, hlists⟩ => h.3 hsent hits hlists⟩,
      fun h => ⟨h.1.1, h.1.2, fun hsent hits hlists => h.2 hits ⟨hsent, hlists⟩⟩⟩
  rw [hscorable, searchScores]
  match hsearch : search request answer with
  | .error (.expected message) => simp
  | .error (.programming error) => simp
  | .ok hits =>
    have hloop := exists_foldlM_addHit service (hhits hits (search_eq_ok.mp hsearch).2) []
    simpa using hloop

theorem exists_semanticScores
    (hhits : ∀ request hits, (backends.search request).Lists hits → ∀ hit ∈ hits, WellFormedHit hit) :
    (∃ scores, service.semanticScores backends query c = .ok scores) ↔
      service.Answerable backends query c := by
  have hanswerable : service.Answerable backends query c ↔
      (∃ vector, safeEmbed (backends.embeddings [service.truncate query]) = .ok vector) ∧
        ∀ vector, safeEmbed (backends.embeddings [service.truncate query]) = .ok (some vector) →
          service.Scorable (service.rt.encodeVector vector) (backends.search (service.vectorQuery c vector)) := by
    rw [exists_safeEmbed]
    simp only [safeEmbed_eq_some]
    constructor
    · refine fun h => ⟨⟨h.1, h.2⟩, fun vector ⟨vectors, hvector⟩ => ⟨h.3 vector vectors hvector, h.4 vector vectors hvector, ?_⟩⟩
      exact fun hsent hits => h.5 vector vectors hits hvector hsent
    · rintro ⟨⟨hread, hnonempty⟩, h⟩
      exact ⟨hread, hnonempty, fun vector vectors hvector => (h vector ⟨vectors, hvector⟩).1,
        fun vector vectors hvector => (h vector ⟨vectors, hvector⟩).2,
        fun vector vectors hits hvector hsent => (h vector ⟨vectors, hvector⟩).3 hsent hits⟩
  rw [hanswerable]
  simp only [semanticScores, bind_eq_ok]
  match safeEmbed (backends.embeddings [service.truncate query]) with
  | .error error => simp
  | .ok none => simp [pure_eq_ok]
  | .ok (some vector) =>
    have hsearch := exists_searchScores service (service.rt.encodeVector vector)
      (hhits (service.vectorQuery c vector))
    simpa using hsearch

/-- Behind the scores, `retrieve` raises nothing but `RetrievalError`. -/
theorem degrades_iff_exists_scores :
    ((∃ items, service.retrieve backends store query c limit now = .ok items) ∨
      ∃ message, service.retrieve backends store query c limit now = .error (.retrieval message)) ↔
      ∃ scores, service.semanticScores backends query c = .ok scores := by
  rw [retrieve]
  match service.semanticScores backends query c with
  | .error error => simp [Except.mapError, bind, Except.bind]
  | .ok scores =>
    match hcandidates : service.candidates store query c scores with
    | .error error => simp [Except.mapError, bind, Except.bind, hcandidates]
    | .ok (maxRank, found) => simp [Except.mapError, bind, Except.bind, hcandidates, pure, Except.pure]

theorem exists_retrievalStep
    (h : (∃ items, service.retrieve backends store query c none now = .ok items) ∨
      ∃ message, service.retrieve backends store query c none now = .error (.retrieval message)) :
    ∃ retrieved, service.retrievalStep backends store query c now = .ok retrieved := by
  rw [retrievalStep]
  split
  · exact ⟨[], rfl⟩
  · rcases h with ⟨items, hitems⟩ | ⟨message, hmessage⟩
    · rw [hitems]
      exact ⟨_, rfl⟩
    · rw [hmessage]
      exact ⟨[], rfl⟩

/-- Over well-formed hits, `retrieve` returns or raises `RetrievalError`, and the chat request goes on, exactly when no answer is one of those. PostgreSQL may answer or fail as it likes. -/
theorem retrieve_degrades_iff (service : RetrievalService F) (backends : Backends) (store : RetrievalStore F)
    (query conversationId : String) (limit : Option ℤ) (now : ℤ)
    (hhits : ∀ request hits, (backends.search request).Lists hits → ∀ hit ∈ hits, WellFormedHit hit) :
    (((∃ items, service.retrieve backends store query conversationId limit now = .ok items) ∨
        ∃ message, service.retrieve backends store query conversationId limit now = .error (.retrieval message)) ∧
      ∃ retrieved, service.retrievalStep backends store query conversationId now = .ok retrieved) ↔
      service.Answerable backends query conversationId := by
  rw [← exists_semanticScores hhits, degrades_iff_exists_scores]
  refine ⟨And.left, fun hscores => ⟨hscores, ?_⟩⟩
  exact exists_retrievalStep (degrades_iff_exists_scores.mpr hscores)

end Degrades

end RetrievalService

/-! ### An endpoint that returns no embedding -/

theorem one_lt_pow_sub_pow {m n : ℕ} (hm : 0 < m) (hmn : m < n) : 1 < 2 ^ n - 2 ^ m := by
  have hone : 1 < 2 ^ m := Nat.one_lt_two_pow hm.ne'
  have hpow : 2 ^ (m + 1) ≤ 2 ^ n := Nat.pow_le_pow_right (by decide) hmn
  rw [Nat.pow_succ] at hpow
  omega

theorem one_lt_floatOverflow : 1 < floatOverflow := one_lt_pow_sub_pow (by decide) (by decide)

def plainFloats : Floats ℚ where
  ofInt := fun n => if floatOverflow ≤ n.natAbs then none else some n
  ofInt_eq_none := fun n => by simp
  ofInt_one := if_neg (not_le.mpr one_lt_floatOverflow)
  ofRat := id
  ofString := fun _ => none
  round6 := id
  totalSeconds := fun microseconds => microseconds / 1000000
  zero_lt_one := by decide

def plainReader : UuidReader where
  python := fun text => if 32 ≤ text.length then some text else none
  driver := some
  driver_printed := plainUuid.driver_printed
  le_length := fun text id h => by
    by_contra hshort
    rw [if_neg hshort] at h
    cases h

def plainRetrieval (candidatePool : ℕ) (h : 0 < candidatePool) : RetrievalService ℚ where
  rt := plainRuntime
  floats := plainFloats
  uuid := plainReader
  weights := { semantic := 2 / 5, lexical := 1 / 4, recency := 3 / 20, importance := 3 / 20, type := 1 / 20 }
  limitDefault := 8
  limitDefault_pos := by decide
  candidatePool
  candidatePool_pos := h
  maxEmbedChars := 8000

def answering (vectors : List (List Json)) (hits : List Json) : Backends where
  embeddings := fun _ => .response 200 "" (.value (.obj [("data", .arr (vectors.map fun vector => .obj [("embedding", .arr vector)]))]))
  search := fun _ => .response 200 "" (.value (.obj [("result", .arr hits)]))

def emptyStore (F : Type) : RetrievalStore F where
  lexicalMemories := fun _ _ => .ok []
  lexicalChunks := fun _ _ => .ok []
  memoriesById := fun _ _ => .ok []
  chunksById := fun _ _ => .ok []

/-- Without an embedding, `vectors[0]` raises and the chat request is aborted. -/
theorem retrieve_of_no_embedding :
    (plainRetrieval 50 (by decide)).retrieve (answering [] []) (emptyStore ℚ) "q" "c" none 0
        = .error (.programming .indexError) ∧
      (plainRetrieval 50 (by decide)).retrievalStep (answering [] []) (emptyStore ℚ) "q" "c" 0 = .error .indexError :=
  ⟨rfl, rfl⟩

def memoryHit (id : String) : Json := .obj [("score", .int 1), ("payload", .obj [("memory_id", .str id)])]

theorem wellFormedHit_memoryHit (id : String) : WellFormedHit (memoryHit id) := ⟨_, _, rfl, rfl, .inl ⟨1, rfl⟩⟩

theorem convertible_memoryHit {F : Type} [Score F] (service : RetrievalService F) (id : String) :
    service.Convertible (memoryHit id) := by
  intro fields payload n hfields _ _ hn
  cases hfields
  cases hn
  exact one_lt_floatOverflow

/-- With one embedding and a hit it returns. -/
theorem retrieve_degrades_iff_answering :
    ((∃ items, (plainRetrieval 50 (by decide)).retrieve (answering [[.int 1]] [memoryHit "m"]) (emptyStore ℚ) "q" "c" none 0
          = .ok items) ∨
        ∃ message, (plainRetrieval 50 (by decide)).retrieve (answering [[.int 1]] [memoryHit "m"]) (emptyStore ℚ) "q" "c" none 0
          = .error (.retrieval message)) ∧
      ∃ retrieved, (plainRetrieval 50 (by decide)).retrievalStep (answering [[.int 1]] [memoryHit "m"]) (emptyStore ℚ) "q" "c" 0
        = .ok retrieved := by
  have hlists : ∀ request hits, ((answering [[.int 1]] [memoryHit "m"]).search request).Lists hits → hits = [memoryHit "m"] := by
    intro request hits ⟨result, ⟨status, text, hanswer, _⟩, hhits⟩
    cases hanswer
    cases hhits
    rfl
  apply (RetrievalService.retrieve_degrades_iff _ _ _ _ _ _ _ _).mpr
  · exact {
      embeddings_read := fun ⟨_, _, hanswer, _⟩ => by cases hanswer
      embeddings_nonempty := fun ⟨data, items, ⟨_, _, hanswer, _⟩, hitems, hnil⟩ => by
        cases hanswer
        cases hitems
        cases hnil
      search_encodable := fun _ _ _ hsent => by cases hsent
      hits_read := fun _ _ _ _ ⟨_, _, hanswer, _⟩ => by cases hanswer
      scores_convertible := fun vector vectors hits _ _ hhits hit hhit => by
        rw [hlists _ hits hhits, List.mem_singleton] at hhit
        rw [hhit]
        exact convertible_memoryHit _ _ }
  · intro request hits hhits hit hhit
    rw [hlists _ hits hhits, List.mem_singleton] at hhit
    rw [hhit]
    exact wellFormedHit_memoryHit _

end ContextProxy
