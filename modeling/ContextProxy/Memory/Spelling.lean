import ContextProxy.Lib.Uuid
import ContextProxy.Memory.Outage
import ContextProxy.Memory.Retrieval

/-!
# Spellings of a conversation id

`uuid.UUID` reads many texts as one identifier: upper case, braces, dashes left out. The chat endpoint and the retrieval go on with the printed form. The route that creates a memory only checks that the text can be read, and the service compares it, as it was given, with the printed conversation of the superseded record and writes it to the vector index. Only the database reads it again, with the driver's own reading.

So two spellings do the same to the memories only if both are the printed form, or if the driver can read neither and nothing is stored (`spellingIrrelevant_iff`).
-/

namespace ContextProxy

open MemoryService (MemoryCreate plainService plainAnswer plainMemory)

/-! ### The routes -/

/-- How a handler ends if it does not return: with an `HTTPException`, or with an exception it does not expect. -/
inductive RouteError where
  | http (status : ℕ) (detail : String)
  | unexpected
  deriving DecidableEq, Repr

structure ErrorTexts where
  /-- `repr(text)`. -/
  repr : String → String

def parseUuid (uuid : UuidText) (texts : ErrorTexts) (value what : String) : Except RouteError String :=
  match uuid.python value with
  | some id => .ok id
  | none => .error (.http 400 ("invalid " ++ what ++ ": " ++ texts.repr value))

/-- `_memory`. -/
def memoryOf : Option MemoryService → Except RouteError MemoryService
  | some memory => .ok memory
  | none => .error (.http 503 "memory service unavailable")

/-- What a creation works on: the rows of PostgreSQL and the client of the vector index. The tables of the latter are not used. -/
structure MemoryBackend where
  store : RowSystem.Store MemoryColumns
  client : MemoryState

inductive CreateError where
  | fault (fault : MemoryFault)
  | service (error : ServiceError)

abbrev memoryTables (uuid : UuidText) := (memorySystem uuid fun call : MemoryCall => call).tables

/-- `create_memory` of the service: the transaction, and the vector once it is committed. -/
def MemoryService.createRecord (service : MemoryService) (uuid : UuidText) (spec : MemoryCreate) (memoryId : String) :
    Eff MemoryBackend CreateError String := do
  let st ← get
  match (memoryTables uuid).run (createTransaction uuid spec memoryId) st.store with
  | .error fault => throw (.fault fault)
  | .ok (_, writes) =>
    let indexed := (service.embedAndUpsert memoryId spec.content spec.conversationId spec.kind).exec st.client
    set ({ store := (memoryTables uuid).applyParts writes st.store, client := indexed.2 } : MemoryBackend)
    match indexed.1 with
    | .error error => throw (.service error)
    | .ok () => return memoryId

/-- What the route makes of an error: 404 of a `ValueError`. The driver's `DataError` is none and leaves the handler. -/
def CreateError.toRoute : CreateError → RouteError
  | .fault (.valueError message) | .service (.valueError message) => .http 404 message
  | .fault .dataError | .fault .uniqueViolation | .fault .nothingUpdated => .unexpected
  | .service .dataError | .service (.vector _) | .service .uniqueViolation | .service .indexError => .unexpected

def checkCreate (uuid : UuidText) (texts : ErrorTexts) (memory : Option MemoryService) (spec : MemoryCreate) :
    Except RouteError MemoryService := do
  let _ ← parseUuid uuid texts spec.conversationId "conversation_id"
  match spec.supersedes with
  | none => pure ()
  | some text =>
    let _ ← parseUuid uuid texts text "supersedes"
  memoryOf memory

/-- `POST /memories`, where `memoryId` is the identifier that is drawn. -/
def createMemoryRoute (uuid : UuidText) (texts : ErrorTexts) (memory : Option MemoryService) (spec : MemoryCreate)
    (memoryId : String) : Eff MemoryBackend RouteError String :=
  match checkCreate uuid texts memory spec with
  | .error error => throw error
  | .ok service => ExceptT.adapt CreateError.toRoute (service.createRecord uuid spec memoryId)

/-- The request to the vector index behind `GET /retrieval`, once the query is embedded. -/
def RetrievalService.retrievalRequest {F : Type} [Score F] (service : RetrievalService F) (texts : ErrorTexts)
    (conversationId : String) (vector : List Json) : Except RouteError VectorQuery := do
  let parsed ← parseUuid service.uuid.toUuidText texts conversationId "conversation_id"
  return service.vectorQuery parsed vector

/-! ### Which creations are accepted -/

section Accepted

variable {uuid : UuidText} {spec : MemoryCreate} {memoryId : String} {store : RowSystem.Store MemoryColumns}

theorem isOk_perform_bind {q : MemoryQuery} {answer : MemoryAnswer q} {new : Option (MemoryColumns q.key)}
    (hexec : q.exec (store q.key) = .ok (answer, new)) (f : Unit → MemoryProg Bool) :
    ((memoryTables uuid).run (q.perform >>= f) store).isOk
      = ((memoryTables uuid).run (f ())
          ((memoryTables uuid).applyParts (new.toList.map fun row => ⟨q.key, row⟩) store)).isOk := by
  have hstatement : (memoryTables uuid).exec q store = .ok (answer, new.toList.map fun row => ⟨q.key, row⟩) := by
    change (q.exec (store q.key)).map _ = _
    rw [hexec]
    rfl
  exact Tables.isOk_run_ask _ hstatement

theorem isOk_perform_bind_of_error {q : MemoryQuery} {fault : MemoryFault}
    (hexec : q.exec (store q.key) = .error fault) (f : Unit → MemoryProg Bool) :
    ((memoryTables uuid).run (q.perform >>= f) store).isOk = false := by
  have hstatement : (memoryTables uuid).exec q store = .error fault := by
    change (q.exec (store q.key)).map _ = _
    rw [hexec]
    rfl
  exact Tables.isOk_run_ask_of_error _ hstatement

theorem isOk_ensureConversation {P : Prop} (id : String) {f : Unit → MemoryProg Bool}
    (hf : ∀ store', records store' = records store → (((memoryTables uuid).run (f ()) store').isOk = true ↔ P)) :
    ((memoryTables uuid).run (MemoryQuery.perform (.ensureConversation id) >>= f) store).isOk = true ↔ P := by
  cases hold : store (.conversation id) with
  | some row =>
    have hexec : MemoryQuery.exec (.ensureConversation id) (store (.conversation id)) = .ok ((), none) := by
      rw [hold]
      rfl
    rw [isOk_perform_bind hexec]
    exact hf store rfl
  | none =>
    have hexec : MemoryQuery.exec (.ensureConversation id) (store (.conversation id)) = .ok ((), some ()) := by
      rw [hold]
      rfl
    rw [isOk_perform_bind hexec]
    apply hf
    funext id'
    have hother : MemoryKey.record id' ≠ .conversation id := by simp
    exact Function.update_of_ne hother (some ()) store

theorem isOk_lockConversation (id : String) (f : Unit → MemoryProg Bool) :
    ((memoryTables uuid).run (MemoryQuery.perform (.lockConversation id) >>= f) store).isOk
      = ((memoryTables uuid).run (f ()) store).isOk := by
  have hexec : MemoryQuery.exec (.lockConversation id) (store (.conversation id)) = .ok ((), none) := rfl
  exact isOk_perform_bind hexec f

theorem exists_exec_supersedeTarget (id successor : String) (old : Option MemoryRow) :
    ∃ out, MemoryQuery.exec (.supersedeTarget id successor) old = .ok out := by
  cases old with
  | none => exact ⟨_, rfl⟩
  | some row =>
    simp only [MemoryQuery.exec]
    split
    · exact ⟨_, rfl⟩
    · exact ⟨_, rfl⟩

theorem isOk_insertRecord (row : MemoryRow) (target : Option String) :
    ((memoryTables uuid).run (MemoryQuery.perform (.insertRecord row) >>= fun _ =>
      match target with
      | none => return true
      | some id => do
          MemoryQuery.perform (.supersedeTarget id row.id)
          return true) store).isOk = (records store row.id).isNone := by
  cases hold : records store row.id with
  | some old =>
    have hexec : MemoryQuery.exec (.insertRecord row) (store (.record row.id)) = .error .uniqueViolation := by
      rw [show store (.record row.id) = some old from hold]
      rfl
    exact isOk_perform_bind_of_error hexec _
  | none =>
    have hexec : MemoryQuery.exec (.insertRecord row) (store (.record row.id)) = .ok ((), some row) := by
      rw [show store (.record row.id) = none from hold]
      rfl
    refine (isOk_perform_bind hexec _).trans ?_
    cases target with
    | none => rfl
    | some id =>
      generalize (memoryTables uuid).applyParts _ store = store'
      obtain ⟨out, hsuperseded⟩ := exists_exec_supersedeTarget id row.id (store' (.record id))
      exact isOk_perform_bind hsuperseded fun _ => return true

/-- The record to be superseded, if one is given, is there and belongs to the conversation as it is spelled. -/
def TargetFits (uuid : UuidText) (spec : MemoryCreate) (r : Records) : Prop :=
  ∀ text, spec.target = some text →
    ∃ id row, uuid.python text = some id ∧ r id = some row ∧ row.conversationId = spec.conversationId

theorem isOk_lockedTarget {P : Prop} {f : Option String → MemoryProg Bool}
    (hf : ∀ target, ((memoryTables uuid).run (f target) store).isOk = true ↔ P) :
    ((memoryTables uuid).run (lockedTarget uuid spec >>= f) store).isOk = true ↔
      TargetFits uuid spec (records store) ∧ P := by
  rw [lockedTarget, TargetFits]
  cases htarget : spec.target with
  | none =>
    simp only [reduceCtorEq, false_implies, implies_true, true_and]
    exact hf none
  | some text =>
    simp only [Option.some.injEq, forall_eq']
    cases hpython : uuid.python text with
    | none =>
      simp only [reduceCtorEq, false_and, exists_false, iff_false]
      exact Bool.false_ne_true
    | some id =>
      simp only [Option.some.injEq, exists_and_left, exists_eq_left']
      change ((memoryTables uuid).run
        (MemoryQuery.perform (.lockTarget id text spec.conversationId) >>= fun _ => f (some id)) store).isOk = true ↔ _
      have hexec : MemoryQuery.exec (.lockTarget id text spec.conversationId) (store (.record id))
          = MemoryQuery.exec (.lockTarget id text spec.conversationId) (records store id) := rfl
      cases hold : records store id with
      | none =>
        rw [hold] at hexec
        rw [isOk_perform_bind_of_error (hexec.trans rfl)]
        simp
      | some row =>
        rw [hold] at hexec
        by_cases hsame : row.conversationId = spec.conversationId
        · have hlocked := hexec.trans (if_neg (not_not.mpr hsame))
          have hfits : ∃ row', some row = some row' ∧ row'.conversationId = spec.conversationId := ⟨row, rfl, hsame⟩
          rw [isOk_perform_bind hlocked, and_iff_right hfits]
          exact hf (some id)
        · have hrefused := hexec.trans (if_pos hsame)
          rw [isOk_perform_bind_of_error hrefused]
          simp [hsame]

/-- A creation commits exactly if the driver reads the conversation, the new identifier is not taken and the target fits. -/
theorem isOk_createTransaction : ((memoryTables uuid).run (createTransaction uuid spec memoryId) store).isOk = true ↔
      (uuid.driver spec.conversationId).isSome = true ∧ TargetFits uuid spec (records store) ∧
        records store memoryId = none := by
  rw [createTransaction]
  cases hdriver : uuid.driver spec.conversationId with
  | none =>
    simp only [Option.isSome_none, Bool.false_eq_true, false_and, iff_false]
    exact Bool.false_ne_true
  | some conversation =>
    simp only [Option.isSome_some, true_and]
    refine isOk_ensureConversation conversation fun store' hrecords => ?_
    rw [isOk_lockConversation, ← hrecords]
    refine isOk_lockedTarget fun target => ?_
    rw [← Option.isNone_iff_eq_none]
    exact Bool.eq_iff_iff.mp (isOk_insertRecord (newRecord spec memoryId conversation target) target)

end Accepted

/-! ### What is written to the index -/

/-- The `conversation_id` payloads of the points that were upserted in between. -/
def writtenConversations (before after : MemoryState) : List Json :=
  (after.calls.drop before.calls.length).flatten.map fun point => Json.get point.payload "conversation_id"

theorem writtenConversations_append {before after : MemoryState} {calls : List (List Point)}
    (h : after.calls = before.calls ++ calls) :
    writtenConversations before after = calls.flatten.map fun point => Json.get point.payload "conversation_id" := by
  rw [writtenConversations, h, List.drop_left]

namespace MemoryService

variable {service : MemoryService}

theorem calls_tryUpsert (points : List Point) (size : ℕ) (st : MemoryState) :
    ((service.tryUpsert points size).exec st).2.calls = st.calls ++ [points] := by
  obtain ⟨outcome, ready, houtcome⟩ : ∃ outcome ready, upsertPoints service.rt service.collection points size
      (service.answers st.calls.length) st.ready = (outcome, ready) := ⟨_, _, rfl⟩
  have hupsert := exec_upsert houtcome
  rw [tryUpsert, Eff.exec_tryCatch]
  cases outcome with
  | ok u =>
    rw [Eff.exec_bind_of_ok hupsert]
    rfl
  | error error =>
    rw [Eff.exec_bind_of_error hupsert]
    cases error with
    | vectorStore message | httpStatus text | transport text | attributeError | codec error => rfl

theorem calls_embedAndUpsert (memoryId text conversationId : String) (kind : MemoryKind) (st : MemoryState) :
    ∃ vector : Option (List Json), ((service.embedAndUpsert memoryId text conversationId kind).exec st).2.calls
      = st.calls ++ vector.toList.map fun vector => [memoryPoint memoryId conversationId kind vector] := by
  rw [embedAndUpsert]
  cases service.safeEmbed text with
  | error error => exact ⟨none, (List.append_nil _).symm⟩
  | ok embedded =>
    cases embedded with
    | none => exact ⟨none, (List.append_nil _).symm⟩
    | some vector =>
      refine ⟨some vector, ?_⟩
      rw [Option.toList_some, List.map_singleton, ← calls_tryUpsert _ vector.length, Eff.exec_bind]
      rcases (service.tryUpsert [memoryPoint memoryId conversationId kind vector] vector.length).exec st with
        ⟨error | ok, st'⟩
      · rfl
      · rfl

theorem writtenConversations_embedAndUpsert (memoryId text conversationId : String) (kind : MemoryKind) (st : MemoryState) :
    ∀ value ∈ writtenConversations st ((service.embedAndUpsert memoryId text conversationId kind).exec st).2,
      value = .str conversationId := by
  obtain ⟨vector, hcalls⟩ := service.calls_embedAndUpsert memoryId text conversationId kind st
  rw [writtenConversations_append hcalls]
  cases vector with
  | none => simp
  | some vector =>
    simp [memoryPoint, Json.get]

/-! ### The route -/

variable {uuid : UuidText} {spec : MemoryCreate} {memoryId : String} {st : MemoryBackend}

theorem exec_createRecord_of_error {fault : MemoryFault}
    (hrun : (memoryTables uuid).run (createTransaction uuid spec memoryId) st.store = .error fault) :
    (service.createRecord uuid spec memoryId).exec st = (.error (.fault fault), st) := by
  rw [createRecord, Eff.exec_bind_of_ok (Eff.exec_get st), hrun]
  rfl

theorem exec_createRecord_of_ok {out : Bool × List (RowSystem.RowWrite MemoryColumns)}
    (hrun : (memoryTables uuid).run (createTransaction uuid spec memoryId) st.store = .ok out) :
    (service.createRecord uuid spec memoryId).exec st =
      let indexed := (service.embedAndUpsert memoryId spec.content spec.conversationId spec.kind).exec st.client
      ((indexed.1.mapError .service).map fun _ => memoryId,
        { store := (memoryTables uuid).applyParts out.2 st.store, client := indexed.2 }) := by
  rw [createRecord, Eff.exec_bind_of_ok (Eff.exec_get st), hrun]
  dsimp only
  rw [Eff.exec_bind_of_ok (Eff.exec_set _ _)]
  cases ((service.embedAndUpsert memoryId spec.content spec.conversationId spec.kind).exec st.client).1 with
  | error error => rfl
  | ok u => rfl

end MemoryService

section Route

variable {uuid : UuidText} {texts : ErrorTexts} {memory : Option MemoryService} {spec : MemoryCreate} {memoryId : String}
  {st : MemoryBackend}

theorem exec_createMemoryRoute_of_unreadable (hdriver : uuid.driver spec.conversationId = none) :
    ∃ error, (createMemoryRoute uuid texts memory spec memoryId).exec st = (.error error, st) := by
  rw [createMemoryRoute]
  cases checkCreate uuid texts memory spec with
  | error error => exact ⟨error, rfl⟩
  | ok service =>
    have hrun : (memoryTables uuid).run (createTransaction uuid spec memoryId) st.store = .error .dataError := by
      rw [createTransaction, hdriver]
      rfl
    refine ⟨.unexpected, ?_⟩
    rw [Eff.exec_adapt, MemoryService.exec_createRecord_of_error hrun]
    rfl

theorem writtenConversations_createMemoryRoute :
    ∀ value ∈ writtenConversations st.client ((createMemoryRoute uuid texts memory spec memoryId).exec st).2.client,
      value = .str spec.conversationId := by
  have hkept : ∀ value ∈ writtenConversations st.client st.client, value = .str spec.conversationId := by
    rw [writtenConversations_append (List.append_nil _).symm]
    simp
  rw [createMemoryRoute]
  cases checkCreate uuid texts memory spec with
  | error error => exact hkept
  | ok service =>
    rw [Eff.exec_adapt]
    cases hrun : (memoryTables uuid).run (createTransaction uuid spec memoryId) st.store with
    | error fault =>
      rw [MemoryService.exec_createRecord_of_error hrun]
      exact hkept
    | ok out =>
      rw [MemoryService.exec_createRecord_of_ok hrun]
      exact MemoryService.writtenConversations_embedAndUpsert memoryId spec.content spec.conversationId spec.kind st.client

def emptyBackend : MemoryBackend where
  store := fun _ => none
  client := {
    chunks := { rows := [], ids_nodup := List.nodup_nil }
    memories := []
    conversations := []
    ready := false
    calls := [] }

theorem exec_createMemoryRoute_plain (texts : ErrorTexts) {s u : String} (hpython : uuid.python s = some u)
    (hdriver : (uuid.driver s).isSome = true) :
    let outcome := (createMemoryRoute uuid texts (some (plainService (plainAnswer 200)))
      { plainMemory with conversationId := s } "m").exec emptyBackend
    outcome.1.isOk = true ∧ writtenConversations emptyBackend.client outcome.2.client = [.str s] := by
  have haccepted : ((memoryTables uuid).run
      (createTransaction uuid { plainMemory with conversationId := s } "m") emptyBackend.store).isOk = true := by
    rw [isOk_createTransaction]
    refine ⟨hdriver, ?_, rfl⟩
    intro text htext
    cases htext
  have hcheck : checkCreate uuid texts (some (plainService (plainAnswer 200)))
      { plainMemory with conversationId := s }
        = .ok (plainService (plainAnswer 200)) := by
    simp only [checkCreate, parseUuid, hpython]
    rfl
  cases hrun : (memoryTables uuid).run
      (createTransaction uuid { plainMemory with conversationId := s } "m") emptyBackend.store with
  | error fault =>
    rw [hrun] at haccepted
    cases haccepted
  | ok out =>
    dsimp only
    rw [createMemoryRoute, hcheck]
    dsimp only
    rw [Eff.exec_adapt, MemoryService.exec_createRecord_of_ok hrun]
    exact ⟨rfl, rfl⟩

end Route

/-! ### Two spellings of one conversation -/

/-- Two creations do the same: both are accepted or none is, the rows are the same, and so are the payloads, which are the one that is filtered on. -/
structure SameCreation (filter : String) (st : MemoryBackend) (outcome outcome' : Except RouteError String × MemoryBackend) :
    Prop where
  accepted : outcome.1.isOk = outcome'.1.isOk
  stored : outcome.2.store = outcome'.2.store
  payload : writtenConversations st.client outcome.2.client = writtenConversations st.client outcome'.2.client
  filtered : ∀ value ∈ writtenConversations st.client outcome.2.client, value = .str filter

section Spellings

variable {F : Type} [Score F] {service : RetrievalService F} {s s' u : String}

/-- Whichever of two spellings is given, whatever is created and superseded, the same is done, and the retrieval looks for it. -/
def SpellingIrrelevant (service : RetrievalService F) (s s' : String) : Prop :=
  ∀ (texts : ErrorTexts) (memory : Option MemoryService) (spec : MemoryCreate) (memoryId : String) (st : MemoryBackend)
    (vector : List Json) (query : VectorQuery), service.retrievalRequest texts s vector = .ok query →
    SameCreation query.conversationId st
      ((createMemoryRoute service.uuid.toUuidText texts memory { spec with conversationId := s } memoryId).exec st)
      ((createMemoryRoute service.uuid.toUuidText texts memory { spec with conversationId := s' } memoryId).exec st)

theorem retrievalRequest_of_read (hpython : service.uuid.python s = some u) (texts : ErrorTexts) (vector : List Json) :
    service.retrievalRequest texts s vector = .ok (service.vectorQuery u vector) := by
  rw [RetrievalService.retrievalRequest, parseUuid, hpython]
  rfl

theorem spellingIrrelevant_printed (hpython : service.uuid.python u = some u) : SpellingIrrelevant service u u := by
  intro texts memory spec memoryId st vector query hquery
  rw [retrievalRequest_of_read hpython] at hquery
  cases hquery
  exact ⟨rfl, rfl, rfl, writtenConversations_createMemoryRoute⟩

theorem spellingIrrelevant_of_unreadable (hdriver : service.uuid.driver s = none) (hdriver' : service.uuid.driver s' = none) :
    SpellingIrrelevant service s s' := by
  intro texts memory spec memoryId st vector query _
  have hunreadable : ∀ text, service.uuid.driver text = none → ∃ error, (createMemoryRoute service.uuid.toUuidText texts memory
      { spec with conversationId := text } memoryId).exec st = (.error error, st) :=
    fun _ htext => exec_createMemoryRoute_of_unreadable htext
  obtain ⟨error, hrefused⟩ := hunreadable s hdriver
  obtain ⟨error', hrefused'⟩ := hunreadable s' hdriver'
  rw [hrefused, hrefused']
  refine ⟨rfl, rfl, rfl, ?_⟩
  rw [writtenConversations_append (List.append_nil _).symm]
  simp

/-- A first memory tells two spellings apart. -/
theorem SpellingIrrelevant.first_memory (h : SpellingIrrelevant service s s') (hs : service.uuid.python s = some u)
    (hs' : service.uuid.python s' = some u) : (service.uuid.driver s).isSome = (service.uuid.driver s').isSome ∧
      ((service.uuid.driver s).isSome = true → s = u ∧ s' = u) := by
  let texts : ErrorTexts := ⟨id⟩
  let up := plainService (plainAnswer 200)
  have hsame := h texts (some up) plainMemory "m" emptyBackend [] _ (retrievalRequest_of_read hs texts [])
  have haccepted : ∀ text, service.uuid.python text = some u →
      ((createMemoryRoute service.uuid.toUuidText texts (some up)
        { plainMemory with conversationId := text } "m").exec emptyBackend).1.isOk
          = (service.uuid.driver text).isSome := by
    intro text htext
    cases hdriver : service.uuid.driver text with
    | none =>
      have hrefused : ∃ error, (createMemoryRoute service.uuid.toUuidText texts (some up)
          { plainMemory with conversationId := text } "m").exec emptyBackend = (.error error, emptyBackend) :=
        exec_createMemoryRoute_of_unreadable hdriver
      obtain ⟨error, hrefused⟩ := hrefused
      rw [hrefused]
      rfl
    | some id => exact (exec_createMemoryRoute_plain texts htext (by rw [hdriver]; rfl)).1
  have hdrivers := hsame.accepted
  rw [haccepted s hs, haccepted s' hs'] at hdrivers
  refine ⟨hdrivers, fun hdriver => ?_⟩
  have hwritten := (exec_createMemoryRoute_plain texts hs hdriver).2
  have hwritten' := (exec_createMemoryRoute_plain texts hs' (hdrivers ▸ hdriver)).2
  have hpayload := hsame.payload
  rw [hwritten, hwritten'] at hpayload
  have hfiltered := hsame.filtered
  rw [hwritten] at hfiltered
  have hu : s = u := Json.str.inj (hfiltered _ List.mem_cons_self)
  have hs : s = s' := Json.str.inj (List.cons.inj hpayload).1
  exact ⟨hu, hs ▸ hu⟩

/-- Two spellings of a conversation do the same to the memories exactly if both are its printed form, or neither can be read by the driver. -/
theorem spellingIrrelevant_iff (hs : service.uuid.python s = some u) (hs' : service.uuid.python s' = some u) :
    SpellingIrrelevant service s s' ↔
      (s = u ∧ s' = u) ∨ (service.uuid.driver s = none ∧ service.uuid.driver s' = none) := by
  constructor
  · intro h
    obtain ⟨hdrivers, hprinted⟩ := h.first_memory hs hs'
    cases hdriver : service.uuid.driver s with
    | none =>
      rw [hdriver] at hdrivers
      exact .inr ⟨rfl, Option.isSome_eq_false_iff.mp hdrivers.symm |> Option.isNone_iff_eq_none.mp⟩
    | some id => exact .inl (hprinted (by rw [hdriver]; rfl))
  · rintro (⟨rfl, rfl⟩ | ⟨hdriver, hdriver'⟩)
    · exact spellingIrrelevant_printed hs
    · exact spellingIrrelevant_of_unreadable hdriver hdriver'

def validatedExplicitId (uuid : UuidText) (texts : ErrorTexts) (maxChars : ℕ) : Json → Except String String
  | .str raw =>
    if raw = "" ∨ maxChars < raw.length then
      .error ("conversation_id must be a short non-empty string (max " ++ toString maxChars ++ " characters)")
    else
      match uuid.python raw with
      | some id => .ok id
      | none => .error ("invalid conversation_id: " ++ texts.repr raw)
  | _ => .error ("conversation_id must be a short non-empty string (max " ++ toString maxChars ++ " characters)")

theorem read_of_validatedExplicitId {uuid : UuidText} {texts : ErrorTexts} {maxChars : ℕ} {raw id : String}
    (h : validatedExplicitId uuid texts maxChars (.str raw) = .ok id) : uuid.python raw = some id := by
  rw [validatedExplicitId] at h
  split at h
  · cases h
  · cases hread : uuid.python raw with
    | none =>
      rw [hread] at h
      cases h
    | some id' =>
      rw [hread] at h
      cases h
      rfl

/-- The chat endpoint passes on the printed form, so the spelling that was given there does not matter to the memories. -/
theorem spellingIrrelevant_of_validated
    (hprinted : ∀ text id, service.uuid.python text = some id →
      service.uuid.python id = some id ∧ service.uuid.driver id = some id)
    (hsame : service.uuid.python s = service.uuid.python s') {texts : ErrorTexts} {maxChars : ℕ} {id id' : String}
    (h : validatedExplicitId service.uuid.toUuidText texts maxChars (.str s) = .ok id)
    (h' : validatedExplicitId service.uuid.toUuidText texts maxChars (.str s') = .ok id') :
    service.uuid.driver id = some id ∧ SpellingIrrelevant service id id' := by
  have hread := read_of_validatedExplicitId h
  have hread' := read_of_validatedExplicitId h'
  obtain rfl : id = id' := Option.some.inj (hread.symm.trans (hsame.trans hread'))
  obtain ⟨hpython, hdriver⟩ := hprinted s id hread
  exact ⟨hdriver, spellingIrrelevant_printed hpython⟩

end Spellings

/-! ### A reader of hexadecimal digits -/

open Uuid

/-- Digits of either case, with dashes anywhere; `uuid.UUID` also takes braces around them, and the driver does not read more than 36 characters. -/
def hexReader : UuidReader where
  python := fun text => read (stripBraces text.toList)
  driver := fun text => if text.length ≤ 36 then read text.toList else none
  driver_printed := by
    intro text id h
    split at h
    · obtain ⟨-, digits, hdigits, rfl⟩ := read_eq_some h
      rw [if_pos (length_print hdigits).le, read_print hdigits]
    · cases h
  le_length := by
    intro text id h
    rw [← String.length_toList]
    exact (read_eq_some h).1.trans (length_stripBraces _)

theorem hexReader_python (text : String) : hexReader.python text = read (stripBraces text.toList) := by
  rw [hexReader]

theorem hexReader_driver (text : String) :
    hexReader.driver text = if text.length ≤ 36 then read text.toList else none := by
  rw [hexReader]

theorem hexReader_printed (text id : String) (h : hexReader.python text = some id) :
    hexReader.python id = some id ∧ hexReader.driver id = some id := by
  rw [hexReader_python] at h
  obtain ⟨-, digits, hdigits, rfl⟩ := read_eq_some h
  rw [hexReader_python, hexReader_driver, stripBraces_print, read_print hdigits,
    if_pos (length_print hdigits).le]
  exact ⟨rfl, rfl⟩

/-! ### Upper case -/

def hexRetrieval : RetrievalService ℚ := { plainRetrieval 50 (by decide) with uuid := hexReader }

def printedId : String := "c0ffee00-0000-4000-8000-0000000000aa"

def upperCaseId : String := "C0FFEE00-0000-4000-8000-0000000000AA"

theorem read_printedId : hexReader.python printedId = some printedId := by decide +kernel

theorem read_upperCaseId : hexReader.python upperCaseId = some printedId := by decide +kernel

example {texts : ErrorTexts} {id id' : String}
    (h : validatedExplicitId hexReader.toUuidText texts 128 (.str upperCaseId) = .ok id)
    (h' : validatedExplicitId hexReader.toUuidText texts 128 (.str printedId) = .ok id') : SpellingIrrelevant hexRetrieval id id' := by
  have hprinted : ∀ text id, hexRetrieval.uuid.python text = some id →
      hexRetrieval.uuid.python id = some id ∧ hexRetrieval.uuid.driver id = some id := hexReader_printed
  exact (spellingIrrelevant_of_validated hprinted (read_upperCaseId.trans read_printedId.symm) h h').2

def bracedId : String := "\x7bc0ffee00-0000-4000-8000-0000000000aa\x7d"

def bracedUpperCaseId : String := "\x7bC0FFEE00-0000-4000-8000-0000000000AA\x7d"

/-- Two spellings in braces: `uuid.UUID` reads them, the driver does not, and nothing is stored of either. -/
theorem spellingIrrelevant_iff_braced :
    bracedId ≠ bracedUpperCaseId ∧ hexRetrieval.uuid.python bracedId = hexRetrieval.uuid.python bracedUpperCaseId ∧
      SpellingIrrelevant hexRetrieval bracedId bracedUpperCaseId := by
  have hread : hexRetrieval.uuid.python bracedId = some printedId := by decide +kernel
  have hread' : hexRetrieval.uuid.python bracedUpperCaseId = some printedId := by decide +kernel
  exact ⟨by decide, hread.trans hread'.symm,
    (spellingIrrelevant_iff hread hread').mpr (.inr ⟨by decide +kernel, by decide +kernel⟩)⟩

def heldId : String := "00000000-0000-4000-8000-000000000001"

def heldBackend : MemoryBackend :=
  { emptyBackend with
    store := fun
      | .conversation _ => none
      | .record id => if id = heldId then some (newRecord plainMemory heldId printedId none) else none }

def createPlain (supersedes : Option String) (conversationId : String) : Except RouteError String × MemoryBackend :=
  (createMemoryRoute hexReader.toUuidText ⟨id⟩ (some (plainService (plainAnswer 200)))
    { plainMemory with conversationId, supersedes } "m").exec heldBackend

/-- In upper case the id of a conversation cannot supersede its memory, and a memory created with it is written where the retrieval does not look. -/
theorem upper_case_id_matters : hexReader.python upperCaseId = hexReader.python printedId ∧
    (createPlain (some heldId) printedId).1 = .ok "m" ∧
    (createPlain (some heldId) upperCaseId).1 = .error (.http 404 "supersedes target belongs to a different conversation") ∧
    (createPlain none upperCaseId).1 = .ok "m" ∧
    writtenConversations heldBackend.client (createPlain none upperCaseId).2.client = [.str upperCaseId] ∧
    (hexRetrieval.retrievalRequest ⟨id⟩ upperCaseId []).map (·.conversationId) = .ok printedId ∧
    ¬SpellingIrrelevant hexRetrieval upperCaseId printedId := by
  have hprinted : (createPlain (some heldId) printedId).1 = .ok "m" := by decide +kernel
  have hrefused : (createPlain (some heldId) upperCaseId).1
      = .error (.http 404 "supersedes target belongs to a different conversation") := by decide +kernel
  refine ⟨read_upperCaseId.trans read_printedId.symm, hprinted, hrefused, by decide +kernel, by decide +kernel,
    by decide +kernel, fun h => ?_⟩
  have hread : hexRetrieval.uuid.python upperCaseId = some printedId := read_upperCaseId
  have hsame := h ⟨id⟩ (some (plainService (plainAnswer 200)))
    { plainMemory with supersedes := some heldId } "m" heldBackend [] _ (retrievalRequest_of_read hread _ _)
  have haccepted : (createPlain (some heldId) upperCaseId).1.isOk = (createPlain (some heldId) printedId).1.isOk :=
    hsame.accepted
  rw [hprinted, hrefused] at haccepted
  cases haccepted

end ContextProxy
