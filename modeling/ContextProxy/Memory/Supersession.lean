import ContextProxy.Lib.RowLocks
import ContextProxy.Memory.Indexing

/-!
# Supersession of memories

`create_memory` and `supersede_memory` as the statements they send, each about a single row. A creation locks its conversation and its target; a change of status locks only the record. Alone, a creation adds one record and moves its target out of the way (`created`), and a change of status touches a single active record (`relabelled`). That the history is sound (`Sound`) and only moves on (`Continues`) is shown for these two, and the row locks carry it to every interleaving.
-/

namespace ContextProxy

open MemoryService (MemoryCreate)

inductive MemoryKey where
  | conversation (id : String)
  | record (id : String)
  deriving DecidableEq

def MemoryColumns : MemoryKey → Type
  | .conversation _ => Unit
  | .record _ => MemoryRow

inductive MemoryFault where
  | valueError (message : String)
  | dataError
  | uniqueViolation
  /-- No row matches an `UPDATE`. -/
  | nothingUpdated

inductive MemoryQuery where
  | ensureConversation (id : String)
  | lockConversation (id : String)
  /-- The target `FOR UPDATE`, with the checks of `create_memory` on what it finds; `text` is the identifier as given. -/
  | lockTarget (id text conversation : String)
  | insertRecord (row : MemoryRow)
  /-- `SET status = 'superseded', superseded_by = … WHERE status <> 'superseded'`. -/
  | supersedeTarget (id successor : String)
  /-- `SET status = … WHERE status = 'active'`. -/
  | setStatus (id : String) (status : MemoryStatus)

def MemoryQuery.key : MemoryQuery → MemoryKey
  | .ensureConversation id | .lockConversation id => .conversation id
  | .lockTarget id _ _ | .supersedeTarget id _ | .setStatus id _ => .record id
  | .insertRecord row => .record row.id

/-- `supersede_memory` asks how many rows were updated. -/
def MemoryAnswer : MemoryQuery → Type
  | .setStatus .. => Bool
  | _ => Unit

def MemoryQuery.exec : (q : MemoryQuery) → Option (MemoryColumns q.key) →
    Except MemoryFault (MemoryAnswer q × Option (MemoryColumns q.key))
  | .ensureConversation _, none => .ok ((), some ())
  -- ON CONFLICT DO NOTHING
  | .ensureConversation _, some _ => .ok ((), none)
  | .lockConversation _, _ => .ok ((), none)
  | .lockTarget _ text _, none => .error (.valueError ("supersedes target " ++ text ++ " not found"))
  | .lockTarget _ _ conversation, some row =>
    if MemoryRow.conversationId row ≠ conversation then
      .error (.valueError "supersedes target belongs to a different conversation")
    else .ok ((), none)
  | .insertRecord row, none => .ok ((), some row)
  | .insertRecord _, some _ => .error .uniqueViolation
  | .supersedeTarget .., none => .ok ((), none)
  | .supersedeTarget _ successor, some row =>
    if MemoryRow.status row ≠ .superseded then
      .ok ((), some { (row : MemoryRow) with status := .superseded, supersededBy := some successor })
    else .ok ((), none)
  -- a row that is not there is not waited for
  | .setStatus .., none => .error .nothingUpdated
  | .setStatus _ status, some row =>
    if MemoryRow.status row = .active then .ok (true, some { (row : MemoryRow) with status })
    else .ok (false, none)

/-- All statements wait for the row, only a conversation that is there is not waited for by an `INSERT`. -/
def MemoryQuery.locks : (q : MemoryQuery) → Option (MemoryColumns q.key) → Bool
  | .ensureConversation _, some _ => false
  | _, _ => true

/-- How identifiers are read: `uuid.UUID(…)`, and the driver's reading of a `uuid` parameter, which leaves an identifier the database has printed as it is. -/
structure UuidText where
  python : String → Option String
  driver : String → Option String
  driver_printed : ∀ text id, driver text = some id → driver id = some id

abbrev MemoryProg := Prog MemoryAnswer MemoryFault

namespace MemoryQuery

def perform (q : MemoryQuery) : MemoryProg Unit := do
  let _ ← Prog.send q
  return ()

end MemoryQuery

/-- The check of the superseded record; the identifier of the record, if one is given. -/
def lockedTarget (uuid : UuidText) (spec : MemoryCreate) : MemoryProg (Option String) :=
  match spec.target with
  | none => return none
  | some text =>
    match uuid.python text with
    | none => Prog.raise (.valueError "badly formed hexadecimal UUID string")
    | some id => do
        MemoryQuery.perform (.lockTarget id text spec.conversationId)
        return some id

def newRecord (spec : MemoryCreate) (memoryId conversation : String) (target : Option String) : MemoryRow where
  id := memoryId
  conversationId := conversation
  kind := spec.kind
  content := spec.content
  sourceMessageIds := spec.sourceMessageIds
  importance := spec.importance
  status := .active
  supersedes := target
  supersededBy := none
  metadata := spec.metadata

/-- The transaction of `create_memory`, where `memoryId` is the identifier it draws. -/
def createTransaction (uuid : UuidText) (spec : MemoryCreate) (memoryId : String) : MemoryProg Bool :=
  match uuid.driver spec.conversationId with
  | none => Prog.raise .dataError
  | some conversation => do
      MemoryQuery.perform (.ensureConversation conversation)
      MemoryQuery.perform (.lockConversation conversation)
      let target ← lockedTarget uuid spec
      MemoryQuery.perform (.insertRecord (newRecord spec memoryId conversation target))
      match target with
      | none => return true
      | some id => do
          MemoryQuery.perform (.supersedeTarget id memoryId)
          return true

/-- `supersede_memory`; whether the record was updated. -/
def supersedeTransaction (uuid : UuidText) (memoryId : String) (status : MemoryStatus) : MemoryProg Bool :=
  match uuid.driver memoryId with
  | none => Prog.raise .dataError
  | some id => Prog.send (MemoryQuery.setStatus id status)

inductive MemoryCall where
  | createMemory (spec : MemoryCreate) (memoryId : String)
  | supersedeMemory (memoryId : String) (status : MemoryStatus)

def MemoryCall.prog (uuid : UuidText) : MemoryCall → MemoryProg Bool
  | .createMemory spec memoryId => createTransaction uuid spec memoryId
  | .supersedeMemory memoryId status => supersedeTransaction uuid memoryId status

variable {ι : Type}

def memorySystem (uuid : UuidText) (calls : ι → MemoryCall) :
    RowSystem MemoryKey MemoryColumns ι MemoryAnswer MemoryFault Bool where
  key := MemoryQuery.key
  exec := MemoryQuery.exec
  locks := MemoryQuery.locks
  unlocked := by
    intro q v a new hlocks hexec
    cases q with
    | ensureConversation id =>
      cases v with
      | none => cases hlocks
      | some row =>
        cases hexec
        exact ⟨rfl, rfl, fun _ => ⟨rfl, rfl⟩⟩
    | lockConversation | lockTarget | insertRecord | supersedeTarget | setStatus => cases hlocks
  prog := fun i => (calls i).prog uuid

/-! ### What a call does alone -/

abbrev Records := String → Option MemoryRow

def records (store : RowSystem.Store MemoryColumns) : Records := fun id => store (.record id)

/-- What becomes of a record when another one is created: the target is superseded, unless it was before. -/
def movedAside (row : MemoryRow) (id : String) (old : MemoryRow) : MemoryRow :=
  if row.supersedes = some id ∧ old.status ≠ .superseded then
    { old with status := .superseded, supersededBy := some row.id }
  else old

def created (r : Records) (row : MemoryRow) : Records := fun id =>
  if id = row.id then some row else (r id).map (movedAside row id)

/-- What becomes of a record when the status of one is changed, which only an active record takes. -/
def withStatus (id : String) (status : MemoryStatus) (id' : String) (old : MemoryRow) : MemoryRow :=
  if id' = id ∧ old.status = .active then { old with status } else old

def relabelled (r : Records) (id : String) (status : MemoryStatus) : Records := fun id' =>
  (r id').map (withStatus id status id')

section Alone

variable {uuid : UuidText} {calls : ι → MemoryCall} {r r' : Records}

variable {pre : RowSystem.Store MemoryColumns → Prop}

theorem ensures_send_memory {q : MemoryQuery} {post : MemoryAnswer q → RowSystem.Store MemoryColumns → Prop}
    (h : ∀ store, pre store → ∀ answer new, q.exec (store q.key) = .ok (answer, new) →
      post answer ((memorySystem uuid calls).under (new.toList.map fun row => ⟨q.key, row⟩) store)) :
    (memorySystem uuid calls).tables.Ensures pre (Prog.send q) post := by
  refine .send fun store hstore answer ws hexec => ?_
  change (q.exec (store q.key)).map _ = _ at hexec
  cases hq : q.exec (store q.key) with
  | error error =>
    rw [hq] at hexec
    cases hexec
  | ok out =>
    rw [hq] at hexec
    cases hexec
    exact h store hstore out.1 out.2 hq

theorem ensures_perform_memory {q : MemoryQuery} {post : RowSystem.Store MemoryColumns → Prop}
    (h : ∀ store, pre store → ∀ answer new, q.exec (store q.key) = .ok (answer, new) →
      post ((memorySystem uuid calls).under (new.toList.map fun row => ⟨q.key, row⟩) store)) :
    (memorySystem uuid calls).tables.Ensures pre (MemoryQuery.perform q) fun _ => post := by
  have hsend : (memorySystem uuid calls).tables.Ensures pre (Prog.send q) fun _ => post := ensures_send_memory h
  exact hsend.bind fun _ => .ret fun _ hstore => hstore

theorem records_write (store : RowSystem.Store MemoryColumns) (id : String) (row : MemoryRow) :
    records ((memorySystem uuid calls).under [⟨.record id, row⟩] store)
      = Function.update (records store) id (some row) := by
  funext id'
  change Function.update store (.record id) (some row) (.record id') = _
  by_cases hid : id' = id
  · subst hid
    rw [Function.update_self, Function.update_self]
    rfl
  · rw [Function.update_of_ne hid, Function.update_of_ne (by simpa using hid)]
    rfl

theorem ensures_ensureConversation (id : String) :
    (memorySystem uuid calls).tables.Ensures (fun store => records store = r)
      (MemoryQuery.perform (.ensureConversation id)) fun _ store => records store = r := by
  refine ensures_perform_memory fun store hstore answer new hexec => ?_
  rw [← hstore]
  change MemoryQuery.exec (.ensureConversation id) (store (.conversation id)) = _ at hexec
  cases hold : store (.conversation id) with
  | none =>
    rw [hold] at hexec
    cases hexec
    funext id'
    have hother : MemoryKey.record id' ≠ .conversation id := by simp
    exact Function.update_of_ne hother (some ()) store
  | some row =>
    rw [hold] at hexec
    cases hexec
    rfl

theorem ensures_lockConversation (id : String) : (memorySystem uuid calls).tables.Ensures (fun store => records store = r)
      (MemoryQuery.perform (.lockConversation id)) fun _ store => records store = r := by
  refine ensures_perform_memory fun store hstore answer new hexec => ?_
  cases hexec
  exact hstore

theorem ensures_lockTarget (id text conversation : String) :
    (memorySystem uuid calls).tables.Ensures (fun store => records store = r)
      (MemoryQuery.perform (.lockTarget id text conversation))
      fun _ store => (∃ old, r id = some old ∧ old.conversationId = conversation) ∧ records store = r := by
  refine ensures_perform_memory fun store hstore answer new hexec => ?_
  rw [← hstore]
  change MemoryQuery.exec (.lockTarget id text conversation) (store (.record id)) = _ at hexec
  cases hold : store (.record id) with
  | none =>
    rw [hold] at hexec
    cases hexec
  | some old =>
    rw [hold] at hexec
    simp only [MemoryQuery.exec] at hexec
    split at hexec
    · cases hexec
    · rename_i hsame
      cases hexec
      exact ⟨⟨old, hold, not_not.mp hsame⟩, rfl⟩

theorem ensures_lockedTarget (spec : MemoryCreate) :
    (memorySystem uuid calls).tables.Ensures (fun store => records store = r) (lockedTarget uuid spec)
      fun target store => (∀ id, target = some id → ∃ old, r id = some old ∧ old.conversationId = spec.conversationId) ∧
        records store = r := by
  rw [lockedTarget]
  split
  · refine .ret fun store hstore => ⟨?_, hstore⟩
    intro id hid
    cases hid
  · split
    · exact .raise _
    · refine (ensures_lockTarget _ _ _).bind fun _ => .ret ?_
      rintro store ⟨hold, hstore⟩
      refine ⟨?_, hstore⟩
      intro id hid
      cases hid
      exact hold

theorem ensures_insertRecord (row : MemoryRow) : (memorySystem uuid calls).tables.Ensures (fun store => records store = r)
      (MemoryQuery.perform (.insertRecord row))
      fun _ store => r row.id = none ∧ records store = Function.update r row.id (some row) := by
  refine ensures_perform_memory fun store hstore answer new hexec => ?_
  rw [← hstore]
  change MemoryQuery.exec (.insertRecord row) (store (.record row.id)) = _ at hexec
  cases hold : store (.record row.id) with
  | none =>
    rw [hold] at hexec
    cases hexec
    exact ⟨hold, records_write store row.id row⟩
  | some old =>
    rw [hold] at hexec
    cases hexec

theorem ensures_supersedeTarget (id successor : String) {old : MemoryRow} (hold : r id = some old) :
    (memorySystem uuid calls).tables.Ensures (fun store => records store = r)
      (MemoryQuery.perform (.supersedeTarget id successor))
      fun _ store => records store = if old.status ≠ .superseded then
        Function.update r id (some { old with status := .superseded, supersededBy := some successor }) else r := by
  refine ensures_perform_memory fun store hstore answer new hexec => ?_
  rw [← hstore] at hold ⊢
  change MemoryQuery.exec (.supersedeTarget id successor) (store (.record id)) = _ at hexec
  change store (.record id) = some old at hold
  rw [hold] at hexec
  simp only [MemoryQuery.exec] at hexec
  split at hexec
  · rename_i hstatus
    cases hexec
    rw [if_pos hstatus]
    exact records_write store id _
  · rename_i hstatus
    cases hexec
    rw [if_neg hstatus]
    rfl

variable {id : String} {row : MemoryRow}

theorem movedAside_of_ne (h : row.supersedes ≠ some id) : movedAside row id = fun old => old := by
  funext old
  rw [movedAside, if_neg fun hmoved => h hmoved.1]

theorem withStatus_of_ne {id' : String} (h : id' ≠ id) (status : MemoryStatus) :
    withStatus id status id' = fun old => old := by
  funext old
  rw [withStatus, if_neg fun hchanged => h hchanged.1]

theorem created_of_none (h : row.supersedes = none) : created r row = Function.update r row.id (some row) := by
  funext id
  rw [created, Function.update_apply, movedAside_of_ne (by simp [h])]
  split
  · rfl
  · exact Option.map_id_apply

theorem created_of_some {old : MemoryRow} (h : row.supersedes = some id) (hid : id ≠ row.id) (hold : r id = some old) :
    created r row = if old.status ≠ .superseded then
      Function.update (Function.update r row.id (some row)) id
        (some { old with status := .superseded, supersededBy := some row.id })
    else Function.update r row.id (some row) := by
  have hother : ∀ id', id' ≠ id → movedAside row id' = fun old => old :=
    fun id' hne => movedAside_of_ne (by simp [h, hne.symm])
  by_cases hstatus : old.status = .superseded
  · rw [if_neg (not_not.mpr hstatus)]
    funext id'
    by_cases hrow : id' = row.id
    · simp [created, hrow]
    · by_cases htarget : id' = id
      · simp [created, movedAside, htarget, hid, hold, hstatus]
      · simp [created, hrow, hother id' htarget]
  · rw [if_pos hstatus]
    funext id'
    by_cases hrow : id' = row.id
    · simp [created, hrow, hid.symm]
    · by_cases htarget : id' = id
      · simp [created, movedAside, htarget, hid, h, hold, hstatus]
      · simp [created, hrow, htarget, hother id' htarget]

/-- What a creation that commits has done to the records. -/
theorem ensures_createTransaction (spec : MemoryCreate) (memoryId : String) :
    (memorySystem uuid calls).tables.Ensures (fun store => records store = r) (createTransaction uuid spec memoryId)
      fun _ store => ∃ conversation target, uuid.driver spec.conversationId = some conversation ∧ r memoryId = none ∧
        (∀ id, target = some id → ∃ old, r id = some old ∧ old.conversationId = spec.conversationId) ∧
        records store = created r (newRecord spec memoryId conversation target) := by
  rw [createTransaction]
  split
  · exact .raise _
  · rename_i conversation hconversation
    refine (ensures_ensureConversation conversation).bind fun _ => (ensures_lockConversation conversation).bind fun _ => ?_
    refine (ensures_lockedTarget spec).bind fun target => .of_and fun htarget => ?_
    refine (ensures_insertRecord (newRecord spec memoryId conversation target)).bind fun _ => .of_and fun hnew => ?_
    have hdone : ∀ store, records store = created r (newRecord spec memoryId conversation target) →
        ∃ conversation target, uuid.driver spec.conversationId = some conversation ∧ r memoryId = none ∧
          (∀ id, target = some id → ∃ old, r id = some old ∧ old.conversationId = spec.conversationId) ∧
          records store = created r (newRecord spec memoryId conversation target) :=
      fun store hstore => ⟨conversation, target, hconversation, hnew, htarget, hstore⟩
    cases target with
    | none => exact .ret fun store hstore => hdone store (hstore.trans (created_of_none rfl).symm)
    | some id =>
      obtain ⟨old, hold, -⟩ := htarget id rfl
      have hid : id ≠ memoryId := by
        rintro rfl
        rw [show r id = none from hnew] at hold
        cases hold
      have hinserted : Function.update r memoryId (some (newRecord spec memoryId conversation (some id))) id = some old :=
        (Function.update_of_ne hid _ _).trans hold
      refine (ensures_supersedeTarget id memoryId hinserted).bind fun _ => .ret fun store hstore => ?_
      have hcreated : created r (newRecord spec memoryId conversation (some id)) = _ := created_of_some rfl hid hold
      exact hdone store (hstore.trans hcreated.symm)

theorem ensures_supersedeTransaction (memoryId : String) (status : MemoryStatus) :
    (memorySystem uuid calls).tables.Ensures (fun store => records store = r)
      (supersedeTransaction uuid memoryId status) fun _ store => ∃ id, records store = relabelled r id status := by
  rw [supersedeTransaction]
  split
  · exact .raise _
  · rename_i id _
    refine ensures_send_memory fun store hstore answer new hexec => ⟨id, ?_⟩
    rw [← hstore]
    change MemoryQuery.exec (.setStatus id status) (records store id) = _ at hexec
    cases hrecord : records store id with
    | none =>
      rw [hrecord] at hexec
      cases hexec
    | some old =>
      rw [hrecord] at hexec
      simp only [MemoryQuery.exec] at hexec
      split at hexec
      · rename_i hactive
        cases hexec
        refine (records_write store id _).trans ?_
        funext id'
        by_cases hid : id' = id
        · subst hid
          simp [relabelled, withStatus, hrecord, hactive]
        · simp [relabelled, hid, withStatus_of_ne hid]
      · rename_i hactive
        cases hexec
        funext id'
        change records store id' = _
        by_cases hid : id' = id
        · subst hid
          simp [relabelled, withStatus, hrecord, hactive]
        · simp [relabelled, withStatus_of_ne hid]

end Alone

/-! ### A sound history -/

/-- What a record may become: its status and its successor change, nothing else. It does not become active again, and a successor stays. -/
structure MemoryRow.Continues (old new : MemoryRow) : Prop where
  same : new = { old with status := new.status, supersededBy := new.supersededBy }
  status : old.status ≠ .active → new.status ≠ .active
  successor : ∀ n, old.supersededBy = some n → new.supersededBy = some n

theorem MemoryRow.Continues.refl (row : MemoryRow) : row.Continues row :=
  ⟨rfl, fun h => h, fun _ h => h⟩

theorem MemoryRow.Continues.trans {a b c : MemoryRow} (h : a.Continues b) (h' : b.Continues c) : a.Continues c where
  same := by
    rw [h'.same, h.same]
  status := fun hstatus => h'.status (h.status hstatus)
  successor := fun n hn => h'.successor n (h.successor n hn)

def Kept (r r' : Records) : Prop := ∀ id old, r id = some old → ∃ new, r' id = some new ∧ old.Continues new

def Supersedes (r : Records) (n t : String) : Prop := ∃ row, r n = some row ∧ row.supersedes = some t

structure Sound (uuid : UuidText) (r : Records) : Prop where
  printed : ∀ id row, r id = some row → uuid.driver row.conversationId = some row.conversationId
  target : ∀ n row t, r n = some row → row.supersedes = some t →
    ∃ target, r t = some target ∧ target.conversationId = row.conversationId ∧ target.status ≠ .active
  successor : ∀ t row n, r t = some row → row.supersededBy = some n → row.status = .superseded ∧
    ∃ newer, r n = some newer ∧ newer.supersedes = some t ∧ newer.conversationId = row.conversationId
  /-- Superseded records come first. -/
  order : ∃ rank : String → ℕ, ∀ n t, Supersedes r n t → rank t < rank n

variable {uuid : UuidText} {r r' : Records}

theorem Sound.acyclic (h : Sound uuid r) (id : String) : ¬Relation.TransGen (Supersedes r) id id := by
  obtain ⟨rank, hrank⟩ := h.order
  have hlt : ∀ n t, Relation.TransGen (Supersedes r) n t → rank t < rank n := by
    intro n t hpath
    induction hpath with
    | single hedge => exact hrank _ _ hedge
    | tail _ hedge ih => exact (hrank _ _ hedge).trans ih
  exact fun hcycle => Nat.lt_irrefl _ (hlt id id hcycle)

/-! ### Creations -/

section Created

variable {row old : MemoryRow} {id : String}

theorem created_self : created r row row.id = some row := if_pos rfl

theorem created_of_mem (hnew : r row.id = none) (hold : r id = some old) : created r row id = some (movedAside row id old) := by
  have hid : id ≠ row.id := by
    rintro rfl
    rw [hnew] at hold
    cases hold
  rw [created, if_neg hid, hold, Option.map_some]

theorem eq_or_of_created {new : MemoryRow} (h : created r row id = some new) :
    id = row.id ∧ new = row ∨ ∃ old, r id = some old ∧ new = movedAside row id old := by
  rw [created] at h
  split at h
  · rename_i hid
    exact .inl ⟨hid, (Option.some.inj h).symm⟩
  · obtain ⟨old, hold, hnew⟩ := Option.map_eq_some_iff.mp h
    exact .inr ⟨old, hold, hnew.symm⟩

theorem movedAside_same : movedAside row id old
    = { old with status := (movedAside row id old).status, supersededBy := (movedAside row id old).supersededBy } := by
  rw [movedAside]
  split <;> rfl

theorem movedAside_conversationId : (movedAside row id old).conversationId = old.conversationId := by
  rw [movedAside_same]

theorem movedAside_supersedes : (movedAside row id old).supersedes = old.supersedes := by
  rw [movedAside_same]

theorem movedAside_not_active (h : old.status ≠ .active ∨ row.supersedes = some id) :
    (movedAside row id old).status ≠ .active := by
  rw [movedAside]
  split
  · simp
  · rename_i hkept
    rcases h with hstatus | htarget
    · exact hstatus
    · have hstatus : old.status = .superseded := by simpa [htarget] using hkept
      rw [hstatus]
      simp

/-- A record is moved aside at most once: it is superseded from then on. -/
theorem movedAside_continues (hold : ∀ n, old.supersededBy = some n → old.status = .superseded) :
    old.Continues (movedAside row id old) where
  same := movedAside_same
  status := fun hstatus => movedAside_not_active (.inl hstatus)
  successor := by
    intro n hn
    rw [movedAside, if_neg fun hmoved => hmoved.2 (hold n hn)]
    exact hn

/-- A new record of the conversation of its target, if it has one. -/
structure FitsHistory (uuid : UuidText) (r : Records) (row : MemoryRow) : Prop where
  fresh : r row.id = none
  printed : uuid.driver row.conversationId = some row.conversationId
  target : ∀ t, row.supersedes = some t → ∃ old, r t = some old ∧ old.conversationId = row.conversationId
  active : row.status = .active
  successor : row.supersededBy = none

theorem Sound.kept_created (h : Sound uuid r) (hrow : FitsHistory uuid r row) : Kept r (created r row) := by
  intro id old hold
  exact ⟨_, created_of_mem hrow.fresh hold, movedAside_continues fun n hn => (h.successor id old n hold hn).1⟩

theorem Sound.created (h : Sound uuid r) (hrow : FitsHistory uuid r row) : Sound uuid (created r row) where
  printed := by
    intro id new hnew
    rcases eq_or_of_created hnew with ⟨-, rfl⟩ | ⟨old, hold, rfl⟩
    · exact hrow.printed
    · rw [movedAside_conversationId]
      exact h.printed id old hold
  target := by
    intro n new t hnew hsupersedes
    rcases eq_or_of_created hnew with ⟨-, rfl⟩ | ⟨old, hold, rfl⟩
    · obtain ⟨old, hold, hconversation⟩ := hrow.target t hsupersedes
      exact ⟨_, created_of_mem hrow.fresh hold, movedAside_conversationId.trans hconversation,
        movedAside_not_active (.inr hsupersedes)⟩
    · rw [movedAside_supersedes] at hsupersedes
      obtain ⟨target, htarget, hconversation, hstatus⟩ := h.target n old t hold hsupersedes
      refine ⟨_, created_of_mem hrow.fresh htarget, ?_, movedAside_not_active (.inl hstatus)⟩
      rw [movedAside_conversationId, movedAside_conversationId, hconversation]
  successor := by
    intro t new n hnew hsuccessor
    rcases eq_or_of_created hnew with ⟨-, rfl⟩ | ⟨old, hold, rfl⟩
    · rw [hrow.successor] at hsuccessor
      cases hsuccessor
    · rw [movedAside] at hsuccessor ⊢
      split at hsuccessor
      · -- superseded by the new record
        rename_i hmoved
        obtain rfl := Option.some.inj hsuccessor
        obtain ⟨old', hold', hconversation⟩ := hrow.target t hmoved.1
        obtain rfl := Option.some.inj (hold.symm.trans hold')
        rw [if_pos hmoved]
        exact ⟨rfl, row, created_self, hmoved.1, hconversation.symm⟩
      · rename_i hkept
        rw [if_neg hkept]
        obtain ⟨hstatus, newer, hnewer, hsupersedes, hconversation⟩ := h.successor t old n hold hsuccessor
        refine ⟨hstatus, _, created_of_mem hrow.fresh hnewer, ?_, ?_⟩
        · rw [movedAside_supersedes, hsupersedes]
        · rw [movedAside_conversationId, hconversation]
  order := by
    obtain ⟨rank, hrank⟩ := h.order
    -- the new record comes after its target, and nothing supersedes it yet
    refine ⟨fun id => if id = row.id then (row.supersedes.elim 0 rank) + 1 else rank id, ?_⟩
    rintro n t ⟨new, hnew, hsupersedes⟩
    have hold_ne : ∀ id old, r id = some old → id ≠ row.id := by
      rintro id old hold rfl
      rw [hrow.fresh] at hold
      cases hold
    rcases eq_or_of_created hnew with ⟨rfl, rfl⟩ | ⟨old, hold, rfl⟩
    · obtain ⟨old, hold, -⟩ := hrow.target t hsupersedes
      beta_reduce
      rw [if_neg (hold_ne t old hold), if_pos rfl, hsupersedes]
      exact Nat.lt_succ_self _
    · rw [movedAside_supersedes] at hsupersedes
      obtain ⟨target, htarget, -⟩ := h.target n old t hold hsupersedes
      beta_reduce
      rw [if_neg (hold_ne t target htarget), if_neg (hold_ne n old hold)]
      exact hrank n t ⟨old, hold, hsupersedes⟩

end Created

/-! ### Changes of status -/

section Relabelled

variable {old : MemoryRow} {id id' : String} {status : MemoryStatus}

theorem withStatus_same : withStatus id status id' old = { old with status := (withStatus id status id' old).status } := by
  rw [withStatus]
  split <;> rfl

theorem withStatus_of_not_active (h : old.status ≠ .active) : withStatus id status id' old = old := by
  rw [withStatus, if_neg fun hchanged => h hchanged.2]

theorem withStatus_continues : old.Continues (withStatus id status id' old) where
  same := by
    rw [withStatus]
    split <;> rfl
  status := by
    intro hstatus
    rw [withStatus_of_not_active hstatus]
    exact hstatus
  successor := by
    intro n hn
    rw [withStatus_same]
    exact hn

theorem kept_relabelled : Kept r (relabelled r id status) := by
  intro id' old hold
  exact ⟨_, by rw [relabelled, hold, Option.map_some], withStatus_continues⟩

theorem relabelled_of_not_active (hold : r id' = some old) (h : old.status ≠ .active) :
    relabelled r id status id' = some old := by
  rw [relabelled, hold, Option.map_some, withStatus_of_not_active h]

theorem Sound.relabelled (h : Sound uuid r) : Sound uuid (relabelled r id status) where
  printed := by
    intro id' new hnew
    obtain ⟨old, hold, rfl⟩ := Option.map_eq_some_iff.mp hnew
    rw [withStatus_same]
    exact h.printed id' old hold
  target := by
    intro n new t hnew hsupersedes
    obtain ⟨old, hold, rfl⟩ := Option.map_eq_some_iff.mp hnew
    rw [withStatus_same] at hsupersedes ⊢
    -- a target is not active, so no change of status reaches it
    obtain ⟨target, htarget, hconversation, hstatus⟩ := h.target n old t hold hsupersedes
    exact ⟨target, relabelled_of_not_active htarget hstatus, hconversation, hstatus⟩
  successor := by
    intro t new n hnew hsuccessor
    obtain ⟨old, hold, rfl⟩ := Option.map_eq_some_iff.mp hnew
    have hsuccessor' : old.supersededBy = some n := by
      rw [withStatus_same] at hsuccessor
      exact hsuccessor
    obtain ⟨hstatus, newer, hnewer, hsupersedes, hconversation⟩ := h.successor t old n hold hsuccessor'
    rw [withStatus_of_not_active (by simp [hstatus])]
    refine ⟨hstatus, _, by rw [ContextProxy.relabelled, hnewer, Option.map_some], ?_, ?_⟩
    · rw [withStatus_same]
      exact hsupersedes
    · rw [withStatus_same]
      exact hconversation
  order := by
    obtain ⟨rank, hrank⟩ := h.order
    refine ⟨rank, ?_⟩
    rintro n t ⟨new, hnew, hsupersedes⟩
    obtain ⟨old, hold, rfl⟩ := Option.map_eq_some_iff.mp hnew
    rw [withStatus_same] at hsupersedes
    exact hrank n t ⟨old, hold, hsupersedes⟩

end Relabelled

/-! ### Interleaved calls -/

section Reachable

variable {calls : ι → MemoryCall} {db : RowSystem.Store MemoryColumns}
  {w : World MemoryKey (RowSystem.Store MemoryColumns) ι (RowSystem.RowWrite MemoryColumns) MemoryAnswer MemoryFault Bool}

/-- A call that commits has kept all records and left a sound history. -/
theorem ensures_sound (call : MemoryCall) (r : Records) :
    (memorySystem uuid calls).tables.Ensures (fun store => Sound uuid (records store) ∧ records store = r) (call.prog uuid)
      fun _ store => Sound uuid (records store) ∧ Kept r (records store) := by
  rintro store ⟨hsound, rfl⟩ result ws hrun
  cases call with
  | createMemory spec memoryId =>
    obtain ⟨conversation, target, hconversation, hfresh, htarget, hrecords⟩ :=
      ensures_createTransaction spec memoryId store rfl result ws hrun
    have hfits : FitsHistory uuid (records store) (newRecord spec memoryId conversation target) := by
      refine ⟨hfresh, uuid.driver_printed _ _ hconversation, fun t ht => ?_, rfl, rfl⟩
      obtain ⟨old, hold, hsame⟩ := htarget t ht
      -- the conversation of the target is printed as it is given, so the driver reads it as itself
      have hprinted := hsound.printed t old hold
      rw [hsame, hconversation] at hprinted
      exact ⟨old, hold, hsame.trans (Option.some.inj hprinted).symm⟩
    rw [hrecords]
    exact ⟨hsound.created hfits, hsound.kept_created hfits⟩
  | supersedeMemory memoryId status =>
    obtain ⟨id, hrecords⟩ := ensures_supersedeTransaction memoryId status store rfl result ws hrun
    rw [hrecords]
    exact ⟨hsound.relabelled, kept_relabelled⟩

theorem sound_empty (hdb : ∀ id, db (.record id) = none) : Sound uuid (records db) := by
  have hnone : ∀ id row, records db id ≠ some row := by
    intro id row hrow
    rw [records, hdb id] at hrow
    cases hrow
  refine ⟨?_, ?_, ?_, fun _ => 0, ?_⟩
  · exact fun id row hrow => absurd hrow (hnone id row)
  · exact fun n row t hrow => absurd hrow (hnone n row)
  · exact fun t row n hrow => absurd hrow (hnone t row)
  · rintro n t ⟨row, hrow, -⟩
    exact absurd hrow (hnone n row)

theorem ensures_sound_prog (i : ι) : (memorySystem uuid calls).tables.Ensures (fun store => Sound uuid (records store))
    ((memorySystem uuid calls).prog i) fun _ store => Sound uuid (records store) := by
  intro store hsound result ws hrun
  exact (ensures_sound (calls i) (records store) store ⟨hsound, rfl⟩ result ws hrun).1

variable [DecidableEq ι]

theorem sound_of_steps (hdb : ∀ id, db (.record id) = none)
    (h : (memorySystem uuid calls).Steps ((memorySystem uuid calls).init db) w) : Sound uuid (records w.store) :=
  RowSystem.store_invariant ensures_sound_prog h (sound_empty hdb)

theorem kept_of_steps (hdb : ∀ id, db (.record id) = none)
    (h : (memorySystem uuid calls).Steps ((memorySystem uuid calls).init db) w)
    {w' : World MemoryKey (RowSystem.Store MemoryColumns) ι (RowSystem.RowWrite MemoryColumns) MemoryAnswer MemoryFault Bool}
    (hsteps : (memorySystem uuid calls).Steps w w') : Kept (records w.store) (records w'.store) := by
  refine RowSystem.store_rel (r := fun s s' => Kept (records s) (records s')) ?_ ?_ ensures_sound_prog ?_
    (sound_empty hdb) h hsteps
  · exact fun s id old hold => ⟨old, hold, .refl old⟩
  · intro s s' s'' hkept hkept' id old hold
    obtain ⟨mid, hmid, hcontinues⟩ := hkept id old hold
    obtain ⟨new, hnew, hcontinues'⟩ := hkept' id mid hmid
    exact ⟨new, hnew, hcontinues.trans hcontinues'⟩
  · rintro i s store ⟨hsound, rfl⟩ result ws hrun
    exact (ensures_sound (calls i) (records store) store ⟨hsound, rfl⟩ result ws hrun).2

/-- Supersession is a one-way history, for any interleaving of creations and changes of status. No record is deleted or becomes active again, and a successor stays. A successor is of the same conversation, supersedes this record and leaves it with the status superseded. No record supersedes itself over any number of steps. A call that is rejected has not changed anything. -/
theorem supersession_sound (hdb : ∀ id, db (.record id) = none)
    (h : (memorySystem uuid calls).Steps ((memorySystem uuid calls).init db) w) :
    (∀ w', (memorySystem uuid calls).Steps w w' → ∀ id old, records w.store id = some old →
        ∃ new, records w'.store id = some new ∧ old.Continues new) ∧
      (∀ t row n, records w.store t = some row → row.supersededBy = some n → row.status = .superseded ∧
        ∃ newer, records w.store n = some newer ∧ newer.supersedes = some t ∧ newer.conversationId = row.conversationId) ∧
      (∀ n row t, records w.store n = some row → row.supersedes = some t → ∃ target, records w.store t = some target ∧
        target.conversationId = row.conversationId ∧ target.status ≠ .active) ∧
      (∀ id, ¬Relation.TransGen (Supersedes (records w.store)) id id) ∧
      ∀ i message u u', w.proc i = .aborted (some (.valueError message)) →
        (memorySystem uuid calls).Steps ((memorySystem uuid calls).init db) u → (memorySystem uuid calls).Step i u u' →
          (memorySystem uuid calls).Steps u' w → u'.store = u.store := by
  have hsound := sound_of_steps hdb h
  refine ⟨fun w' hsteps => kept_of_steps hdb h hsteps, hsound.successor, hsound.target, hsound.acyclic, ?_⟩
  intro i message u u' hrejected hu hstep hsteps
  exact hstep.store_of_aborted hsteps hrejected

end Reachable

def plainUuid : UuidText := ⟨some, some, fun _ _ _ => rfl⟩

def twoMemories : Bool → MemoryCall
  | false => .createMemory { kind := .fact, content := "A", conversationId := "c" } "m"
  | true => .createMemory { kind := .fact, content := "B", conversationId := "c", supersedes := some "m" } "n"

/-- Both are created, statement by statement. -/
theorem supersession_sound_twoMemories : ∃ w,
    (memorySystem plainUuid twoMemories).Steps ((memorySystem plainUuid twoMemories).init fun _ => none) w ∧
      (records w.store "m").map (fun row => (row.status, row.supersededBy)) = some (.superseded, some "n") ∧
      ∀ t row n, records w.store t = some row → row.supersededBy = some n → row.status = .superseded ∧
        ∃ newer, records w.store n = some newer ∧ newer.supersedes = some t ∧ newer.conversationId = row.conversationId := by
  have hinit : (memorySystem plainUuid twoMemories).Steps ((memorySystem plainUuid twoMemories).init fun _ => none) _ := .refl
  have hensure := hinit.tail ⟨false, .statement rfl (fun _ => .inl rfl) rfl⟩
  have hlock := hensure.tail ⟨false, .statement rfl (fun _ => .inr rfl) rfl⟩
  have hinsert := hlock.tail ⟨false, .statement rfl (fun _ => .inl rfl) rfl⟩
  have hfirst := hinsert.tail ⟨false, .commit rfl⟩
  have hensure' := hfirst.tail ⟨true, .statement rfl (fun _ => .inl rfl) rfl⟩
  have hlock' := hensure'.tail ⟨true, .statement rfl (fun _ => .inl rfl) rfl⟩
  have htarget := hlock'.tail ⟨true, .statement rfl (fun _ => .inl rfl) rfl⟩
  have hinsert' := htarget.tail ⟨true, .statement rfl (fun _ => .inl rfl) rfl⟩
  have hsupersede := hinsert'.tail ⟨true, .statement rfl (fun _ => .inr rfl) rfl⟩
  have hsecond := hsupersede.tail ⟨true, .commit rfl⟩
  exact ⟨_, hsecond, rfl, (supersession_sound (fun _ => rfl) hsecond).2.1⟩

end ContextProxy
