import ContextProxy.Api.Degraded
import ContextProxy.Conversation.Session
import ContextProxy.Lib.Crowd
import ContextProxy.Store.Serial

/-!
# Many requests at once

Any number of requests are handled at once and share the store. A call of the store is one step, as its transaction is, and may fail before it commits or after. All else the outside answers as it likes. Whatever the order, what is stored stays, and what a conversation holds was sent under it or is the reply to such a request (`stored_messages_have_origin`).
-/

namespace ContextProxy

open Json Prog List

/-! ### The store -/

/-- A failure of the store that its code does not raise on purpose, and whether the transaction has committed by then. -/
inductive StoreFault where
  | infrastructure (text : String) (committed : Bool)
  | exception (text : String) (committed : Bool)
  | baseException (text : String) (committed : Bool)

def StoreFault.failure : StoreFault → StoreFailure
  | .infrastructure text _ => .infrastructure text
  | .exception text _ => .exception text
  | .baseException text _ => .baseException text

def StoreFault.committed : StoreFault → Bool
  | .infrastructure _ committed | .exception _ committed | .baseException _ committed => committed

def asMessages : List Json → Option (List Message)
  | [] => some []
  | .obj message :: items => (asMessages items).map (message :: ·)
  | _ :: _ => none

/-- `reconcile_history` on the log of its conversation; `text` is that of the error it raises itself. -/
def reconcileLog (fault : Option StoreFault) (text : String) (log : List Message) (items : List Json) :
    Except StoreFailure Unit × List Message :=
  match asMessages items with
  | none => (.error ((fault.map StoreFault.failure).getD (.exception text)), log)
  | some incoming =>
    let conflict := (reconcileProjection log incoming).mode = .conflict
    match fault with
    | none =>
      if conflict then (.error (.divergence (shorterLength log incoming) text), log) else (.ok (), applied log incoming)
    | some fault => (.error fault.failure, if fault.committed ∧ ¬conflict then applied log incoming else log)

structure Reaction (F : Type) where
  answers : ∀ call, ChatAnswer F call
  fault : Option StoreFault
  text : String

abbrev Logs := String → List Message

def respond {F : Type} (reaction : Reaction F) (logs : Logs) : (call : ChatCall) → ChatAnswer F call × Logs
  | .ensureConversation _ =>
    (match reaction.fault with
      | none => .ok ()
      | some fault => .error fault.failure, logs)
  | .reconcileHistory conversationId items _ =>
    let (answer, log) := reconcileLog reaction.fault reaction.text (logs conversationId) items
    (answer, Function.update logs conversationId log)
  | call => (reaction.answers call, logs)

theorem asMessages_concat (messages : List Message) (item : Json) :
    asMessages (messages.map .obj ++ [item]) = (asMessages [item]).map (messages ++ ·) := by
  induction messages with
  | nil => simp
  | cons message messages ih =>
    rw [map_cons, cons_append, asMessages, ih, Option.map_map]
    rfl

theorem asMessages_map_obj (messages : List Message) : asMessages (messages.map .obj) = some messages := by
  induction messages with
  | nil => rfl
  | cons message messages ih => rw [map_cons, asMessages, ih, Option.map_some]

variable {messages : List Message}

theorem mem_of_asMessages {items : List Json} (h : asMessages items = some messages) {message : Message}
    (hmessage : message ∈ messages) : .obj message ∈ items := by
  induction items generalizing messages with
  | nil =>
    obtain rfl := Option.some.inj h
    simp at hmessage
  | cons item items ih =>
    cases item with
    | obj first =>
      obtain ⟨rest, hrest, rfl⟩ := Option.map_eq_some_iff.mp h
      rcases mem_cons.mp hmessage with rfl | hmessage
      · exact mem_cons_self
      · exact mem_cons_of_mem _ (ih hrest hmessage)
    | _ => cases h

/-- A transaction of the store that commits does to the log what is said here. -/
theorem reconcileLog_of_run {rt : Runtime} {conversation : ConversationId} {metadata : Option Fields} {draws : Draws}
    {rows : Rows} (hrows : Contiguous rows.messages) {result : List RowId} {ws : List Write}
    (hrun : storeTables.run ((Call.reconcileProjectionAware conversation messages metadata draws).prog rt) rows = .ok (result, ws))
    (text : String) :
    reconcileLog none text rows.log (messages.map .obj) = (.ok (), (storeTables.applyParts ws rows).log) := by
  have hmode : ¬(reconcileProjection rows.log messages).mode = .conflict := by
    intro hconflict
    have herror := run_reconcileHistory_of_conflict shorterLength rt draws conversation metadata hconflict
    cases hrun.symm.trans herror
  have hlog := (run_extended rt _ hrows hrun).log
  rw [← hrows.log] at hlog
  rw [reconcileLog, asMessages_map_obj]
  simp only [hmode, if_false]
  rw [hlog]
  rfl

theorem reconcileLog_of_conflict {log : List Message} (h : (reconcileProjection log messages).mode = .conflict)
    (text : String) :
    reconcileLog none text log (messages.map .obj) = (.error (.divergence (shorterLength log messages) text), log) := by
  rw [reconcileLog, asMessages_map_obj]
  simp only [h, if_true]

theorem reconcileLog_log (fault : Option StoreFault) (text : String) (log : List Message) (items : List Json) :
    (reconcileLog fault text log items).2 = log ∨
      ∃ incoming, asMessages items = some incoming ∧ (reconcileProjection log incoming).mode ≠ .conflict ∧
        (reconcileLog fault text log items).2 = applied log incoming := by
  rw [reconcileLog]
  cases hitems : asMessages items with
  | none => exact .inl rfl
  | some incoming =>
    by_cases hmode : (reconcileProjection log incoming).mode = .conflict
    · cases fault with
      | none => exact .inl (by simp [hmode])
      | some fault => exact .inl (by simp [hmode])
    · cases fault with
      | none => exact .inr ⟨incoming, rfl, hmode, by simp [hmode]⟩
      | some fault =>
        cases hcommitted : fault.committed with
        | false => exact .inl (by simp [hcommitted])
        | true => exact .inr ⟨incoming, rfl, hmode, by simp [hmode, hcommitted]⟩

theorem mem_of_mem_appendedTail {result : ReconciliationResult} {incoming : List Message} {message : Message}
    (h : message ∈ appendedTail result incoming) : message ∈ incoming := by
  rw [appendedTail] at h
  split at h
  · simp at h
  · exact mem_of_mem_drop h

/-! ### Where a message comes from -/

section Origin

variable {F : Type}
  {c : String} {store : Bool} {messages : List Message} {message : Message} {metadata : Option Fields}
  {trace : ChatTrace F} {outcome : Except ChatError ApiResponse}

/-- The reply that an answer of the upstream carries, if it can be read. -/
def reply? (app : ProxyApp F) : Sigma (ChatAnswer F) → Option Json
  | ⟨.complete _, .ok (status, _, body)⟩ => (bufferedAnswer app status body).map Prod.fst
  | ⟨.readStream, some playback⟩ => (streamedAnswer app playback).map Prod.fst
  | _ => none

/-- A call of the store writes to its own conversation what the client has sent and the reply it was given. -/
def StoresOwn (app : ProxyApp F) (conversationId : String) (messages : List Message) (seen : ChatTrace F)
    (event : Sigma (ChatAnswer F)) : Prop :=
  match event.1 with
  | .reconcileHistory conversationId' items _ => conversationId' = conversationId ∧
      ∀ item ∈ items, item ∈ messages.map .obj ∨ ∃ event ∈ seen, reply? app event = some item
  | _ => True

theorem PersistsInbound.grounded {outcome : Except ChatError Inbound}
    (h : PersistsInbound store c messages trace outcome) (app : ProxyApp F) (seen : ChatTrace F) :
    Grounded (StoresOwn app c messages) seen trace := by
  cases h with
  | off => trivial
  | unensured => exact ⟨trivial, trivial⟩
  | unreconciled | stored => exact ⟨trivial, ⟨rfl, fun item hitem => .inl hitem⟩, trivial⟩

variable {app : ProxyApp F}

variable {seen calls : ChatTrace F} {request : ChatRequest}

theorem Persists.grounded {message : Json} {outcome : Except ChatError Unit}
    (h : Persists app store c messages message metadata trace outcome)
    (hreply : ∃ event ∈ seen, reply? app event = some message) :
    Grounded (StoresOwn app c messages) seen trace := by
  have hown : ∀ more item, item ∈ messages.map .obj ++ [message] →
      item ∈ messages.map .obj ∨ ∃ event ∈ seen ++ more, reply? app event = some item := by
    intro more item hitem
    rcases mem_append.mp hitem with hitem | hitem
    · exact .inl hitem
    · obtain ⟨event, hevent, hreply⟩ := hreply
      rw [mem_singleton.mp hitem]
      exact .inr ⟨event, mem_append_left _ hevent, hreply⟩
  cases h with
  | skipped => exact ⟨trivial, trivial⟩
  | failed => exact ⟨trivial, ⟨rfl, hown _⟩, trivial⟩
  | unindexed => exact ⟨trivial, ⟨rfl, hown _⟩, trivial⟩
  | indexed => exact ⟨trivial, ⟨rfl, hown _⟩, trivial, trivial⟩

theorem Answers.grounded {payload sent : Fields} (h : Answers app store c payload sent trace outcome)
    (seen : ChatTrace F) : Grounded (StoresOwn app c (messagesOf payload)) seen trace := by
  cases h with
  | refused | unparsed | unopened => exact ⟨trivial, trivial⟩
  | unread | broken => exact ⟨trivial, trivial, trivial⟩
  | buffered _ status headers body hanswer hpersist =>
    refine ⟨trivial, hpersist.grounded ⟨_, mem_append_right _ (mem_singleton_self _), ?_⟩⟩
    exact congrArg (Option.map _) hanswer
  | streamed _ head playback hanswer hpersist =>
    refine ⟨trivial, trivial, hpersist.grounded ⟨_, mem_append_right _ (mem_singleton_self _), ?_⟩⟩
    exact congrArg (Option.map _) hanswer

theorem storesOwn_of_not_isStore {event : Sigma (ChatAnswer F)} (h : event.1.isStore = false) :
    StoresOwn app c messages seen event := by
  unfold StoresOwn
  split
  next hcall =>
    rw [hcall] at h
    cases h
  next => trivial

variable [Score F] {app : ProxyApp F}

theorem Assembles.grounded {messages' : List Message} {tools : List Json}
    {outcome : Except ChatError (Except String (List Message))}
    (h : Assembles app c messages tools trace outcome) (seen : ChatTrace F) :
    Grounded (StoresOwn app c messages') seen trace :=
  grounded_of_forall fun _ hevent _ => storesOwn_of_not_isStore (h.not_isStore hevent)

theorem Serves.grounded {payload : Fields} (h : Serves app c payload trace outcome) (seen : ChatTrace F) :
    Grounded (StoresOwn app c (messagesOf payload)) seen trace := by
  cases h with
  | unpersisted hinbound => exact hinbound.grounded app seen
  | proceeds hinbound hproceed =>
    refine grounded_append.mpr ⟨hinbound.grounded app seen, ?_⟩
    cases hproceed with
    | conflict => trivial
    | unplanned _ hplan => exact hplan.grounded _
    | overflow _ hplan => exact hplan.grounded _
    | answered hplan hanswer => exact grounded_append.mpr ⟨hplan.grounded _, hanswer.grounded _⟩

/-- The message was sent by the request under the conversation, or is the reply to it. -/
def HasOrigin (app : ProxyApp F) (request : ChatRequest) (conversationId : String) (message : Message)
    (calls : ChatTrace F) : Prop :=
  ∃ payload start rest, acceptedPayload request.body = .ok payload ∧
    Identifies app request.headers payload conversationId start ∧ calls = start ++ rest ∧
    (message ∈ messagesOf payload ∨ ∃ event ∈ calls, reply? app event = some (.obj message))

omit [Score F] in
theorem HasOrigin.append (h : HasOrigin app request c message calls) (more : ChatTrace F) :
    HasOrigin app request c message (calls ++ more) := by
  obtain ⟨payload, start, rest, haccepted, hid, hcalls, horigin⟩ := h
  refine ⟨payload, start, rest ++ more, haccepted, hid, by rw [hcalls, append_assoc], ?_⟩
  refine horigin.imp_right ?_
  intro ⟨event, hevent, hreply⟩
  exact ⟨event, mem_append_left _ hevent, hreply⟩

/-- At a reconciliation, every message it brings has an origin in the calls before it. -/
theorem hasOrigin_of_runs {more : ChatTrace F} {items : List Json}
    {answer : ChatAnswer F (.reconcileHistory c items metadata)}
    (h : (chatCompletions app request).Runs (calls ++ ⟨.reconcileHistory c items metadata, answer⟩ :: more) outcome)
    (hmessage : .obj message ∈ items) : HasOrigin app request c message calls := by
  generalize htrace : calls ++ ⟨.reconcileHistory c items metadata, answer⟩ :: more = trace at h
  cases handles_of_runs h with
  | malformed => simp at htrace
  | unnamed => simp at htrace
  | @served payload id start rest _ haccepted hid hserve =>
    -- the id is drawn before the store is called
    obtain ⟨seen, rfl, hrest⟩ : ∃ seen, calls = start ++ seen ∧
        seen ++ ⟨.reconcileHistory c items metadata, answer⟩ :: more = rest := by
      cases hid with
      | named => exact ⟨calls, rfl, htrace⟩
      | fresh =>
        cases calls with
        | nil => cases (List.cons.inj htrace).1
        | cons first calls =>
          obtain ⟨rfl, hrest⟩ := List.cons.inj htrace
          exact ⟨calls, rfl, hrest⟩
    have hgrounded := hserve.grounded start
    rw [← hrest] at hgrounded
    obtain ⟨rfl, hitems⟩ := hgrounded.of_split
    refine ⟨payload, start, seen, haccepted, hid, rfl, ?_⟩
    rw [messagesOf_pop] at hitems
    refine (hitems _ hmessage).imp_left ?_
    intro hmem
    obtain ⟨message', hmessage', heq⟩ := mem_map.mp hmem
    obtain rfl := Json.obj.inj heq
    exact hmessage'

end Origin

/-! ### Every order of the steps -/

section Traffic

variable {F : Type} [Score F] {ι : Type} [DecidableEq ι]

omit [Score F] in
/-- An answered call leaves every log as it was, or appends to the log it reconciles some of the messages it brings. -/
theorem respond_log (reaction : Reaction F) (logs : Logs) (call : ChatCall) (c : String) :
    (respond reaction logs call).2 c = logs c ∨
      ∃ items metadata new, call = .reconcileHistory c items metadata ∧ (respond reaction logs call).2 c = logs c ++ new ∧
        ∀ message ∈ new, .obj message ∈ items := by
  cases call with
  | reconcileHistory conversationId items metadata =>
    by_cases hc : c = conversationId
    · subst hc
      have hlog : (respond reaction logs (.reconcileHistory c items metadata)).2 c
          = (reconcileLog reaction.fault reaction.text (logs c) items).2 := Function.update_self ..
      rw [hlog]
      rcases reconcileLog_log reaction.fault reaction.text (logs c) items with hsame | ⟨incoming, hitems, -, happlied⟩
      · exact .inl hsame
      · refine .inr ⟨items, metadata, _, rfl, happlied, ?_⟩
        intro message hmessage
        exact mem_of_asMessages hitems (mem_of_mem_appendedTail hmessage)
    · exact .inl (Function.update_of_ne hc _ _)
  | _ => exact .inl rfl

/-- What is stored stays, and every stored message was sent under its conversation or is a reply in it. -/
theorem stored_messages_have_origin (app : ProxyApp F) (requests : ι → ChatRequest) (logs : Logs)
    {w w' : Crew Logs (Thread (ChatAnswer F) ChatError ApiResponse) ι}
    (h : (Thread.crowd logs fun i => chatCompletions app (requests i)).Reaches (Thread.act respond) w)
    (h' : w.Reaches (Thread.act respond) w') (c : String) : w.shared c <+: w'.shared c ∧
      ∀ message ∈ w.shared c, message ∈ logs c ∨ ∃ i, HasOrigin app (requests i) c message (w.locals i).calls := by
  refine ⟨?_, ?_⟩
  · refine Crew.Reaches.invariant (P := fun u : Crew Logs _ ι => w.shared c <+: u.shared c) ?_ h' (prefix_refl _)
    intro u i reaction next hprefix hact
    obtain ⟨call, rest, -, -, -, hshared⟩ := Thread.act_eq_some hact
    rw [Crew.put_shared, hshared]
    rcases respond_log reaction u.shared call c with hsame | ⟨-, -, new, -, hnew, -⟩
    · rwa [hsame]
    · rw [hnew]
      exact hprefix.trans (prefix_append _ _)
  · refine Thread.invariant_of_reaches (P := fun shared calls => ∀ message ∈ shared c,
      message ∈ logs c ∨ ∃ i, HasOrigin app (requests i) c message (calls i)) plainAnswers ?_ (fun _ h => .inl h) h
    intro shared calls i reaction call hshared ⟨more, outcome, hruns⟩ message hmessage
    have hgrown : ∀ j, HasOrigin app (requests j) c message (calls j) → HasOrigin app (requests j) c message
        (Function.update calls i (calls i ++ [⟨call, (respond reaction shared call).1⟩]) j) := by
      intro j horigin
      by_cases hj : j = i
      · subst hj
        rw [Function.update_self]
        exact horigin.append _
      · rwa [Function.update_of_ne hj]
    have hold : message ∈ shared c → message ∈ logs c ∨ ∃ j, HasOrigin app (requests j) c message
        (Function.update calls i (calls i ++ [⟨call, (respond reaction shared call).1⟩]) j) := by
      intro hmem
      refine (hshared message hmem).imp_right ?_
      intro ⟨j, horigin⟩
      exact ⟨j, hgrown j horigin⟩
    rcases respond_log reaction shared call c with hsame | ⟨items, metadata, new, rfl, hnew, hitems⟩
    · exact hold (hsame ▸ hmessage)
    · rw [hnew] at hmessage
      rcases mem_append.mp hmessage with hmem | hmem
      · exact hold hmem
      · exact .inr ⟨i, hgrown i (hasOrigin_of_runs hruns (hitems message hmem))⟩

end Traffic

def rivalRequests : Bool → ChatRequest
  | true => {
      headers := [(conversationHeader, "c")]
      body := .ok (.obj [("model", .str "m"),
        ("messages", .arr [.obj (textMessage "user" "Hello."), .obj (textMessage "user" "Again.")])]) }
  | false => helloRequest

/-- Both requests are stored before either is answered, and the reply to the first one comes too late. -/
def rivalCrew : Option (Crew Logs (Thread (ChatAnswer ℚ) ChatError ApiResponse) Bool) :=
  (Thread.crowd (fun _ => []) fun i => chatCompletions plainApp (rivalRequests i)).run (Thread.act respond)
    ([false, false, false, true, true, false, true, false, true, false, true].map
      fun i => (i, { answers := plainAnswers, fault := none, text := "" }))

/-- Every message that two interleaved requests have stored comes from one of them. -/
theorem stored_messages_have_origin_hello : ∃ w, rivalCrew = some w ∧
    w.shared "c" = [textMessage "user" "Hello.", textMessage "user" "Again.", textMessage "assistant" "Hi."] ∧
    ∀ message ∈ w.shared "c", ∃ i, HasOrigin plainApp (rivalRequests i) "c" message (w.locals i).calls := by
  have hrun : rivalCrew.map (·.shared "c")
      = some [textMessage "user" "Hello.", textMessage "user" "Again.", textMessage "assistant" "Hi."] := by decide +kernel
  obtain ⟨w, hw, hstored⟩ := Option.map_eq_some_iff.mp hrun
  obtain ⟨-, horigin⟩ := stored_messages_have_origin plainApp rivalRequests (fun _ => []) ⟨_, hw⟩ (Crew.Reaches.refl w) "c"
  refine ⟨w, hw, hstored, ?_⟩
  intro message hmessage
  exact (horigin message hmessage).resolve_left (by simp)

end ContextProxy
