import ContextProxy.Api.ChatReply

/-!
# A store out of order

If the store fails while the request is recorded, the handler lets go of it. From there on the run is a run of an application that has no store, with the same outcome, and it does not call the store again (`degraded_as_storeless`).
-/

namespace ContextProxy

open Json Prog

def ChatCall.isStore : ChatCall → Bool
  | .ensureConversation _ | .reconcileHistory .. => true
  | _ => false

section Degraded

variable {F : Type}
  {app : ProxyApp F} {store : Bool} {c : String} {messages : List Message} {payload sent : Fields}
  {trace : ChatTrace F} {outcome : Except ChatError ApiResponse} {event : Sigma (ChatAnswer F)}

def ProxyApp.storeless (app : ProxyApp F) : ProxyApp F := { app with store := false }

/-- The store was found out of order while the messages were recorded. -/
def FailsInbound (messages : List Message) (event : Sigma (ChatAnswer F)) : Prop :=
  ∃ c text, event = ⟨.ensureConversation c, .error (.infrastructure text)⟩ ∨
    event = ⟨.reconcileHistory c (messages.map .obj) none, .error (.infrastructure text)⟩

theorem PersistsInbound.proceeds_of_fails {result : Except ChatError Inbound}
    (h : PersistsInbound store c messages trace result) (hevent : event ∈ trace)
    (hfails : FailsInbound messages event) : result = .ok (.proceed false) := by
  obtain ⟨_, text, rfl | rfl⟩ := hfails
  · cases h with
    | off => simp at hevent
    | unensured _ failure =>
      obtain ⟨rfl, rfl⟩ : _ = c ∧ .infrastructure text = failure := by simpa using hevent
      rfl
    | unreconciled => simp at hevent
    | stored => simp at hevent
  · cases h with
    | off => simp at hevent
    | unensured => simp at hevent
    | unreconciled _ failure =>
      obtain ⟨rfl, rfl⟩ : _ = c ∧ .infrastructure text = failure := by simpa using hevent
      rfl
    | stored => simp at hevent

/-- Persisting the reply sends one more message, so it is not mistaken for recording the request. -/
theorem Persists.not_fails {message : Json} {metadata : Option Fields} {outcome : Except ChatError Unit}
    (h : Persists app store c messages message metadata trace outcome) (hevent : event ∈ trace) :
    ¬FailsInbound messages event := by
  rintro ⟨_, text, rfl | rfl⟩
  · cases h with
    | _ => simp at hevent
  · cases h with
    | _ => simp at hevent

theorem Answers.exists_persists (h : Answers app store c payload sent trace outcome) :
    ∃ front rest, trace = front ++ rest ∧ (∀ event ∈ front, event.1.isStore = false) ∧
      (rest = [] ∨ ∃ message metadata persisted,
        Persists app store c (messagesOf payload) message metadata rest persisted) := by
  cases h with
  | @buffered _ status headers body _ _ _ rest _ hpersist =>
    exact ⟨[⟨.complete sent, .ok (status, headers, body)⟩], rest, rfl, by simp [ChatCall.isStore],
      .inr ⟨_, _, _, hpersist⟩⟩
  | @streamed _ head playback _ _ _ rest _ hpersist =>
    exact ⟨[⟨.openStream sent, .ok head⟩, ⟨.readStream, some playback⟩], rest, rfl, by simp [ChatCall.isStore],
      .inr ⟨_, _, _, hpersist⟩⟩
  | refused | unparsed | unopened | unread | broken =>
    exact ⟨_, [], (List.append_nil _).symm, by simp [ChatCall.isStore], .inl rfl⟩

theorem Answers.not_fails (h : Answers app store c payload sent trace outcome) (hevent : event ∈ trace) :
    ¬FailsInbound (messagesOf payload) event := by
  intro hfails
  obtain ⟨front, rest, rfl, hfront, hrest⟩ := h.exists_persists
  rcases List.mem_append.mp hevent with hevent | hevent
  · have hcall := hfront event hevent
    obtain ⟨_, text, rfl | rfl⟩ := hfails <;> cases hcall
  rcases hrest with rfl | ⟨message, metadata, persisted, hpersist⟩
  · simp at hevent
  · exact hpersist.not_fails hevent hfails

theorem Answers.not_isStore (h : Answers app false c payload sent trace outcome) (hevent : event ∈ trace) :
    event.1.isStore = false := by
  obtain ⟨front, rest, rfl, hfront, hrest⟩ := h.exists_persists
  rcases List.mem_append.mp hevent with hevent | hevent
  · exact hfront event hevent
  rcases hrest with rfl | ⟨message, metadata, persisted, hpersist⟩
  · simp at hevent
  cases hpersist with
  | skipped =>
    rw [List.mem_singleton.mp hevent]
    rfl
  | failed hstore | unindexed hstore | indexed hstore => cases hstore.1

variable [Score F]

theorem Assembles.not_isStore {tools : List Json} {outcome : Except ChatError (Except String (List Message))}
    (h : Assembles app c messages tools trace outcome) (hevent : event ∈ trace) : event.1.isStore = false := by
  cases h with
  | window => simp at hevent
  | engine _ hretrieve =>
    cases hretrieve with
    | unread => simp at hevent
    | skipped => simp at hevent
    | asked =>
      rw [List.mem_singleton.mp hevent]
      rfl

theorem Proceeds.not_fails {inbound : Inbound} (h : Proceeds app c payload inbound trace outcome)
    (hevent : event ∈ trace) :
    ¬FailsInbound (messagesOf payload) event ∧ (inbound = .proceed false → event.1.isStore = false) := by
  have hassembly : event.1.isStore = false → ¬FailsInbound (messagesOf payload) event := by
    rintro hcall ⟨_, text, rfl | rfl⟩ <;> cases hcall
  cases h with
  | conflict => simp at hevent
  | unplanned _ hplan => exact ⟨hassembly (hplan.not_isStore hevent), fun _ => hplan.not_isStore hevent⟩
  | overflow _ hplan => exact ⟨hassembly (hplan.not_isStore hevent), fun _ => hplan.not_isStore hevent⟩
  | answered hplan hanswer =>
    rcases List.mem_append.mp hevent with hevent | hevent
    · exact ⟨hassembly (hplan.not_isStore hevent), fun _ => hplan.not_isStore hevent⟩
    · refine ⟨hanswer.not_fails hevent, ?_⟩
      intro hstore
      obtain rfl := Inbound.proceed.inj hstore
      exact hanswer.not_isStore hevent

/-- What comes behind recording the request does the same without a store, if the store has failed. -/
theorem serveConversation_storeless (h : (serveConversation app c payload).Runs trace outcome)
    (hevent : event ∈ trace) (hfails : FailsInbound (messagesOf payload) event) : ∃ front back, trace = front ++ back ∧
      PersistsInbound app.store c (messagesOf payload) front (.ok (.proceed false)) ∧
      (∀ event ∈ back, event.1.isStore = false) ∧
      (serveConversation app.storeless c payload).Runs back outcome := by
  rcases runs_bind.mp h with ⟨error, hinbound, rfl⟩ | ⟨inbound, front, back, hinbound, hback, rfl⟩
  · cases (persistsInbound_of_runs hinbound).proceeds_of_fails hevent hfails
  have hproceeds := proceeds_of_runs hback
  have hfront : event ∈ front := (List.mem_append.mp hevent).resolve_right fun hmem => (hproceeds.not_fails hmem).1 hfails
  obtain rfl := Except.ok.inj ((persistsInbound_of_runs hinbound).proceeds_of_fails hfront hfails)
  exact ⟨front, back, rfl, persistsInbound_of_runs hinbound, fun event hmem => (hproceeds.not_fails hmem).2 rfl, hback⟩

/-- A request whose store fails is handled as if there were no store. -/
theorem degraded_as_storeless {app : ProxyApp F} {request : ChatRequest} {trace : ChatTrace F}
    {outcome : Except ChatError ApiResponse} (h : (chatCompletions app request).Runs trace outcome) {payload : Fields}
    (haccepted : acceptedPayload request.body = .ok payload) {event : Sigma (ChatAnswer F)} (hevent : event ∈ trace)
    (hfails : FailsInbound (messagesOf payload) event) : ∃ c start front back, trace = start ++ front ++ back ∧
      PersistsInbound app.store c (messagesOf payload) front (.ok (.proceed false)) ∧
      (∀ event ∈ start ++ back, event.1.isStore = false) ∧
      (chatCompletions app.storeless request).Runs (start ++ back) outcome := by
  rw [← messagesOf_pop] at hfails ⊢
  cases hid : requestedConversation app.rt app.ids app.identity request.headers payload with
  | error message =>
    rw [chatCompletions_of_unnamed haccepted hid] at h
    obtain ⟨rfl, -⟩ := runs_pure.mp h
    simp at hevent
  | ok requested =>
    cases requested with
    | some c =>
      rw [chatCompletions_of_named haccepted hid] at h
      obtain ⟨front, back, htrace, hinbound, hstore, hback⟩ := serveConversation_storeless h hevent hfails
      refine ⟨c, [], front, back, htrace, hinbound, hstore, ?_⟩
      have hid' : requestedConversation app.storeless.rt app.storeless.ids app.storeless.identity request.headers payload =
          .ok (some c) := hid
      rw [chatCompletions_of_named haccepted hid']
      exact hback
    | none =>
      rw [chatCompletions_of_fresh haccepted hid] at h
      obtain ⟨c, rest, rfl, hrest⟩ := runs_send_bind.mp h
      have hlate : event ∈ rest := by
        refine (List.mem_cons.mp hevent).resolve_left ?_
        rintro rfl
        obtain ⟨_, text, hevent | hevent⟩ := hfails <;> cases hevent
      obtain ⟨front, back, rfl, hinbound, hstore, hback⟩ := serveConversation_storeless hrest hlate hfails
      refine ⟨c, [⟨.uuid4, c⟩], front, back, rfl, hinbound, ?_, ?_⟩
      · exact List.forall_mem_cons.mpr ⟨rfl, hstore⟩
      · have hid' : requestedConversation app.storeless.rt app.storeless.ids app.storeless.identity request.headers payload =
            .ok none := hid
        rw [chatCompletions_of_fresh haccepted hid']
        exact runs_send_bind.mpr ⟨c, back, rfl, hback⟩

end Degraded

def storeDown : ∀ call, ChatAnswer ℚ call
  | .ensureConversation _ => .error (.infrastructure "down")
  | call => plainAnswers call

/-- The greeting is answered all the same. -/
theorem degraded_as_storeless_hello : ∃ trace, (chatCompletions plainApp.storeless helloRequest).Runs trace
    ((chatCompletions plainApp helloRequest).play storeDown).2 := by
  obtain ⟨_, start, _, back, -, -, -, h⟩ := degraded_as_storeless
    (runs_play storeDown (chatCompletions plainApp helloRequest)) accepted_helloPayload
    (List.mem_of_getElem? (i := 1) rfl) ⟨"c", "down", .inl rfl⟩
  exact ⟨start ++ back, h⟩

end ContextProxy
