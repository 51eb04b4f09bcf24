import ContextProxy.Api.ChatRuns
import ContextProxy.Context.Forwards

/-!
# What goes upstream

A run asks the provider at most once, behind a request that was recorded or could not be for want of a store (`inference_guarded`). It sends the payload of the client with other messages: the instructions of the history in order, blocks retrieved for this conversation, a suffix of the rest of the history, and the request, within the budget of the planner (`payload_forwarded`).
-/

namespace ContextProxy

open Json Prog List

def ChatCall.payload? : ChatCall → Option Fields
  | .complete payload | .openStream payload => some payload
  | _ => none

/-! ### The payload -/

/-- What goes upstream is what the client sent, but for the name of the conversation and the messages. -/
structure Relayed (payload sent : Fields) (forwarded : List Message) : Prop where
  keys : sent.map Prod.fst = (payload.map Prod.fst).filter (· != "conversation_id")
  same : ∀ key, key ≠ "messages" → key ≠ "conversation_id" → sent.lookup key = payload.lookup key
  messages : sent.lookup "messages" = some (.arr (forwarded.map .obj))

variable {body : Except String Json}

theorem accepted_of_acceptedPayload {payload : Fields} (h : acceptedPayload body = .ok payload) :
    validateChatPayload (.obj payload) = .ok () := by
  obtain ⟨payload', -, h⟩ := bind_eq_ok.mp h
  obtain ⟨hvalid, h⟩ := bind_unit_eq_ok.mp h
  obtain rfl := Except.ok.inj h
  exact hvalid

theorem relayed_of_accepted {payload : Fields} (h : acceptedPayload body = .ok payload) (forwarded : List Message) :
    Relayed payload (outPayload (pop payload "conversation_id") forwarded) forwarded := by
  have hkeys : (pop payload "conversation_id").map Prod.fst = (payload.map Prod.fst).filter (· != "conversation_id") := by
    rw [pop, filter_map]
    rfl
  have hmem : "messages" ∈ (pop payload "conversation_id").map Prod.fst := by
    rw [hkeys, mem_filter]
    refine ⟨?_, by decide⟩
    have hget := (ChatPayload.messages_accepted ⟨payload, accepted_of_acceptedPayload h⟩).1
    rw [← Dict.lookup_isSome_iff]
    rw [Json.get] at hget
    cases hlookup : payload.lookup "messages" with
    | some _ => rfl
    | none =>
      rw [hlookup] at hget
      cases hget
  refine ⟨?_, ?_, ?_⟩
  · rw [outPayload, Dict.keys_set_of_mem _ hmem, hkeys]
  · intro key hmessages hid
    rw [outPayload, Dict.lookup_set, if_neg hmessages, lookup_pop, if_neg hid]
  · rw [outPayload, Dict.lookup_set, if_pos rfl]

section Guard

variable {F : Type} {app : ProxyApp F} {request : ChatRequest} {store : Bool} {c : String}
  {messages forwarded : List Message} {tools : List Json} {payload sent : Fields}
  {trace start inbound assembly back : ChatTrace F} {outcome : Except ChatError ApiResponse}

def Unasked (trace : ChatTrace F) : Prop := ∀ event ∈ trace, event.1.payload? = none

/-! ### Which stage asks the provider -/

def ChatCall.isPreliminary : ChatCall → Bool
  | .uuid4 | .ensureConversation _ | .reconcileHistory .. | .retrieve .. => true
  | _ => false

def Preliminary (trace : ChatTrace F) : Prop := ∀ event ∈ trace, event.1.isPreliminary = true

theorem Preliminary.unasked (h : Preliminary trace) : Unasked trace := by
  intro event hevent
  have hcall := h event hevent
  cases hc : event.1 with
  | complete => simp [hc, ChatCall.isPreliminary] at hcall
  | openStream => simp [hc, ChatCall.isPreliminary] at hcall
  | _ => rfl

theorem Preliminary.append {front : ChatTrace F} (hfront : Preliminary front) (hback : Preliminary back) :
    Preliminary (front ++ back) := forall_mem_append.mpr ⟨hfront, hback⟩

theorem Identifies.preliminary {headers : Headers} (h : Identifies app headers payload c trace) : Preliminary trace := by
  cases h with
  | _ => simp [Preliminary, ChatCall.isPreliminary]

theorem PersistsInbound.preliminary {outcome : Except ChatError Inbound}
    (h : PersistsInbound store c messages trace outcome) : Preliminary trace := by
  cases h with
  | _ => simp [Preliminary, ChatCall.isPreliminary]

theorem Assembles.preliminary [Score F] {outcome : Except ChatError (Except String (List Message))}
    (h : Assembles app c messages tools trace outcome) : Preliminary trace := by
  cases h with
  | window => exact forall_mem_nil _
  | engine _ hretrieve =>
    cases hretrieve with
    | _ => simp [Preliminary, ChatCall.isPreliminary]

theorem Persists.unasked {message : Json} {metadata : Option Fields} {outcome : Except ChatError Unit}
    (h : Persists app store c messages message metadata trace outcome) : Unasked trace := by
  cases h with
  | _ => simp [Unasked, ChatCall.payload?]

theorem Answers.exists_call (h : Answers app store c payload sent trace outcome) :
    ∃ event back, trace = event :: back ∧ event.1.payload? = some sent ∧ Unasked back := by
  cases h with
  | refused | unparsed | unopened | unread | broken => exact ⟨_, _, rfl, rfl, by simp [Unasked, ChatCall.payload?]⟩
  | buffered _ _ _ _ _ hpersist => exact ⟨_, _, rfl, rfl, hpersist.unasked⟩
  | streamed _ _ _ _ hpersist =>
    exact ⟨_, _, rfl, rfl, forall_mem_cons.mpr ⟨rfl, hpersist.unasked⟩⟩

/-! ### The guard -/

/-- The messages are in the store, or there is no store, or it was found to be out of order. -/
def Recorded (store : Bool) (c : String) (messages : List Message) (trace : ChatTrace F) : Prop :=
  let reconcile := ChatCall.reconcileHistory c (messages.map .obj) none
  store = false ∨ ⟨reconcile, .ok ()⟩ ∈ trace ∨
    ∃ text, ⟨.ensureConversation c, .error (.infrastructure text)⟩ ∈ trace ∨
      ⟨reconcile, .error (.infrastructure text)⟩ ∈ trace

theorem StoreFailure.eq_infrastructure {failure : StoreFailure} (h : failure.inbound = .ok (.proceed store)) :
    ∃ text, failure = .infrastructure text := by
  cases failure with
  | infrastructure text => exact ⟨text, rfl⟩
  | divergence | exception | baseException => cases h

theorem PersistsInbound.recorded {store' : Bool} {outcome : Except ChatError Inbound}
    (h : PersistsInbound store c messages trace outcome) (hok : outcome = .ok (.proceed store')) :
    Recorded store c messages trace := by
  cases h with
  | off hstore => exact .inl hstore
  | unensured _ failure =>
    obtain ⟨text, rfl⟩ := StoreFailure.eq_infrastructure hok
    exact .inr (.inr ⟨text, .inl (mem_singleton.mpr rfl)⟩)
  | unreconciled _ failure =>
    obtain ⟨text, rfl⟩ := StoreFailure.eq_infrastructure hok
    exact .inr (.inr ⟨text, .inr (by simp)⟩)
  | stored => exact .inr (.inl (by simp))

theorem messagesOf_pop (payload : Fields) : messagesOf (pop payload "conversation_id") = messagesOf payload := by
  rw [messagesOf, messagesOf, Json.get, Json.get, lookup_pop, if_neg (by decide)]

theorem toolsOf_pop (payload : Fields) : toolsOf (pop payload "conversation_id") = toolsOf payload := by
  rw [toolsOf, toolsOf, Json.get, Json.get, lookup_pop, if_neg (by decide)]

theorem Recorded.mono {trace' : ChatTrace F} (hsubset : trace ⊆ trace') (h : Recorded store c messages trace) :
    Recorded store c messages trace' := by
  rcases h with h | h | ⟨text, h | h⟩
  · exact .inl h
  · exact .inr (.inl (hsubset h))
  · exact .inr (.inr ⟨text, .inl (hsubset h)⟩)
  · exact .inr (.inr ⟨text, .inr (hsubset h)⟩)

/-- No answer, or a refusal by the proxy itself. -/
def Declined : Except ChatError ApiResponse → Prop
  | .error _ => True
  | .ok response => response.status = 400 ∨ response.status = 409

/-- A run that gets to the provider, cut into its stages. -/
structure Asked [Score F] (app : ProxyApp F) (request : ChatRequest) (payload : Fields) (c : String)
    (start inbound assembly back : ChatTrace F) (store : Bool) (forwarded : List Message)
    (outcome : Except ChatError ApiResponse) : Prop where
  accepted : acceptedPayload request.body = .ok payload
  identified : Identifies app request.headers payload c start
  persisted : PersistsInbound app.store c (messagesOf payload) inbound (.ok (.proceed store))
  assembled : Assembles app c (messagesOf payload) (toolsOf payload) assembly (.ok (.ok forwarded))
  answered : Answers app store c (pop payload "conversation_id")
    (outPayload (pop payload "conversation_id") forwarded) back outcome

theorem declined_or_asked [Score F] (h : (chatCompletions app request).Runs trace outcome) :
    (Preliminary trace ∧ Declined outcome) ∨
      ∃ payload c start inbound assembly back store forwarded,
        Asked app request payload c start inbound assembly back store forwarded outcome ∧
        trace = start ++ inbound ++ assembly ++ back := by
  cases handles_of_runs h with
  | malformed => exact .inl ⟨forall_mem_nil _, .inl rfl⟩
  | unnamed => exact .inl ⟨forall_mem_nil _, .inl rfl⟩
  | served haccepted hid hserve =>
    cases hserve with
    | unpersisted hinbound => exact .inl ⟨hid.preliminary.append hinbound.preliminary, trivial⟩
    | proceeds hinbound hproceed =>
      have hfront := hid.preliminary.append hinbound.preliminary
      cases hproceed with
      | conflict => exact .inl ⟨by simpa using hfront, .inr rfl⟩
      | unplanned _ hplan => exact .inl ⟨hid.preliminary.append (hinbound.preliminary.append hplan.preliminary), trivial⟩
      | overflow _ hplan => exact .inl ⟨hid.preliminary.append (hinbound.preliminary.append hplan.preliminary), .inl rfl⟩
      | answered hplan hanswer =>
        rw [messagesOf_pop] at hinbound hplan
        rw [toolsOf_pop] at hplan
        exact .inr ⟨_, _, _, _, _, _, _, _, ⟨haccepted, hid, hinbound, hplan, hanswer⟩, by simp⟩

theorem Asked.preliminary [Score F]
    (h : Asked app request payload c start inbound assembly back store forwarded outcome) :
    Preliminary (start ++ inbound ++ assembly) :=
  (h.identified.preliminary.append h.persisted.preliminary).append h.assembled.preliminary

theorem Asked.exists_rest [Score F] (h : Asked app request payload c start inbound assembly back store forwarded outcome)
    {event : Sigma (ChatAnswer F)} (hevent : event ∈ start ++ inbound ++ assembly ++ back)
    (hsent : event.1.payload? = some sent) :
    sent = outPayload (pop payload "conversation_id") forwarded ∧ ∃ rest, back = event :: rest := by
  obtain ⟨call, rest, rfl, hcall, hrest⟩ := h.answered.exists_call
  rcases mem_append.mp hevent with hevent | hevent
  · rw [h.preliminary.unasked event hevent] at hsent
    cases hsent
  rcases mem_cons.mp hevent with rfl | hevent
  · exact ⟨Option.some.inj (hsent.symm.trans hcall), rest, rfl⟩
  · rw [hrest event hevent] at hsent
    cases hsent

/-- The provider is asked at most once, and only behind a request that is recorded or cannot be. A request that does not get there is declined. -/
theorem inference_guarded [Score F] {app : ProxyApp F} {request : ChatRequest} {trace : ChatTrace F}
    {outcome : Except ChatError ApiResponse} (h : (chatCompletions app request).Runs trace outcome) :
    (Unasked trace ∧ Declined outcome) ∨
      ∃ payload c start front event back,
        acceptedPayload request.body = .ok payload ∧ Identifies app request.headers payload c start ∧
        trace = start ++ front ++ event :: back ∧ event.1.payload?.isSome = true ∧ Unasked (start ++ front) ∧ Unasked back ∧
        Recorded app.store c (messagesOf payload) front := by
  refine (declined_or_asked h).imp (And.imp_left Preliminary.unasked) ?_
  intro ⟨payload, c, start, inbound, assembly, back, store, forwarded, hasked, htrace⟩
  obtain ⟨event, back, rfl, hevent, hback⟩ := hasked.answered.exists_call
  refine ⟨payload, c, start, inbound ++ assembly, event, back, hasked.accepted, hasked.identified, ?_, ?_, ?_,
    hback, ?_⟩
  · simp [htrace]
  · rw [hevent]
    rfl
  · rw [← append_assoc]
    exact hasked.preliminary.unasked
  · exact (hasked.persisted.recorded rfl).mono (subset_append_left _ _)

/-- A greeting is recorded before it is answered. -/
theorem inference_guarded_hello : ∃ c front, front ⊆ helloRun.1 ∧
    Recorded true c [textMessage "user" "Hello."] front := by
  rcases inference_guarded runs_helloRun with ⟨hunasked, -⟩ |
    ⟨payload, c, start, front, event, back, haccepted, -, htrace, -, -, -, hrecorded⟩
  · exact absurd hunasked (by unfold Unasked; decide)
  · obtain rfl := Except.ok.inj (accepted_helloPayload.symm.trans haccepted)
    refine ⟨c, front, ?_, hrecorded⟩
    rw [htrace]
    exact subset_append_of_subset_left _ (subset_append_right start front)

/-! ### What is sent -/

def ProxyApp.budget (app : ProxyApp F) : ℕ :=
  match app.engine with
  | some engine => engine.usable
  | none => app.usableBudgetTokens - app.pinnedBudgetTokens

theorem windowPlan_eq_ok (h : windowPlan app messages tools = .ok (.ok forwarded)) :
    ∃ history current plan, separateCurrentRequest messages = .ok (history, current) ∧
      planContext app.rt history current tools app.usableBudgetTokens app.pinnedBudgetTokens = .ok plan ∧
      plan.messages = forwarded := by
  obtain ⟨⟨history, current⟩, hsplit, hplan⟩ := bind_eq_ok.mp h
  refine ⟨history, current, ?_⟩
  rw [mapError_eq_ok] at hsplit
  cases hbuilt : planContext app.rt history current tools app.usableBudgetTokens app.pinnedBudgetTokens with
  | ok plan =>
    simp only [hbuilt] at hplan
    exact ⟨plan, hsplit, rfl, Except.ok.inj (Except.ok.inj hplan)⟩
  | error error =>
    simp only [hbuilt] at hplan
    cases error with
    | _ => cases hplan

theorem planOutcome_eq_ok {built : Except BuildError (ContextPlan F)} (h : planOutcome built = .ok (.ok forwarded)) :
    ∃ plan, built = .ok plan ∧ plan.messages = forwarded := by
  cases built with
  | ok plan => exact ⟨plan, rfl, Except.ok.inj (Except.ok.inj h)⟩
  | error error =>
    cases error with
    | _ => cases h

theorem Retrieves.mem {outcome : Except ChatError (List (RetrievedItem F))}
    (h : Retrieves app c messages trace outcome) {items : List (RetrievedItem F)} (hok : outcome = .ok items)
    {item : RetrievedItem F} (hitem : item ∈ items) :
    ∃ query answer, ⟨.retrieve query c, .ok answer⟩ ∈ trace ∧ item ∈ answer := by
  cases h with
  | unread => cases hok
  | skipped =>
    obtain rfl := Except.ok.inj hok
    simp at hitem
  | asked _ _ answer =>
    cases answer with
    | ok answer =>
      obtain rfl := Except.ok.inj hok
      exact ⟨_, _, mem_singleton.mpr rfl, hitem⟩
    | error error =>
      cases error with
      | retrieval =>
        obtain rfl := Except.ok.inj hok
        simp at hitem
      | programming => cases hok

variable [Score F]

theorem enginePlan_eq_ok {engine : ContextAssemblyEngine F} {retrieved : List (RetrievedItem F)}
    (h : enginePlan app engine c messages tools retrieved = .ok (.ok forwarded)) :
    ∃ history currentRequest plan, separateCurrentRequest messages = .ok (history, currentRequest) ∧
      engine.build app.rt { history, currentRequest, tools, retrieved, conversationId := some c } = .ok plan ∧
      plan.messages = forwarded := by
  obtain ⟨⟨history, current⟩, hsplit, hplan⟩ := bind_eq_ok.mp h
  obtain ⟨plan, hbuilt, hmessages⟩ := planOutcome_eq_ok hplan
  exact ⟨history, current, plan, mapError_eq_ok.mp hsplit, hbuilt, hmessages⟩

theorem Assembles.forwards {outcome : Except ChatError (Except String (List Message))}
    (h : Assembles app c messages tools trace outcome) (hok : outcome = .ok (.ok forwarded)) :
    ∃ (history current : List Message) (items : List (RetrievedItem F)) (planned window : List Message),
      separateCurrentRequest messages = .ok (history, current) ∧
      (∀ item ∈ items, ∃ query answer, ⟨.retrieve query c, .ok answer⟩ ∈ trace ∧ item ∈ answer) ∧
      Forwards app.rt history current tools app.budget (items.map (·.block)) planned window forwarded := by
  cases h with
  | window hengine =>
    obtain ⟨history, current, plan, hsplit, hplan, rfl⟩ := windowPlan_eq_ok hok
    obtain ⟨planned, window, hforwards⟩ := forwards_of_planContext hplan
    refine ⟨history, current, [], planned, window, hsplit, forall_mem_nil _, ?_⟩
    rw [ProxyApp.budget, hengine]
    exact hforwards
  | engine hengine hretrieve =>
    obtain ⟨retrieved, hretrieved, hplan⟩ := bind_eq_ok.mp hok
    obtain ⟨history, current, plan, hsplit, hbuild, rfl⟩ := enginePlan_eq_ok hplan
    obtain ⟨items, planned, window, hitems, hforwards⟩ := forwards_of_build rfl hbuild
    refine ⟨history, current, items, planned, window, hsplit, ?_, ?_⟩
    · intro item hitem
      exact hretrieve.mem hretrieved (hitems item hitem)
    · rw [ProxyApp.budget, hengine]
      exact hforwards

/-- What is sent to the provider is the payload of the client with the messages that the planner forwards; the blocks among them were retrieved for this conversation. -/
theorem payload_forwarded {app : ProxyApp F} {request : ChatRequest} {trace : ChatTrace F}
    {outcome : Except ChatError ApiResponse} (h : (chatCompletions app request).Runs trace outcome)
    {event : Sigma (ChatAnswer F)} (hevent : event ∈ trace) {sent : Fields} (hsent : event.1.payload? = some sent) :
    ∃ (payload : Fields) (c : String) (start rest : ChatTrace F) (history current forwarded : List Message)
      (items : List (RetrievedItem F)) (planned window : List Message),
      acceptedPayload request.body = .ok payload ∧ Identifies app request.headers payload c start ∧
      trace = start ++ rest ∧ separateCurrentRequest (messagesOf payload) = .ok (history, current) ∧
      Relayed payload sent forwarded ∧
      (∀ item ∈ items, ∃ query answer, ⟨.retrieve query c, .ok answer⟩ ∈ trace ∧ item ∈ answer) ∧
      Forwards app.rt history current (toolsOf payload) app.budget (items.map (·.block)) planned window forwarded := by
  rcases declined_or_asked h with ⟨hpreliminary, -⟩ |
    ⟨payload, c, start, inbound, assembly, back, store, forwarded, hasked, htrace⟩
  · rw [hpreliminary.unasked event hevent] at hsent
    cases hsent
  obtain ⟨history, current, items, planned, window, hsplit, hitems, hforwards⟩ := hasked.assembled.forwards rfl
  obtain ⟨rfl, -⟩ := hasked.exists_rest (htrace ▸ hevent) hsent
  refine ⟨payload, c, start, inbound ++ assembly ++ back, history, current, forwarded, items, planned, window,
    hasked.accepted, hasked.identified, by simp [htrace], hsplit, relayed_of_accepted hasked.accepted forwarded, ?_, hforwards⟩
  intro item hitem
  obtain ⟨query, answer, hmem, hanswer⟩ := hitems item hitem
  exact ⟨query, answer, by simp [htrace, hmem], hanswer⟩

end Guard

def recalledRun : ChatTrace ℚ × Except ChatError ApiResponse := (chatCompletions memoryApp helloRequest).play memoryAnswers

def recalledPayload : Fields :=
  [("model", .str "m"), ("messages", .arr [.obj doorCode.block, .obj (textMessage "user" "Hello.")])]

/-- A greeting goes upstream behind what was retrieved for it. -/
theorem payload_forwarded_hello : recalledRun.1.filterMap (·.1.payload?) = [recalledPayload] ∧
    ∃ (c : String) (history current forwarded : List Message) (items : List (RetrievedItem ℚ))
      (planned window : List Message), Relayed helloPayload recalledPayload forwarded ∧
      (∀ item ∈ items, ∃ query answer, ⟨.retrieve query c, .ok answer⟩ ∈ recalledRun.1 ∧ item ∈ answer) ∧
      Forwards plainRuntime history current [] 1000 (items.map (·.block)) planned window forwarded := by
  have hpayloads : recalledRun.1.filterMap (·.1.payload?) = [recalledPayload] := by decide +kernel
  obtain ⟨event, hevent, hsent⟩ := mem_filterMap.mp (hpayloads ▸ mem_singleton_self recalledPayload)
  obtain ⟨payload, c, _, _, history, current, forwarded, items, planned, window, haccepted, -, -, -, hrelayed,
    hitems, hforwards⟩ := payload_forwarded (runs_play memoryAnswers _) hevent hsent
  obtain rfl := Except.ok.inj (accepted_helloPayload.symm.trans haccepted)
  exact ⟨hpayloads, c, history, current, forwarded, items, planned, window, hrelayed, hitems, hforwards⟩

end ContextProxy
