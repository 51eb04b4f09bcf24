import ContextProxy.Api.Chat

/-!
# The runs of the chat endpoint

What the handler can do, stage by stage: the calls it makes, with whatever answers, and what it makes of them. Every run of `chat_completions` has one of these shapes (`handles_of_runs`), and what is said about requests below is read off the shapes.
-/

namespace ContextProxy

open Json Prog

abbrev ChatTrace (F : Type) := List (Sigma (ChatAnswer F))

section Shapes

variable {F : Type}

inductive PersistsInbound (store : Bool) (c : String) (messages : List Message) :
    ChatTrace F → Except ChatError Inbound → Prop
  | off (h : store = false) : PersistsInbound store c messages [] (.ok (.proceed false))
  | unensured (h : store = true) (failure : StoreFailure) :
      PersistsInbound store c messages [⟨.ensureConversation c, .error failure⟩] failure.inbound
  | unreconciled (h : store = true) (failure : StoreFailure) :
      PersistsInbound store c messages
        [⟨.ensureConversation c, .ok ()⟩,
          ⟨.reconcileHistory c (messages.map .obj) none, .error failure⟩] failure.inbound
  | stored (h : store = true) :
      PersistsInbound store c messages
        [⟨.ensureConversation c, .ok ()⟩,
          ⟨.reconcileHistory c (messages.map .obj) none, .ok ()⟩] (.ok (.proceed true))

inductive Retrieves (app : ProxyApp F) (c : String) (messages : List Message) :
    ChatTrace F → Except ChatError (List (RetrievedItem F)) → Prop
  | unread {error : PyError} (hquery : extractRetrievalQuery app.rt (messages.map .obj) = .error error) :
      Retrieves app c messages [] (.error (.python error))
  | skipped {query : String} (hquery : extractRetrievalQuery app.rt (messages.map .obj) = .ok query)
      (hoff : app.memory = false ∨ query = "") : Retrieves app c messages [] (.ok [])
  | asked {query : String} (hquery : extractRetrievalQuery app.rt (messages.map .obj) = .ok query)
      (hon : app.memory = true ∧ query ≠ "") (answer : Except RetrieveError (List (RetrievedItem F))) :
      Retrieves app c messages [⟨.retrieve query c, answer⟩] (retrievedOrNone answer)

/-- The runs of the second step: the plan that is made with what is retrieved. -/
inductive Assembles [Score F] (app : ProxyApp F) (c : String) (messages : List Message) (tools : List Json) :
    ChatTrace F → Except ChatError (Except String (List Message)) → Prop
  | window (h : app.engine = none) : Assembles app c messages tools [] (windowPlan app messages tools)
  | engine {engine : ContextAssemblyEngine F} (h : app.engine = some engine) {trace : ChatTrace F}
      {retrieved : Except ChatError (List (RetrievedItem F))}
      (hretrieve : Retrieves app c messages trace retrieved) :
      Assembles app c messages tools trace (retrieved >>= enginePlan app engine c messages tools)

inductive Persists (app : ProxyApp F) (store : Bool) (c : String) (messages : List Message) (message : Json)
    (metadata : Option Fields) : ChatTrace F → Except ChatError Unit → Prop
  | skipped (h : store = false ∨ message = .null) :
      Persists app store c messages message metadata
        [⟨.recordTokens (get (metadata.getD []) "usage"), ()⟩] (.ok ())
  | failed (h : store = true ∧ message ≠ .null) (failure : StoreFailure) :
      Persists app store c messages message metadata
        [⟨.recordTokens (get (metadata.getD []) "usage"), ()⟩,
          ⟨.reconcileHistory c (messages.map .obj ++ [message]) metadata, .error failure⟩] failure.outbound
  | unindexed (h : store = true ∧ message ≠ .null) (hoff : app.memory = false ∨ app.autoIndex = false) :
      Persists app store c messages message metadata
        [⟨.recordTokens (get (metadata.getD []) "usage"), ()⟩,
          ⟨.reconcileHistory c (messages.map .obj ++ [message]) metadata, .ok ()⟩] (.ok ())
  | indexed (h : store = true ∧ message ≠ .null) (hon : app.memory = true ∧ app.autoIndex = true)
      (answer : Except IndexFailure ℕ) :
      Persists app store c messages message metadata
        [⟨.recordTokens (get (metadata.getD []) "usage"), ()⟩,
          ⟨.reconcileHistory c (messages.map .obj ++ [message]) metadata, .ok ()⟩,
          ⟨.indexCompletedTurns c, answer⟩] (indexOutcome answer)

inductive Answers (app : ProxyApp F) (store : Bool) (c : String) (payload : Fields) (sent : Fields) :
    ChatTrace F → Except ChatError ApiResponse → Prop
  | refused (h : get payload "stream" ≠ .bool true) (raised : Raised) :
      Answers app store c payload sent [⟨.complete sent, .error raised⟩] (upstreamFailed app raised)
  | unparsed (h : get payload "stream" ≠ .bool true) (status : ℕ) (headers : Headers) (body : Body)
      (hanswer : bufferedAnswer app status body = none) :
      Answers app store c payload sent [⟨.complete sent, .ok (status, headers, body)⟩]
        (.ok (bufferedResponse app c status headers body))
  | buffered (h : get payload "stream" ≠ .bool true) (status : ℕ) (headers : Headers) (body : Body) {message : Json}
      {metadata : Fields} (hanswer : bufferedAnswer app status body = some (message, metadata)) {trace : ChatTrace F}
      {persisted : Except ChatError Unit}
      (hpersist : Persists app store c (messagesOf payload) message (orNone metadata) trace persisted) :
      Answers app store c payload sent (⟨.complete sent, .ok (status, headers, body)⟩ :: trace)
        (persisted.map fun _ => bufferedResponse app c status headers body)
  | unopened (h : get payload "stream" = .bool true) (raised : Raised) :
      Answers app store c payload sent [⟨.openStream sent, .error raised⟩] (upstreamFailed app raised)
  | unread (h : get payload "stream" = .bool true) (head : ResponseHead) :
      Answers app store c payload sent [⟨.openStream sent, .ok head⟩, ⟨.readStream, none⟩]
        (.ok (streamedResponse app c head .unread))
  | broken (h : get payload "stream" = .bool true) (head : ResponseHead) (playback : Playback)
      (hanswer : streamedAnswer app playback = none) :
      Answers app store c payload sent [⟨.openStream sent, .ok head⟩, ⟨.readStream, some playback⟩]
        (.ok (streamedResponse app c head (played app playback .returns)))
  | streamed (h : get payload "stream" = .bool true) (head : ResponseHead) (playback : Playback) {message : Json}
      {metadata : Fields} (hanswer : streamedAnswer app playback = some (message, metadata)) {trace : ChatTrace F}
      {persisted : Except ChatError Unit}
      (hpersist : Persists app store c (messagesOf payload) message (some metadata) trace persisted) :
      Answers app store c payload sent
        (⟨.openStream sent, .ok head⟩ :: ⟨.readStream, some playback⟩ :: trace)
        (.ok (streamedResponse app c head (played app playback (finishOutcome persisted))))

inductive Proceeds [Score F] (app : ProxyApp F) (c : String) (payload : Fields) :
    Inbound → ChatTrace F → Except ChatError ApiResponse → Prop
  | conflict (message : String) :
      Proceeds app c payload (.conflict message) [] (.ok (conflictResponse app c message))
  | unplanned (store : Bool) {assembly : ChatTrace F} {error : ChatError}
      (hplan : Assembles app c (messagesOf payload) (toolsOf payload) assembly (.error error)) :
      Proceeds app c payload (.proceed store) assembly (.error error)
  | overflow (store : Bool) {assembly : ChatTrace F} {message : String}
      (hplan : Assembles app c (messagesOf payload) (toolsOf payload) assembly (.ok (.error message))) :
      Proceeds app c payload (.proceed store) assembly (.ok (overflowResponse app c message))
  | answered {store : Bool} {assembly back : ChatTrace F} {messages : List Message} {outcome : Except ChatError ApiResponse}
      (hplan : Assembles app c (messagesOf payload) (toolsOf payload) assembly (.ok (.ok messages)))
      (hanswer : Answers app store c payload (outPayload payload messages) back outcome) :
      Proceeds app c payload (.proceed store) (assembly ++ back) outcome

inductive Serves [Score F] (app : ProxyApp F) (c : String) (payload : Fields) :
    ChatTrace F → Except ChatError ApiResponse → Prop
  | unpersisted {inbound : ChatTrace F} {error : ChatError}
      (h : PersistsInbound app.store c (messagesOf payload) inbound (.error error)) :
      Serves app c payload inbound (.error error)
  | proceeds {front back : ChatTrace F} {inbound : Inbound} {outcome : Except ChatError ApiResponse}
      (h : PersistsInbound app.store c (messagesOf payload) front (.ok inbound))
      (hproceed : Proceeds app c payload inbound back outcome) :
      Serves app c payload (front ++ back) outcome

inductive Identifies (app : ProxyApp F) (headers : Headers) (payload : Fields) : String → ChatTrace F → Prop
  | named {c : String}
      (h : requestedConversation app.rt app.ids app.identity headers payload = .ok (some c)) :
      Identifies app headers payload c []
  | fresh (c : String) (h : requestedConversation app.rt app.ids app.identity headers payload = .ok none) :
      Identifies app headers payload c [⟨.uuid4, c⟩]

inductive Handles [Score F] (app : ProxyApp F) (request : ChatRequest) : ChatTrace F → Except ChatError ApiResponse → Prop
  | malformed {message : String} (h : acceptedPayload request.body = .error message) :
      Handles app request [] (.ok (invalidRequest app.rt "invalid_request_body" message none 400 []))
  | unnamed {payload : Fields} {message : String} (h : acceptedPayload request.body = .ok payload)
      (hid : requestedConversation app.rt app.ids app.identity request.headers payload = .error message) :
      Handles app request [] (.ok (invalidRequest app.rt "invalid_conversation_id" message none 400 []))
  | served {payload : Fields} {c : String} {start rest : ChatTrace F} {outcome : Except ChatError ApiResponse}
      (h : acceptedPayload request.body = .ok payload)
      (hid : Identifies app request.headers payload c start)
      (hserve : Serves app c (pop payload "conversation_id") rest outcome) :
      Handles app request (start ++ rest) outcome

/-! ### The stages -/

variable {app : ProxyApp F} {store : Bool} {c : String} {messages : List Message} {payload sent : Fields}
  {message : Json} {metadata : Option Fields} {trace : ChatTrace F} {outcome : Except ChatError ApiResponse}

theorem persistsInbound_of_runs {outcome : Except ChatError Inbound}
    (h : (persistInbound store c messages).Runs trace outcome) : PersistsInbound store c messages trace outcome := by
  unfold persistInbound at h
  cases store with
  | false =>
    obtain ⟨rfl, rfl⟩ := runs_pure.mp h
    exact .off rfl
  | true =>
    obtain ⟨ensured, rest, rfl, hrest⟩ := runs_send_bind.mp h
    cases ensured with
    | error failure =>
      obtain ⟨rfl, rfl⟩ := runs_ofExcept.mp hrest
      exact .unensured rfl failure
    | ok _ =>
      obtain ⟨reconciled, last, rfl, hlast⟩ := runs_send_bind.mp hrest
      cases reconciled with
      | error failure =>
        obtain ⟨rfl, rfl⟩ := runs_ofExcept.mp hlast
        exact .unreconciled rfl failure
      | ok _ =>
        obtain ⟨rfl, rfl⟩ := runs_pure.mp hlast
        exact .stored rfl

theorem retrieves_of_runs {outcome : Except ChatError (List (RetrievedItem F))}
    (h : (retrieveContext app c messages).Runs trace outcome) : Retrieves app c messages trace outcome := by
  unfold retrieveContext at h
  cases hquery : extractRetrievalQuery app.rt (messages.map .obj) with
  | error error =>
    rw [hquery] at h
    obtain ⟨rfl, rfl⟩ := runs_raise.mp h
    exact .unread hquery
  | ok query =>
    rw [hquery] at h
    change Runs (if app.memory && query ≠ "" then _ else _) trace outcome at h
    split at h
    next hon =>
      obtain ⟨answer, rest, rfl, hrest⟩ := runs_send_bind.mp h
      obtain ⟨rfl, rfl⟩ := runs_ofExcept.mp hrest
      exact .asked hquery (by simpa using hon) answer
    next hoff =>
      obtain ⟨rfl, rfl⟩ := runs_pure.mp h
      exact .skipped hquery (by simpa [imp_iff_not_or] using hoff)

theorem assembles_of_runs [Score F] {tools : List Json} {outcome : Except ChatError (Except String (List Message))}
    (h : (assembleContext app c messages tools).Runs trace outcome) : Assembles app c messages tools trace outcome := by
  unfold assembleContext at h
  split at h
  next engine hengine =>
    obtain ⟨retrieved, hretrieve, rfl⟩ := runs_bind_ofExcept.mp h
    exact .engine hengine (retrieves_of_runs hretrieve)
  next hengine =>
    obtain ⟨rfl, rfl⟩ := runs_ofExcept.mp h
    exact .window hengine

theorem persists_of_runs {outcome : Except ChatError Unit}
    (h : (persistAssistant app store c messages message metadata).Runs trace outcome) :
    Persists app store c messages message metadata trace outcome := by
  unfold persistAssistant at h
  obtain ⟨_, rest, rfl, hrest⟩ := runs_send_bind.mp h
  split at hrest
  next hskip =>
    obtain ⟨rfl, rfl⟩ := runs_pure.mp hrest
    exact .skipped (by simpa using hskip)
  next hstore =>
    have hon : store = true ∧ message ≠ .null := by simpa using hstore
    obtain ⟨reconciled, last, rfl, hlast⟩ := runs_send_bind.mp hrest
    cases reconciled with
    | error failure =>
      obtain ⟨rfl, rfl⟩ := runs_ofExcept.mp hlast
      exact .failed hon failure
    | ok _ =>
      change (indexMemory app c).Runs last outcome at hlast
      unfold indexMemory at hlast
      split at hlast
      next hoff =>
        obtain ⟨rfl, rfl⟩ := runs_pure.mp hlast
        exact .unindexed hon (by simpa using hoff)
      next hindex =>
        obtain ⟨answer, final, rfl, hfinal⟩ := runs_send_bind.mp hlast
        obtain ⟨rfl, rfl⟩ := runs_ofExcept.mp hfinal
        exact .indexed hon (by simpa using hindex) answer

theorem answers_of_runs_buffered (hstream : get payload "stream" ≠ .bool true)
    (h : (answerBuffered app store c (messagesOf payload) sent).Runs trace outcome) :
    Answers app store c payload sent trace outcome := by
  unfold answerBuffered at h
  obtain ⟨completed, rest, rfl, hrest⟩ := runs_send_bind.mp h
  cases completed with
  | error raised =>
    obtain ⟨rfl, rfl⟩ := runs_ofExcept.mp hrest
    exact .refused hstream raised
  | ok completed =>
    obtain ⟨status, headers, body⟩ := completed
    cases hanswer : bufferedAnswer app status body with
    | none =>
      simp only [hanswer] at hrest
      obtain ⟨rfl, rfl⟩ := runs_pure.mp hrest
      exact .unparsed hstream status headers body hanswer
    | some answer =>
      obtain ⟨message, metadata⟩ := answer
      simp only [hanswer] at hrest
      rcases runs_bind.mp hrest with ⟨error, hpersist, rfl⟩ | ⟨_, front, back, hpersist, hback, rfl⟩
      · exact .buffered hstream status headers body hanswer (persists_of_runs hpersist)
      · obtain ⟨rfl, rfl⟩ := runs_pure.mp hback
        rw [List.append_nil]
        exact .buffered hstream status headers body hanswer (persists_of_runs hpersist)

theorem plays_of_runs {playback : Playback} {outcome : Except ChatError ResponseContent}
    (h : (streamContent app store c messages playback).Runs trace outcome) :
    (streamedAnswer app playback = none ∧ trace = [] ∧ outcome = .ok (played app playback .returns)) ∨
      ∃ message metadata persisted, streamedAnswer app playback = some (message, metadata) ∧
        Persists app store c messages message (some metadata) trace persisted ∧
          outcome = .ok (played app playback (finishOutcome persisted)) := by
  unfold streamContent at h
  cases hanswer : streamedAnswer app playback with
  | none =>
    simp only [hanswer] at h
    obtain ⟨rfl, rfl⟩ := runs_pure.mp h
    exact .inl ⟨rfl, rfl, rfl⟩
  | some answer =>
    obtain ⟨message, metadata⟩ := answer
    simp only [hanswer] at h
    obtain ⟨persisted, front, back, hpersist, hback, rfl⟩ := runs_attempt_bind.mp h
    obtain ⟨rfl, rfl⟩ := runs_pure.mp hback
    rw [List.append_nil]
    exact .inr ⟨message, metadata, persisted, rfl, persists_of_runs hpersist, rfl⟩

theorem answers_of_runs_streaming (hstream : get payload "stream" = .bool true)
    (h : (answerStreaming app store c (messagesOf payload) sent).Runs trace outcome) :
    Answers app store c payload sent trace outcome := by
  unfold answerStreaming at h
  obtain ⟨opened, rest, rfl, hrest⟩ := runs_send_bind.mp h
  cases opened with
  | error raised =>
    obtain ⟨rfl, rfl⟩ := runs_ofExcept.mp hrest
    exact .unopened hstream raised
  | ok head =>
    obtain ⟨playback, last, rfl, hlast⟩ := runs_send_bind.mp hrest
    cases playback with
    | none =>
      obtain ⟨rfl, rfl⟩ := runs_pure.mp hlast
      exact .unread hstream head
    | some playback =>
      rcases runs_bind.mp hlast with ⟨error, hcontent, rfl⟩ | ⟨content, front, back, hcontent, hback, rfl⟩
      · rcases plays_of_runs hcontent with ⟨-, -, herror⟩ | ⟨_, _, _, -, -, herror⟩ <;> cases herror
      · obtain ⟨rfl, rfl⟩ := runs_pure.mp hback
        rw [List.append_nil]
        rcases plays_of_runs hcontent with ⟨hanswer, rfl, hok⟩ | ⟨message, metadata, persisted, hanswer, hpersist, hok⟩
        · obtain rfl := Except.ok.inj hok
          exact .broken hstream head playback hanswer
        · obtain rfl := Except.ok.inj hok
          exact .streamed hstream head playback hanswer hpersist

theorem proceeds_of_runs [Score F] {inbound : Inbound} (h : (proceedWith app c payload inbound).Runs trace outcome) :
    Proceeds app c payload inbound trace outcome := by
  cases inbound with
  | conflict message =>
    obtain ⟨rfl, rfl⟩ := runs_pure.mp h
    exact .conflict message
  | proceed store =>
    rcases runs_bind.mp h with ⟨error, hplan, rfl⟩ | ⟨planned, assembly, last, hplan, hlast, rfl⟩
    · exact .unplanned store (assembles_of_runs hplan)
    cases planned with
    | error message =>
      obtain ⟨rfl, rfl⟩ := runs_pure.mp hlast
      rw [List.append_nil]
      exact .overflow store (assembles_of_runs hplan)
    | ok messages =>
      refine .answered (assembles_of_runs hplan) ?_
      change (answer app store c payload messages).Runs last outcome at hlast
      unfold answer at hlast
      split at hlast
      next hstream => exact answers_of_runs_streaming hstream hlast
      next hstream => exact answers_of_runs_buffered hstream hlast

theorem serves_of_runs [Score F] (h : (serveConversation app c payload).Runs trace outcome) :
    Serves app c payload trace outcome := by
  rcases runs_bind.mp h with ⟨error, hinbound, rfl⟩ | ⟨inbound, front, back, hinbound, hback, rfl⟩
  · exact .unpersisted (persistsInbound_of_runs hinbound)
  · exact .proceeds (persistsInbound_of_runs hinbound) (proceeds_of_runs hback)

section Handler

variable [Score F] {app : ProxyApp F} {request : ChatRequest} {payload : Fields}

theorem chatCompletions_of_malformed {message : String} (h : acceptedPayload request.body = .error message) :
    chatCompletions app request = pure (invalidRequest app.rt "invalid_request_body" message none 400 []) := by
  rw [chatCompletions, h]

theorem chatCompletions_of_unnamed {message : String} (h : acceptedPayload request.body = .ok payload)
    (hid : requestedConversation app.rt app.ids app.identity request.headers payload = .error message) :
    chatCompletions app request = pure (invalidRequest app.rt "invalid_conversation_id" message none 400 []) := by
  simp only [chatCompletions, h, hid]

theorem chatCompletions_of_named {c : String} (h : acceptedPayload request.body = .ok payload)
    (hid : requestedConversation app.rt app.ids app.identity request.headers payload = .ok (some c)) :
    chatCompletions app request = serveConversation app c (pop payload "conversation_id") := by
  simp only [chatCompletions, h, hid]

theorem chatCompletions_of_fresh (h : acceptedPayload request.body = .ok payload)
    (hid : requestedConversation app.rt app.ids app.identity request.headers payload = .ok none) :
    chatCompletions app request = send ChatCall.uuid4 >>= fun c =>
      serveConversation app c (pop payload "conversation_id") := by
  simp only [chatCompletions, h, hid]

/-- Every run of the handler has one of the shapes. -/
theorem handles_of_runs {trace : ChatTrace F} {outcome : Except ChatError ApiResponse}
    (h : (chatCompletions app request).Runs trace outcome) : Handles app request trace outcome := by
  cases haccepted : acceptedPayload request.body with
  | error message =>
    rw [chatCompletions_of_malformed haccepted] at h
    obtain ⟨rfl, rfl⟩ := runs_pure.mp h
    exact .malformed haccepted
  | ok payload =>
    cases hid : requestedConversation app.rt app.ids app.identity request.headers payload with
    | error message =>
      rw [chatCompletions_of_unnamed haccepted hid] at h
      obtain ⟨rfl, rfl⟩ := runs_pure.mp h
      exact .unnamed haccepted hid
    | ok requested =>
      cases requested with
      | some c =>
        rw [chatCompletions_of_named haccepted hid] at h
        exact .served haccepted (.named hid) (serves_of_runs h)
      | none =>
        rw [chatCompletions_of_fresh haccepted hid] at h
        obtain ⟨c, rest, rfl, hrest⟩ := runs_send_bind.mp h
        exact .served haccepted (.fresh c hid) (serves_of_runs hrest)

end Handler

end Shapes

/-! ### A run on fixed inputs -/

def plainApp : ProxyApp ℚ where
  rt := plainRuntime
  ids := { uuid := plainUuid, uuid5 := id, texts := ⟨id⟩ }
  loads := fun _ => .value (.obj [("choices", .arr [.obj [("message", .obj (textMessage "assistant" "Hi."))]])])
  loadsEvent := fun _ => .malformed
  identity := {}
  store := true
  memory := false
  engine := none
  usableBudgetTokens := 1000
  pinnedBudgetTokens := 0
  autoIndex := false
  maxCaptureBytes := 1000

def helloPayload : Fields := [("model", .str "m"), ("messages", .arr [.obj (textMessage "user" "Hello.")])]

def helloRequest : ChatRequest where
  headers := []
  body := .ok (.obj helloPayload)

def plainAnswers {F : Type} : ∀ call, ChatAnswer F call
  | .uuid4 => "c"
  | .ensureConversation _ => .ok ()
  | .reconcileHistory .. => .ok ()
  | .retrieve .. => .ok []
  | .complete _ => .ok (200, [], [])
  | .openStream _ => .error (.upstreamUnavailable "")
  | .readStream => none
  | .recordTokens _ => ()
  | .indexCompletedTurns _ => .ok 0

def helloRun : ChatTrace ℚ × Except ChatError ApiResponse := (chatCompletions plainApp helloRequest).play plainAnswers

theorem runs_helloRun : (chatCompletions plainApp helloRequest).Runs helloRun.1 helloRun.2 := runs_play plainAnswers _

theorem accepted_helloPayload : acceptedPayload helloRequest.body = .ok helloPayload := rfl

def memoryApp : ProxyApp ℚ := { plainApp with memory := true, engine := some (plainEngine 1000 (by decide)) }

def doorCode : RetrievedItem ℚ :=
  { itemType := .memory, id := "m1", conversationId := "c", kind := "fact", content := "door code 42" }

def memoryAnswers : ∀ call, ChatAnswer ℚ call
  | .retrieve .. => .ok [doorCode]
  | call => plainAnswers call

end ContextProxy
