import ContextProxy.Api.ChatGuard

/-!
# A conversation can be pinned

The response names the conversation of the request in a header, so that a client without an identity can come back to it. A run never touches a second conversation, the response names that one and no other, and a request that presents the name is served under it if the settings allow names of that length (`conversation_pinned`). Only the answers made of an error of the provider carry the provider's headers and no name.
-/

namespace ContextProxy

open Json Prog
open List hiding get

def ChatCall.conversation? : ChatCall → Option String
  | .ensureConversation c | .reconcileHistory c _ _ | .retrieve _ c
  | .indexCompletedTurns c => some c
  | .uuid4 | .complete _ | .openStream _ | .readStream | .recordTokens _ => none

/-! ### Headers -/

theorem filter_setHeader (name value : String) (headers : Headers) :
    (setHeader name value headers).filter (·.1 = name) = [(name, value)] := by
  induction headers with
  | nil => simp [setHeader]
  | cons header headers ih =>
    rw [setHeader]
    split
    next => simp [filter_filter]
    next hname => rw [filter_cons_of_neg (by simpa using hname), ih]

def ApiResponse.Names (response : ApiResponse) (c : String) : Prop :=
  response.headers.filter (·.1 = conversationHeader) = [(conversationHeader, c)]

theorem ApiResponse.names_withHeader (response : ApiResponse) (c : String) :
    (response.withHeader conversationHeader c).Names c := filter_setHeader _ _ _

theorem names_invalidRequest {rt : Runtime} (hlower : rt.lower "X-Conversation-ID" = conversationHeader)
    (code message c : String) (param : Option String) (status : ℕ) :
    (invalidRequest rt code message param status [("X-Conversation-ID", c)]).Names c := by
  simp [ApiResponse.Names, invalidRequest, openaiError, initHeaders, hlower, conversationHeader]

section Pinned

variable {F : Type}

/-! ### One run, one conversation -/

/-- The calls are about no other conversation. -/
def Within (c : String) (trace : ChatTrace F) : Prop :=
  ∀ event ∈ trace, ∀ other, event.1.conversation? = some other → other = c

variable {app : ProxyApp F} {c : String} {payload : Fields} {trace : ChatTrace F}
variable {store : Bool} {sent : Fields} {messages : List Message} {outcome : Except ChatError ApiResponse}
  {response : ApiResponse}

theorem Within.append {front back : ChatTrace F} (hfront : Within c front) (hback : Within c back) :
    Within c (front ++ back) := forall_mem_append.mpr ⟨hfront, hback⟩

variable {headers : Headers}

theorem Identifies.within (h : Identifies app headers payload c trace) : Within c trace := by
  cases h with
  | _ => simp [Within, ChatCall.conversation?]

theorem PersistsInbound.within {outcome : Except ChatError Inbound}
    (h : PersistsInbound store c messages trace outcome) : Within c trace := by
  cases h with
  | _ => simp [Within, ChatCall.conversation?]

theorem Assembles.within [Score F] {tools : List Json} {outcome : Except ChatError (Except String (List Message))}
    (h : Assembles app c messages tools trace outcome) : Within c trace := by
  cases h with
  | window => exact forall_mem_nil _
  | engine _ hretrieve =>
    cases hretrieve with
    | _ => simp [Within, ChatCall.conversation?]

theorem Persists.within {message : Json} {metadata : Option Fields} {outcome : Except ChatError Unit}
    (h : Persists app store c messages message metadata trace outcome) : Within c trace := by
  cases h with
  | _ => simp [Within, ChatCall.conversation?]

theorem Answers.within (h : Answers app store c payload sent trace outcome) : Within c trace := by
  cases h with
  | refused | unparsed | unopened | unread | broken => simp [Within, ChatCall.conversation?]
  | buffered _ _ _ _ _ hpersist => exact forall_mem_cons.mpr ⟨by simp [ChatCall.conversation?], hpersist.within⟩
  | streamed _ _ _ _ hpersist =>
    refine forall_mem_cons.mpr ⟨by simp [ChatCall.conversation?], ?_⟩
    exact forall_mem_cons.mpr ⟨by simp [ChatCall.conversation?], hpersist.within⟩

/-! ### What the response names -/

def UpstreamFailed (app : ProxyApp F) (trace : ChatTrace F) (response : ApiResponse) : Prop :=
  ∃ event ∈ trace, ∃ sent raised, (event = ⟨.complete sent, .error raised⟩ ∨ event = ⟨.openStream sent, .error raised⟩) ∧
    upstreamFailed app raised = .ok response

theorem UpstreamFailed.mono {trace' : ChatTrace F} (h : UpstreamFailed app trace response) (hsubset : trace ⊆ trace') :
    UpstreamFailed app trace' response := by
  obtain ⟨event, hevent, h⟩ := h
  exact ⟨event, hsubset hevent, h⟩

theorem Answers.names (h : Answers app store c payload sent trace outcome) (hok : outcome = .ok response) :
    UpstreamFailed app trace response ∨ response.Names c := by
  cases h with
  | refused _ raised => exact .inl ⟨_, .head _, sent, raised, .inl rfl, hok⟩
  | unopened _ raised => exact .inl ⟨_, .head _, sent, raised, .inr rfl, hok⟩
  | @buffered _ status headers body _ _ _ _ persisted _ =>
    cases persisted with
    | error => cases hok
    | ok =>
      obtain rfl := Except.ok.inj hok
      exact .inr (ApiResponse.names_withHeader _ _)
  | unparsed | unread | broken | streamed =>
    obtain rfl := Except.ok.inj hok
    exact .inr (ApiResponse.names_withHeader _ _)

theorem Serves.within [Score F] (h : Serves app c payload trace outcome) : Within c trace := by
  cases h with
  | unpersisted hinbound => exact hinbound.within
  | proceeds hinbound hproceed =>
    apply hinbound.within.append
    cases hproceed with
    | conflict => exact forall_mem_nil _
    | unplanned _ hplan => exact hplan.within
    | overflow _ hplan => exact hplan.within
    | answered hplan hanswer => exact hplan.within.append hanswer.within

theorem Serves.names [Score F] (hlower : app.rt.lower "X-Conversation-ID" = conversationHeader)
    (h : Serves app c payload trace outcome) (hok : outcome = .ok response) :
    UpstreamFailed app trace response ∨ response.Names c := by
  cases h with
  | unpersisted => cases hok
  | proceeds hinbound hproceed =>
    cases hproceed with
    | unplanned => cases hok
    | conflict | overflow =>
      obtain rfl := Except.ok.inj hok
      exact .inr (names_invalidRequest hlower _ _ _ _ _)
    | answered hplan hanswer =>
      refine (hanswer.names hok).imp_left fun hfailed => hfailed.mono ?_
      rw [← append_assoc]
      exact subset_append_right _ _

/-! ### Coming back -/

/-- A name that `uuid.UUID` reads and prints as it is. -/
structure ProxyApp.Printed (app : ProxyApp F) (c : String) : Prop where
  nonempty : c ≠ ""
  printed : app.ids.uuid.python c = some c

/-- What `uuid.UUID` has read and what `uuid5` returns is in the printed form. -/
structure ProxyApp.PrintsIds (app : ProxyApp F) : Prop where
  read : ∀ raw c, app.ids.uuid.python raw = some c → app.Printed c
  session : ∀ token, app.Printed (app.ids.uuid5 token)

/-- The request names the conversation, in its body or, if that names none, in its headers. -/
def Presents (app : ProxyApp F) (request : ChatRequest) (payload : Fields) (c : String) : Prop :=
  get payload "conversation_id" = .str c ∨
    (truthy (get payload "conversation_id") = false ∧
      getHeader app.rt request.headers conversationHeader = some c)

variable {request : ChatRequest}

theorem requestedConversation_of_presents (hid : app.Printed c) (h : Presents app request payload c) :
    requestedConversation app.rt app.ids app.identity request.headers payload =
      (validatedExplicitId app.ids.uuid app.ids.texts app.identity.maxSessionIdentityChars (.str c)).map some := by
  have hexplicit : explicitId app.rt request.headers payload = some (.str c) := by
    rw [explicitId]
    rcases h with hbody | ⟨hbody, hheader⟩
    · rw [hbody, if_pos (by simpa [truthy] using hid.nonempty)]
    · rw [hbody, if_neg (by decide), hheader]
      rfl
  rw [requestedConversation, hexplicit]

theorem requestedConversation_of_short (hid : app.Printed c) (h : Presents app request payload c)
    (hshort : c.length ≤ app.identity.maxSessionIdentityChars) :
    requestedConversation app.rt app.ids app.identity request.headers payload = .ok (some c) := by
  rw [requestedConversation_of_presents hid h, validatedExplicitId, if_neg, hid.printed]
  · rfl
  · exact not_or.mpr ⟨hid.nonempty, Nat.not_lt.mpr hshort⟩

theorem exists_requestedConversation_of_long (hid : app.Printed c) (h : Presents app request payload c)
    (hlong : app.identity.maxSessionIdentityChars < c.length) :
    ∃ message, requestedConversation app.rt app.ids app.identity request.headers payload = .error message := by
  rw [requestedConversation_of_presents hid h, validatedExplicitId, if_pos (.inr hlong)]
  exact ⟨_, rfl⟩

theorem ProxyApp.PrintsIds.printed_of_requested (hids : app.PrintsIds)
    (h : requestedConversation app.rt app.ids app.identity headers payload = .ok (some c)) : app.Printed c := by
  rw [requestedConversation] at h
  split at h
  next raw hraw =>
    cases hvalid : validatedExplicitId app.ids.uuid app.ids.texts app.identity.maxSessionIdentityChars raw with
    | error => rw [hvalid] at h; cases h
    | ok =>
      rw [hvalid] at h
      obtain rfl := Option.some.inj (Except.ok.inj h)
      cases raw with
      | str raw => exact hids.read raw _ (read_of_validatedExplicitId hvalid)
      | _ => cases hvalid
  next =>
    split at h
    next token _ =>
      rw [sessionConversationId] at h
      split at h
      · cases h
      · obtain rfl := Option.some.inj (Except.ok.inj h)
        exact hids.session _
    next => cases h

/-- The request has no payload that is accepted, or no conversation can be made out for it. -/
def Malformed (app : ProxyApp F) (request : ChatRequest) : Prop :=
  match acceptedPayload request.body with
  | .error _ => True
  | .ok payload => (requestedConversation app.rt app.ids app.identity request.headers payload).isOk = false

/-- A run is about one conversation, however it ends. A malformed request is answered with 400 and without a name. Otherwise the response names the conversation, and only it, unless the provider fails. Who presents that name is served under it, provided that it is as short as the settings ask of a client's identity. -/
theorem conversation_pinned [Score F] (hids : app.PrintsIds) (hlower : app.rt.lower "X-Conversation-ID" = conversationHeader)
    {request : ChatRequest} {outcome : Except ChatError ApiResponse} (h : (chatCompletions app request).Runs trace outcome)
    (hfresh : ∀ c, ⟨.uuid4, c⟩ ∈ trace → app.Printed c) :
    (Malformed app request ∧ trace = [] ∧ ∃ response, outcome = .ok response ∧ response.status = 400 ∧
        ∀ c, ¬ response.Names c) ∨
      ∃ c, Within c trace ∧
        (∀ response, outcome = .ok response → UpstreamFailed app trace response ∨ response.Names c) ∧
        ∀ later payload, acceptedPayload later.body = .ok payload → Presents app later payload c →
          (c.length ≤ app.identity.maxSessionIdentityChars →
            chatCompletions app later = serveConversation app c (pop payload "conversation_id")) ∧
          (app.identity.maxSessionIdentityChars < c.length → Malformed app later) := by
  cases handles_of_runs h with
  | malformed hbody =>
    refine .inl ⟨by simp [Malformed, hbody], rfl, _, rfl, rfl, fun c => ?_⟩
    simp [ApiResponse.Names, invalidRequest, openaiError, initHeaders, conversationHeader]
  | unnamed hbody hid =>
    refine .inl ⟨by simp [Malformed, hbody, hid, Except.isOk, Except.toBool], rfl, _, rfl, rfl, fun c => ?_⟩
    simp [ApiResponse.Names, invalidRequest, openaiError, initHeaders, conversationHeader]
  | @served payload c start rest _ haccepted hid hserve =>
    have hprinted : app.Printed c := by
      cases hid with
      | named hid => exact hids.printed_of_requested hid
      | fresh => exact hfresh c (mem_append_left _ (.head _))
    refine .inr ⟨c, hid.within.append hserve.within, ?_, ?_⟩
    · intro response hok
      exact (hserve.names hlower hok).imp_left fun hfailed => hfailed.mono (subset_append_right _ _)
    · intro later payload haccepted hpresents
      refine ⟨fun hshort => ?_, fun hlong => ?_⟩
      · exact chatCompletions_of_named haccepted (requestedConversation_of_short hprinted hpresents hshort)
      · obtain ⟨message, hrefused⟩ := exists_requestedConversation_of_long hprinted hpresents hlong
        simp [Malformed, haccepted, hrefused, Except.isOk, Except.toBool]

end Pinned

def hexApp : ProxyApp ℚ :=
  { plainApp with
    rt := { plainRuntime with lower := String.toLower }
    ids := { uuid := hexReader.toUuidText, uuid5 := fun _ => printedId, texts := ⟨id⟩ } }

theorem hexApp_printed {raw c : String} (h : hexReader.python raw = some c) : hexApp.Printed c := by
  have hprinted := (hexReader_printed raw c h).1
  rw [hexReader_python] at h
  obtain ⟨-, digits, hdigits, rfl⟩ := Uuid.read_eq_some h
  refine ⟨fun hempty => ?_, hprinted⟩
  have hlength : (Uuid.print digits).length = 36 := Uuid.length_print hdigits
  rw [hempty] at hlength
  cases hlength

theorem hexApp_printsIds : hexApp.PrintsIds :=
  ⟨fun _ _ h => hexApp_printed h, fun _ => hexApp_printed read_printedId⟩

def pinnedRequest : ChatRequest := { helloRequest with headers := [(conversationHeader, printedId)] }

def pinnedRun : ChatTrace ℚ × Except ChatError ApiResponse :=
  (serveConversation hexApp printedId helloPayload).play plainAnswers

theorem runs_pinnedRun : (chatCompletions hexApp pinnedRequest).Runs pinnedRun.1 pinnedRun.2 := by
  have hpresents : Presents hexApp pinnedRequest helloPayload printedId := .inr ⟨rfl, by decide +kernel⟩
  have haccepted : acceptedPayload pinnedRequest.body = .ok helloPayload := accepted_helloPayload
  rw [chatCompletions_of_named haccepted
    (requestedConversation_of_short (hexApp_printed read_printedId) hpresents (by decide +kernel))]
  exact runs_play plainAnswers _

/-- A greeting that is answered can be followed up. -/
theorem conversation_pinned_hello : ∃ c, Within c pinnedRun.1 ∧
    (∃ response, pinnedRun.2 = .ok response ∧ (UpstreamFailed hexApp pinnedRun.1 response ∨ response.Names c)) ∧
      (c.length ≤ 128 → ∀ later payload, acceptedPayload later.body = .ok payload →
        Presents hexApp later payload c →
          chatCompletions hexApp later = serveConversation hexApp c (pop payload "conversation_id")) := by
  have hfresh : ∀ c, ⟨.uuid4, c⟩ ∈ pinnedRun.1 → hexApp.Printed c := by
    intro c hmem
    have hcall : ∀ event ∈ pinnedRun.1, event.1 ≠ .uuid4 := by
      iterate 5 refine forall_mem_cons.mpr ⟨nofun, ?_⟩
      exact forall_mem_nil _
    exact absurd rfl (hcall _ hmem)
  rcases conversation_pinned hexApp_printsIds (by decide +kernel) runs_pinnedRun hfresh with
    ⟨-, hnil, -⟩ | ⟨c, hwithin, hnames, hlater⟩
  · cases hnil
  · obtain ⟨response, hresponse⟩ : ∃ response, pinnedRun.2 = .ok response := ⟨_, rfl⟩
    exact ⟨c, hwithin, ⟨response, hresponse, hnames response hresponse⟩,
      fun hshort later payload haccepted hpresents => (hlater later payload haccepted hpresents).1 hshort⟩

end ContextProxy
