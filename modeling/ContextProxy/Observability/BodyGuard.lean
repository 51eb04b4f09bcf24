import ContextProxy.Observability.RateLimiter
import Mathlib.Data.Seq.Basic

/-!
# The guard on request bodies

`ObservabilityMiddleware` stands between the server and the application. A request that declares its length is refused at once if that is over the cap. One without a length is drained first: its messages are read into a buffer until the body is complete, and the application reads them from there before it reads on from the server.

The server is a sequence of messages that may end, where another `receive` would wait forever, or not. A call is a state with a deterministic step, a `receive` of the middleware or of the application, and what was taken from the server is recorded.
-/

namespace ContextProxy

open List

/-! ### Messages -/

inductive AsgiType where
  | httpRequest
  | httpDisconnect
  | other (name : String)
  deriving DecidableEq, Repr

/-- A message of the server; a key that is missing is `none`. -/
structure AsgiMessage where
  type : AsgiType
  body : Option (List UInt8) := none
  moreBody : Option Bool := none
  deriving DecidableEq, Repr

namespace AsgiMessage

variable (message : AsgiMessage)

/-- `len(message.get("body") or b"")`. -/
def size : ℕ := (message.body.getD []).length

def isRequest : Bool := message.type = .httpRequest

def isDisconnect : Bool := message.type = .httpDisconnect

/-- The end of a body: a request message without `more_body`. -/
def isFinal : Bool := message.isRequest && !message.moreBody.getD false

end AsgiMessage

def requestMessages (messages : List AsgiMessage) : List AsgiMessage := messages.filter (·.isRequest)

def bodyBytes (messages : List AsgiMessage) : ℕ := ((requestMessages messages).map (·.size)).sum

/-! ### Before the body -/

inductive ScopeType where
  | http
  | other (name : String)
  deriving DecidableEq, Repr

/-- The scope of a call, with the bytes of headers as Latin-1 text. -/
structure Scope where
  type : ScopeType
  path : String := ""
  headers : List (String × String) := []
  client : Option String := none

/-- `_header`: the first one of exactly that name. -/
def Scope.header (scope : Scope) (name : String) : Option String :=
  (scope.headers.find? (·.1 = name)).map Prod.snd

def Scope.clientHost (scope : Scope) : String := scope.client.getD "unknown"

def routeAliases : List String := ["/v1/chat/completions", "/v1/models", "/metrics", "/healthz", "/readyz"]

/-- `normalize_route`; an alias is its own template. -/
def normalizeRoute (path : String) : String :=
  match routeAliases.find? fun stem => path = stem || path.startsWith (stem ++ "/") with
  | some stem => stem
  | none =>
    if path.startsWith "/internal/v1/conversations/" then "/internal/v1/conversations/\x7bid\x7d"
    else if path.startsWith "/internal/v1/memories/" then "/internal/v1/memories/\x7bid\x7d"
    else if path.startsWith "/internal/v1" then "/internal/v1/*"
    else "other"

def rateLimitExemptRoutes : List String := ["/healthz", "/readyz", "/metrics"]

structure ErrorResponse where
  status : ℕ
  code : String
  message : String
  errType : String
  retryAfter : Option String
  deriving DecidableEq, Repr

def errorResponse (status : ℕ) (code message : String) (errType retryAfter : Option String) : ErrorResponse where
  status
  code
  message
  errType := errType.getD (if status < 500 then "invalid_request_error" else "api_error")
  retryAfter

/-- `str.isdigit`, which in Latin-1 accepts the superscripts too. -/
def isDigitText (text : String) : Bool :=
  text ≠ "" && text.toList.all fun c => c.isDigit || ['¹', '²', '³'].contains c

/-- `int` of such a text: it raises on superscripts and on more than 4300 digits. -/
def parseLength (text : String) : Option ℕ :=
  if text.toList.all Char.isDigit && text.length ≤ 4300 then
    some (text.toList.foldl (fun value c => 10 * value + (c.toNat - '0'.toNat)) 0)
  else none

/-- What the middleware is made with. The settings hold the cap to be positive. -/
structure ObservabilityMiddleware where
  maxBodyBytes : ℕ := 8 * 1024 * 1024
  rateLimiter : Option RateLimiter := none
  rateLimitEnabled : Bool := false

inductive Preflight where
  | forward
  | drain
  | reject (response : ErrorResponse)
  | raise
  deriving DecidableEq, Repr

inductive GuardPhase where
  | draining (buffered : List AsgiMessage) (total : ℕ)
  | serving (queue : List AsgiMessage)
  | answered (response : ErrorResponse)
  | disconnected
  | raised
  deriving DecidableEq, Repr

/-- A call, with the messages the server has not delivered yet, those that were taken from it, and those the application has received. -/
structure CallState where
  phase : GuardPhase
  source : Stream'.Seq AsgiMessage
  consumed : List AsgiMessage
  received : List AsgiMessage

namespace ObservabilityMiddleware

variable (middleware : ObservabilityMiddleware)

def tooLarge : ErrorResponse :=
  errorResponse 413 "request_too_large" ("request body exceeds " ++ toString middleware.maxBodyBytes ++ " bytes") none none

def rateLimited (decision : AdmissionDecision) : ErrorResponse :=
  errorResponse 429 "rate_limit_exceeded" "rate limit exceeded" (some "rate_limit_error")
    (some (toString decision.retryAfter))

def checkLength : Option String → Option Preflight
  | none => none
  | some text =>
    if isDigitText text then
      match parseLength text with
      | none => some .raise
      | some length => if middleware.maxBodyBytes < length then some (.reject middleware.tooLarge) else none
    else none

def admission (scope : Scope) (now : ℚ) (st : LimiterState) : Option AdmissionDecision × LimiterState :=
  match middleware.rateLimitEnabled, middleware.rateLimiter with
  | true, some limiter =>
    if rateLimitExemptRoutes.contains (normalizeRoute scope.path) then (none, st)
    else
      let (decision, st) := limiter.admitRequest scope.clientHost (scope.header "x-conversation-id") now st
      (some decision, st)
  | _, _ => (none, st)

def Admits (scope : Scope) (now : ℚ) (st : LimiterState) : Prop :=
  ∀ decision ∈ (middleware.admission scope now st).1, decision.allowed = true

/-- `__call__` up to the body. -/
def preflight (scope : Scope) (now : ℚ) (st : LimiterState) : Preflight × LimiterState :=
  if scope.type ≠ .http then (.forward, st)
  else
    let contentLength := scope.header "content-length"
    match middleware.checkLength contentLength with
    | some verdict => (verdict, st)
    | none =>
      let (decision, st) := middleware.admission scope now st
      match decision.filter (!·.allowed) with
      | some decision => (.reject (rateLimited decision), st)
      | none => (if contentLength.isNone then .drain else .forward, st)

/-! ### The body -/

/-- `__call__` from the body on: a call that is forwarded reads from the server itself. -/
def start (verdict : Preflight) (source : Stream'.Seq AsgiMessage) : CallState where
  phase := match verdict with
    | .forward => .serving []
    | .drain => .draining [] 0
    | .reject response => .answered response
    | .raise => .raised
  source
  consumed := []
  received := []

/-- One iteration of `_drain_body`. -/
def drainMessage (buffered : List AsgiMessage) (total : ℕ) (message : AsgiMessage) : GuardPhase :=
  match message.type with
  | .httpDisconnect => .disconnected
  | .other _ => .draining buffered total
  | .httpRequest =>
    if middleware.maxBodyBytes < total + message.size then .answered middleware.tooLarge
    else if message.moreBody.getD false then .draining (buffered ++ [message]) (total + message.size)
    else .serving (buffered ++ [message])

/-- One `receive`. While the body is drained it is the middleware's; the application's takes from the queue first, as `_replaying_receive` does. A call that waits for the server stays where it is, and one that is over has no `receive`. -/
def step (call : CallState) : CallState :=
  match call.phase with
  | .draining buffered total =>
    match call.source.destruct with
    | none => call
    | some (message, source) =>
      { call with
        phase := middleware.drainMessage buffered total message, source, consumed := call.consumed ++ [message] }
  | .serving (message :: queue) => { call with phase := .serving queue, received := call.received ++ [message] }
  | .serving [] =>
    match call.source.destruct with
    | none => call
    | some (message, source) =>
      { call with source, consumed := call.consumed ++ [message], received := call.received ++ [message] }
  | .answered _ | .disconnected | .raised => call

def call (scope : Scope) (now : ℚ) (st : LimiterState) (source : Stream'.Seq AsgiMessage) (receives : ℕ) : CallState :=
  middleware.step^[receives] (start (middleware.preflight scope now st).1 source)

end ObservabilityMiddleware

namespace CallState

def Invoked (call : CallState) : Prop := ∃ queue, call.phase = .serving queue

def buffer (call : CallState) : List AsgiMessage :=
  match call.phase with
  | .draining buffered _ => buffered
  | .serving queue => queue
  | _ => []

end CallState

/-- What it means for the guard to be exact, for a call as a function of the number of its `receive`s. -/
structure ExactGuard (middleware : ObservabilityMiddleware) (source : Stream'.Seq AsgiMessage) (call : ℕ → CallState) :
    Prop where
  invoked_iff : (∃ receives, (call receives).Invoked) ↔
    ∃ body final rest, source = (Stream'.Seq.ofList (body ++ [final])).append rest ∧ final.isFinal = true
      ∧ (∀ message ∈ body, message.isDisconnect = false) ∧ bodyBytes (body ++ [final]) ≤ middleware.maxBodyBytes
  received_eq : (∃ receives, (call receives).Invoked) →
    ∃ body final rest, source = (Stream'.Seq.ofList (body ++ [final])).append rest ∧ final.isFinal = true
      ∧ (∀ message ∈ body, message.isFinal = false)
      ∧ ∀ receives, (call (body.length + 1 + receives)).Invoked
        ∧ (call (body.length + 1 + receives)).received
          = ((Stream'.Seq.ofList (requestMessages (body ++ [final]))).append rest).take receives
  source_eq : ∀ receives, source = (Stream'.Seq.ofList (call receives).consumed).append (call receives).source
  not_raised : ∀ receives, (call receives).phase ≠ .raised
  answered : ∀ receives response, (call receives).phase = .answered response →
    response = middleware.tooLarge
    ∧ (∃ body message, (call receives).consumed = body ++ [message] ∧ message.isRequest = true
      ∧ bodyBytes body ≤ middleware.maxBodyBytes ∧ middleware.maxBodyBytes < bodyBytes (body ++ [message]))
    ∧ ∀ more, call (receives + more) = call receives
  disconnected : ∀ receives, (call receives).phase = .disconnected →
    (∃ body message, (call receives).consumed = body ++ [message] ∧ message.isDisconnect = true)
    ∧ ∀ more, call (receives + more) = call receives
  within : ∀ receives, bodyBytes (call receives).buffer ≤ middleware.maxBodyBytes

/-! ### What the messages decide -/

theorem requestMessages_append (front back : List AsgiMessage) :
    requestMessages (front ++ back) = requestMessages front ++ requestMessages back := filter_append front back

theorem bodyBytes_append (front back : List AsgiMessage) : bodyBytes (front ++ back) = bodyBytes front + bodyBytes back := by
  rw [bodyBytes, requestMessages_append, map_append, sum_append, bodyBytes, bodyBytes]

variable {message : AsgiMessage}

theorem requestMessages_append_request (messages : List AsgiMessage) (h : message.isRequest = true) :
    requestMessages (messages ++ [message]) = requestMessages messages ++ [message] := by
  rw [requestMessages_append]
  congr 1
  exact filter_eq_self.mpr (forall_mem_singleton.mpr h)

theorem bodyBytes_append_request (messages : List AsgiMessage) (h : message.isRequest = true) :
    bodyBytes (messages ++ [message]) = bodyBytes messages + message.size := by
  rw [bodyBytes, requestMessages_append_request messages h, map_append, sum_append, map_singleton,
    sum_singleton, bodyBytes]

theorem requestMessages_append_other (messages : List AsgiMessage) (h : message.isRequest = false) :
    requestMessages (messages ++ [message]) = requestMessages messages := by
  rw [requestMessages, filter_append, filter_cons_of_neg (by simp [h]), filter_nil, append_nil,
    requestMessages]

theorem bodyBytes_append_other (messages : List AsgiMessage) (h : message.isRequest = false) :
    bodyBytes (messages ++ [message]) = bodyBytes messages := by
  rw [bodyBytes, requestMessages_append_other messages h, bodyBytes]

theorem bodyBytes_requestMessages (messages : List AsgiMessage) : bodyBytes (requestMessages messages) = bodyBytes messages := by
  rw [bodyBytes, bodyBytes]
  congr 2
  rw [requestMessages, requestMessages, filter_filter]
  simp only [Bool.and_self]

/-- A body that is not complete: no end, no disconnect, and within the cap. -/
structure Drainable (cap : ℕ) (messages : List AsgiMessage) : Prop where
  connected : ∀ message ∈ messages, message.isDisconnect = false
  open_ended : ∀ message ∈ messages, message.isFinal = false
  within : bodyBytes messages ≤ cap

theorem drainable_nil (cap : ℕ) : Drainable cap [] :=
  ⟨forall_mem_nil _, forall_mem_nil _, Nat.zero_le cap⟩

variable {cap : ℕ}

theorem Drainable.of_append {front back : List AsgiMessage} (h : Drainable cap (front ++ back)) :
    Drainable cap front where
  connected message hmem := h.connected message (mem_append_left back hmem)
  open_ended message hmem := h.open_ended message (mem_append_left back hmem)
  within := by
    have hwithin := h.within
    rw [bodyBytes_append] at hwithin
    omega

theorem Drainable.append {body : List AsgiMessage} (h : Drainable cap body) (hconnected : message.isDisconnect = false)
    (hopen : message.isFinal = false) (hwithin : bodyBytes (body ++ [message]) ≤ cap) :
    Drainable cap (body ++ [message]) where
  connected := forall_mem_append.mpr ⟨h.connected, forall_mem_singleton.mpr hconnected⟩
  open_ended := forall_mem_append.mpr ⟨h.open_ended, forall_mem_singleton.mpr hopen⟩
  within := hwithin

theorem Drainable.isRequest_of_lt {body : List AsgiMessage} (h : Drainable cap body)
    (hover : cap < bodyBytes (body ++ [message])) : message.isRequest = true := by
  by_contra hother
  rw [bodyBytes_append_other body (Bool.eq_false_iff.mpr hother)] at hover
  exact absurd h.within (Nat.not_le.mpr hover)

/-- The states a drained call can be in, by what was taken from the server. -/
inductive Reached (middleware : ObservabilityMiddleware) : CallState → Prop where
  | draining {body source} (hbody : Drainable middleware.maxBodyBytes body) :
      Reached middleware ⟨.draining (requestMessages body) (bodyBytes body), source, body, []⟩
  | serving {body final later queue received source} (hbody : Drainable middleware.maxBodyBytes body)
      (hconnected : final.isDisconnect = false) (hfinal : final.isFinal = true)
      (hwithin : bodyBytes (body ++ [final]) ≤ middleware.maxBodyBytes)
      (hreceived : received ++ queue = requestMessages (body ++ [final]) ++ later) (hlater : queue ≠ [] → later = []) :
      Reached middleware ⟨.serving queue, source, body ++ [final] ++ later, received⟩
  | oversized {body message source} (hbody : Drainable middleware.maxBodyBytes body) (hrequest : message.isRequest = true)
      (hover : middleware.maxBodyBytes < bodyBytes (body ++ [message])) :
      Reached middleware ⟨.answered middleware.tooLarge, source, body ++ [message], []⟩
  | disconnected {body message source} (hbody : Drainable middleware.maxBodyBytes body)
      (hgone : message.isDisconnect = true) :
      Reached middleware ⟨.disconnected, source, body ++ [message], []⟩

theorem ofList_snoc_append (front : List AsgiMessage) (message : AsgiMessage) (rest : Stream'.Seq AsgiMessage) :
    (Stream'.Seq.ofList (front ++ [message])).append rest = (Stream'.Seq.ofList front).append (.cons message rest) := by
  rw [Stream'.Seq.ofList_append, Stream'.Seq.append_assoc, Stream'.Seq.ofList_cons, Stream'.Seq.ofList_nil,
    Stream'.Seq.cons_append, Stream'.Seq.nil_append]

section Call

variable {middleware : ObservabilityMiddleware} {body : List AsgiMessage} {call : CallState}
  {source : Stream'.Seq AsgiMessage}

theorem drainMessage_eq (h : Drainable middleware.maxBodyBytes body) (message : AsgiMessage) :
    middleware.drainMessage (requestMessages body) (bodyBytes body) message
      = if message.isDisconnect then .disconnected
        else if middleware.maxBodyBytes < bodyBytes (body ++ [message]) then .answered middleware.tooLarge
        else if message.isFinal then .serving (requestMessages (body ++ [message]))
        else .draining (requestMessages (body ++ [message])) (bodyBytes (body ++ [message])) := by
  rw [ObservabilityMiddleware.drainMessage]
  cases htype : message.type with
  | httpDisconnect => simp [AsgiMessage.isDisconnect, htype]
  | other name =>
    have hrequest : message.isRequest = false := by simp [AsgiMessage.isRequest, htype]
    have hwithin := h.within
    rw [bodyBytes_append_other body hrequest, requestMessages_append_other body hrequest]
    simp [AsgiMessage.isDisconnect, AsgiMessage.isFinal, hrequest, htype, hwithin]
  | httpRequest =>
    have hrequest : message.isRequest = true := by simp [AsgiMessage.isRequest, htype]
    rw [bodyBytes_append_request body hrequest, requestMessages_append_request body hrequest]
    simp only [AsgiMessage.isDisconnect, AsgiMessage.isFinal, hrequest, htype]
    cases message.moreBody.getD false with
    | false => simp
    | true => simp

theorem step_draining (buffered : List AsgiMessage) (total : ℕ) (message : AsgiMessage) (source : Stream'.Seq AsgiMessage)
    (consumed received : List AsgiMessage) :
    middleware.step ⟨.draining buffered total, .cons message source, consumed, received⟩
      = ⟨middleware.drainMessage buffered total message, source, consumed ++ [message], received⟩ := by
  simp only [ObservabilityMiddleware.step, Stream'.Seq.destruct_cons]

theorem step_serving (message : AsgiMessage) (source : Stream'.Seq AsgiMessage) (consumed received : List AsgiMessage) :
    middleware.step ⟨.serving [], .cons message source, consumed, received⟩
      = ⟨.serving [], source, consumed ++ [message], received ++ [message]⟩ := by
  simp only [ObservabilityMiddleware.step, Stream'.Seq.destruct_cons]

theorem step_nil (phase : GuardPhase) (hphase : ∀ message queue, phase ≠ .serving (message :: queue))
    (consumed received : List AsgiMessage) :
    middleware.step ⟨phase, .nil, consumed, received⟩ = ⟨phase, .nil, consumed, received⟩ := by
  cases phase with
  | serving queue =>
    cases queue with
    | nil => simp only [ObservabilityMiddleware.step, Stream'.Seq.destruct_nil]
    | cons message queue => exact absurd rfl (hphase message queue)
  | draining buffered total => simp only [ObservabilityMiddleware.step, Stream'.Seq.destruct_nil]
  | answered response => rfl
  | disconnected => rfl
  | raised => rfl

theorem reached_drainMessage (hbody : Drainable middleware.maxBodyBytes body) (message : AsgiMessage)
    (source : Stream'.Seq AsgiMessage) : Reached middleware
      ⟨middleware.drainMessage (requestMessages body) (bodyBytes body) message, source, body ++ [message], []⟩ := by
  rw [drainMessage_eq hbody]
  split
  · rename_i hgone
    exact .disconnected hbody hgone
  · rename_i hconnected
    rw [Bool.not_eq_true] at hconnected
    split
    · rename_i hover
      exact .oversized hbody (hbody.isRequest_of_lt hover) hover
    · rename_i hwithin
      rw [Nat.not_lt] at hwithin
      split
      · rename_i hfinal
        have hserving : Reached middleware ⟨.serving (requestMessages (body ++ [message])), source,
            body ++ [message] ++ [], []⟩ :=
          .serving hbody hconnected hfinal hwithin (by rw [nil_append, append_nil]) fun _ => rfl
        rwa [append_nil] at hserving
      · rename_i hopen
        rw [Bool.not_eq_true] at hopen
        exact .draining (hbody.append hconnected hopen hwithin)

theorem Reached.step (h : Reached middleware call) : Reached middleware (middleware.step call) := by
  cases h with
  | @draining body source hbody =>
    cases source using Stream'.Seq.recOn with
    | nil =>
      rw [step_nil _ (by simp)]
      exact .draining hbody
    | cons message source =>
      rw [step_draining]
      exact reached_drainMessage hbody message source
  | @serving body final later queue received source hbody hconnected hfinal hwithin hreceived hlater =>
    cases queue with
    | cons message queue =>
      refine .serving hbody hconnected hfinal hwithin ?_ fun _ => hlater (cons_ne_nil _ _)
      rw [append_assoc, singleton_append, hreceived]
    | nil =>
      cases source using Stream'.Seq.recOn with
      | nil =>
        rw [step_nil _ (by simp)]
        exact .serving hbody hconnected hfinal hwithin hreceived hlater
      | cons message source =>
        rw [step_serving, append_assoc _ later]
        refine .serving hbody hconnected hfinal hwithin ?_ fun hne => absurd rfl hne
        rw [append_nil] at hreceived
        rw [append_nil, hreceived, append_assoc]
  | oversized hbody hrequest hover => exact .oversized hbody hrequest hover
  | disconnected hbody hgone => exact .disconnected hbody hgone

theorem reached_drain (middleware : ObservabilityMiddleware) (source : Stream'.Seq AsgiMessage) (receives : ℕ) :
    Reached middleware (middleware.step^[receives] (ObservabilityMiddleware.start .drain source)) := by
  induction receives with
  | zero => exact .draining (drainable_nil _)
  | succ receives ih =>
    rw [Function.iterate_succ_apply']
    exact ih.step

/-- What was taken from the server and what it has left are together what it had. -/
theorem source_step : (Stream'.Seq.ofList (middleware.step call).consumed).append (middleware.step call).source
    = (Stream'.Seq.ofList call.consumed).append call.source := by
  obtain ⟨phase, source, consumed, received⟩ := call
  cases source using Stream'.Seq.recOn with
  | nil =>
    cases phase with
    | serving queue =>
      cases queue with
      | nil => rw [step_nil _ (by simp)]
      | cons message queue => rfl
    | draining buffered total => rw [step_nil _ (by simp)]
    | answered response => rfl
    | disconnected => rfl
    | raised => rfl
  | cons message source =>
    cases phase with
    | serving queue =>
      cases queue with
      | nil =>
        rw [step_serving]
        exact ofList_snoc_append consumed message source
      | cons message queue => rfl
    | draining buffered total =>
      rw [step_draining]
      exact ofList_snoc_append consumed message source
    | answered response => rfl
    | disconnected => rfl
    | raised => rfl

theorem source_iterate (middleware : ObservabilityMiddleware) (call : CallState) (receives : ℕ) :
    (Stream'.Seq.ofList (middleware.step^[receives] call).consumed).append (middleware.step^[receives] call).source
      = (Stream'.Seq.ofList call.consumed).append call.source := by
  induction receives with
  | zero => rfl
  | succ receives ih =>
    rw [Function.iterate_succ_apply', source_step]
    exact ih

/-- A body that is not complete is read message by message. -/
theorem iterate_drain (hbody : Drainable middleware.maxBodyBytes body) (rest : Stream'.Seq AsgiMessage) :
    middleware.step^[body.length] (ObservabilityMiddleware.start .drain ((Stream'.Seq.ofList body).append rest))
      = ⟨.draining (requestMessages body) (bodyBytes body), rest, body, []⟩ := by
  induction body using List.reverseRecOn generalizing rest with
  | nil =>
    rw [Stream'.Seq.ofList_nil, Stream'.Seq.nil_append]
    rfl
  | append_singleton body message ih =>
    have hconnected := hbody.connected message (mem_append_right body (mem_singleton_self message))
    have hopen := hbody.open_ended message (mem_append_right body (mem_singleton_self message))
    rw [length_append, length_singleton, Function.iterate_succ_apply', ofList_snoc_append, ih hbody.of_append,
      step_draining, drainMessage_eq hbody.of_append, if_neg (by simp [hconnected]), if_neg (Nat.not_lt.mpr hbody.within),
      if_neg (by simp [hopen])]

variable {final : AsgiMessage}

theorem iterate_complete (hbody : Drainable middleware.maxBodyBytes body) (hconnected : final.isDisconnect = false)
    (hfinal : final.isFinal = true) (hwithin : bodyBytes (body ++ [final]) ≤ middleware.maxBodyBytes)
    (rest : Stream'.Seq AsgiMessage) :
    middleware.step^[body.length + 1] (ObservabilityMiddleware.start .drain ((Stream'.Seq.ofList (body ++ [final])).append rest))
      = ⟨.serving (requestMessages (body ++ [final])), rest, body ++ [final], []⟩ := by
  rw [Function.iterate_succ_apply', ofList_snoc_append, iterate_drain hbody, step_draining, drainMessage_eq hbody,
    if_neg (by simp [hconnected]), if_neg (Nat.not_lt.mpr hwithin), if_pos hfinal]

/-- The application receives what is in the queue, and then what the server delivers. -/
theorem iterate_serving (queue : List AsgiMessage) (source : Stream'.Seq AsgiMessage) (consumed received : List AsgiMessage)
    (receives : ℕ) : (middleware.step^[receives] ⟨.serving queue, source, consumed, received⟩).Invoked
    ∧ (middleware.step^[receives] ⟨.serving queue, source, consumed, received⟩).received
      = received ++ ((Stream'.Seq.ofList queue).append source).take receives := by
  induction receives generalizing queue source consumed received with
  | zero => exact ⟨⟨queue, rfl⟩, by rw [Stream'.Seq.take_zero, append_nil]; rfl⟩
  | succ receives ih =>
    rw [Function.iterate_succ_apply]
    cases queue with
    | cons message queue =>
      rw [Stream'.Seq.ofList_cons, Stream'.Seq.cons_append, Stream'.Seq.take_succ_cons,
        append_cons received]
      exact ih queue source consumed (received ++ [message])
    | nil =>
      rw [Stream'.Seq.ofList_nil, Stream'.Seq.nil_append]
      cases source using Stream'.Seq.recOn with
      | nil =>
        rw [step_nil _ (by simp), Stream'.Seq.take_nil]
        have hwaiting := ih [] .nil consumed received
        rwa [Stream'.Seq.ofList_nil, Stream'.Seq.nil_append, Stream'.Seq.take_nil] at hwaiting
      | cons message source =>
        rw [step_serving, Stream'.Seq.take_succ_cons, append_cons received message (source.take receives)]
        have hnext := ih [] source (consumed ++ [message]) (received ++ [message])
        rwa [Stream'.Seq.ofList_nil, Stream'.Seq.nil_append] at hnext

theorem Reached.of_serving (h : Reached middleware call) (hinvoked : call.Invoked) :
    ∃ body final later, call.consumed = body ++ [final] ++ later ∧ Drainable middleware.maxBodyBytes body
      ∧ final.isDisconnect = false ∧ final.isFinal = true ∧ bodyBytes (body ++ [final]) ≤ middleware.maxBodyBytes := by
  obtain ⟨queue, hphase⟩ := hinvoked
  cases h with
  | @serving body final later queue received source hbody hconnected hfinal hwithin hreceived hlater =>
    exact ⟨body, final, later, rfl, hbody, hconnected, hfinal, hwithin⟩
  | draining hbody => exact absurd hphase (by simp)
  | oversized hbody hrequest hover => exact absurd hphase (by simp)
  | disconnected hbody hgone => exact absurd hphase (by simp)

theorem Reached.of_answered (h : Reached middleware call) {response : ErrorResponse} (hphase : call.phase = .answered response) :
    response = middleware.tooLarge ∧ middleware.step call = call
      ∧ ∃ body message, call.consumed = body ++ [message] ∧ message.isRequest = true
        ∧ bodyBytes body ≤ middleware.maxBodyBytes ∧ middleware.maxBodyBytes < bodyBytes (body ++ [message]) := by
  cases h with
  | @oversized body message source hbody hrequest hover =>
    exact ⟨(GuardPhase.answered.inj hphase).symm, rfl, body, message, rfl, hrequest, hbody.within, hover⟩
  | draining hbody => exact absurd hphase (by simp)
  | serving hbody => exact absurd hphase (by simp)
  | disconnected hbody hgone => exact absurd hphase (by simp)

theorem Reached.of_disconnected (h : Reached middleware call) (hphase : call.phase = .disconnected) :
    middleware.step call = call ∧ ∃ body message, call.consumed = body ++ [message] ∧ message.isDisconnect = true := by
  cases h with
  | @disconnected body message source hbody hgone => exact ⟨rfl, body, message, rfl, hgone⟩
  | draining hbody => exact absurd hphase (by simp)
  | serving hbody => exact absurd hphase (by simp)
  | oversized hbody hrequest hover => exact absurd hphase (by simp)

theorem Reached.phase_ne_raised (h : Reached middleware call) : call.phase ≠ .raised := by
  cases h with
  | draining hbody => simp
  | serving hbody => simp
  | oversized hbody hrequest hover => simp
  | disconnected hbody hgone => simp

theorem Reached.bodyBytes_buffer_le (h : Reached middleware call) : bodyBytes call.buffer ≤ middleware.maxBodyBytes := by
  cases h with
  | draining hbody =>
    have hwithin := hbody.within
    rwa [← bodyBytes_requestMessages] at hwithin
  | @serving body final later queue received source hbody hconnected hfinal hwithin hreceived hlater =>
    show bodyBytes queue ≤ middleware.maxBodyBytes
    by_cases hqueue : queue = []
    · rw [hqueue]
      exact Nat.zero_le _
    · rw [hlater hqueue, append_nil] at hreceived
      have htotal := congrArg bodyBytes hreceived
      rw [bodyBytes_append, bodyBytes_requestMessages] at htotal
      omega
  | oversized hbody hrequest hover => exact Nat.zero_le _
  | disconnected hbody hgone => exact Nat.zero_le _

/-- Where a body is complete within the cap, it is so at its first end. -/
theorem exists_first_end {cap : ℕ} (hconnected : ∀ message ∈ body, message.isDisconnect = false)
    (hfinal : final.isFinal = true) (hwithin : bodyBytes (body ++ [final]) ≤ cap) :
    ∃ front first back, body ++ [final] = front ++ [first] ++ back ∧ Drainable cap front ∧ first.isDisconnect = false
      ∧ first.isFinal = true ∧ bodyBytes (front ++ [first]) ≤ cap := by
  have hfind : ((body ++ [final]).find? (·.isFinal)).isSome = true :=
    find?_isSome.mpr ⟨final, mem_append_right body (mem_singleton_self final), hfinal⟩
  obtain ⟨first, hfirst⟩ := Option.isSome_iff_exists.mp hfind
  obtain ⟨hend, front, back, hsplit, hfront⟩ := find?_eq_some_iff_append.mp hfirst
  have hgone : final.isDisconnect = false := by
    rw [AsgiMessage.isFinal, AsgiMessage.isRequest, Bool.and_eq_true, decide_eq_true_iff] at hfinal
    simp [AsgiMessage.isDisconnect, hfinal.1]
  have hall : ∀ message ∈ front ++ first :: back, message.isDisconnect = false := by
    rw [← hsplit]
    exact forall_mem_append.mpr ⟨hconnected, forall_mem_singleton.mpr hgone⟩
  rw [hsplit, append_cons, bodyBytes_append] at hwithin
  have hbytes : bodyBytes (front ++ [first]) ≤ cap := by omega
  refine ⟨front, first, back, by rw [hsplit, append_cons], ⟨?_, ?_, ?_⟩, ?_, hend, hbytes⟩
  · exact fun message hmem => hall message (mem_append_left _ hmem)
  · exact fun message hmem => by simpa using hfront message hmem
  · rw [bodyBytes_append] at hbytes
    omega
  · exact hall first (mem_append_right front mem_cons_self)

theorem exists_body_of_invoked {receives : ℕ} (h : (middleware.step^[receives] (ObservabilityMiddleware.start .drain source)).Invoked) :
    ∃ body final rest, source = (Stream'.Seq.ofList (body ++ [final])).append rest
      ∧ Drainable middleware.maxBodyBytes body ∧ final.isDisconnect = false ∧ final.isFinal = true
      ∧ bodyBytes (body ++ [final]) ≤ middleware.maxBodyBytes := by
  obtain ⟨body, final, later, hconsumed, hbody⟩ := (reached_drain middleware source receives).of_serving h
  have hsource := source_iterate middleware (ObservabilityMiddleware.start .drain source) receives
  rw [hconsumed, Stream'.Seq.ofList_append _ later, Stream'.Seq.append_assoc] at hsource
  exact ⟨body, final, _, (Stream'.Seq.nil_append source).symm.trans hsource.symm, hbody⟩

theorem preflight_eq_drain {scope : Scope} {now : ℚ} {st : LimiterState} (hhttp : scope.type = .http)
    (hlength : scope.header "content-length" = none) (hadmits : middleware.Admits scope now st) :
    (middleware.preflight scope now st).1 = .drain := by
  have hdecision : (middleware.admission scope now st).1.filter (!·.allowed) = none := by
    rw [Option.filter_eq_none_iff]
    intro decision hmem
    simp [hadmits decision hmem]
  rw [ObservabilityMiddleware.preflight, if_neg (not_not.mpr hhttp), hlength]
  simp only [ObservabilityMiddleware.checkLength, hdecision, Option.isNone_none, if_true]

/-- The application of a drained call runs if and only if its body comes to an end within the cap and without a disconnect before it. -/
theorem invoked_iff_of_drain : (∃ receives, (middleware.step^[receives] (ObservabilityMiddleware.start .drain source)).Invoked) ↔
    ∃ body final rest, source = (Stream'.Seq.ofList (body ++ [final])).append rest ∧ final.isFinal = true
      ∧ (∀ message ∈ body, message.isDisconnect = false) ∧ bodyBytes (body ++ [final]) ≤ middleware.maxBodyBytes := by
  constructor
  · rintro ⟨receives, hinvoked⟩
    obtain ⟨body, final, rest, hsource, hbody, -, hfinal, hwithin⟩ := exists_body_of_invoked hinvoked
    exact ⟨body, final, rest, hsource, hfinal, hbody.connected, hwithin⟩
  · rintro ⟨body, final, rest, hsource, hfinal, hconnected, hwithin⟩
    obtain ⟨front, first, back, heq, hfront, hgone, hend, hbytes⟩ := exists_first_end hconnected hfinal hwithin
    refine ⟨front.length + 1, requestMessages (front ++ [first]), ?_⟩
    rw [hsource, heq, Stream'.Seq.ofList_append _ back, Stream'.Seq.append_assoc, iterate_complete hfront hgone hend hbytes]

end Call

def bodyMessage (body : List UInt8) (moreBody : Bool) : AsgiMessage := ⟨.httpRequest, some body, some moreBody⟩

end ContextProxy
