import ContextProxy.Context.Candidates
import ContextProxy.Provider.Resilience

/-!
# Failures of the upstream, buffered and streamed

`complete` and `open_stream` send through `_resilient_send`, and differ in when the body is read. The buffered send reads it, so a failure to read it passes through the handlers there. The streaming send ends with the headers; if they announce an error, `open_stream` reads the body behind the handlers, and a failure leaves as the exception of the HTTP client.

What a call of `_resilient_send` returns is a function of how its sends end (`resilientSend`), whatever other calls do (`ended_eq_resilientSend`). So the two paths are compared on a sequence of exchanges.
-/

namespace ContextProxy

open List

/-! ### What a call returns -/

section Retries

variable {R : Type}

/-- `with_retries` and the handlers around it: attempts from the given one on, with as many retries left. -/
def withRetries (outcomes : ℕ → SendOutcome R) : ℕ → ℕ → SendResult R
  | 0, attempt =>
    match outcomes attempt with
    | .response response => .returned response
    | .failed error => .unavailable (mapUpstreamError error)
    | .cancelled => .cancelled
  | left + 1, attempt =>
    match outcomes attempt with
    | .response response => .returned response
    | .failed error =>
      if error.isRetryable then withRetries outcomes left (attempt + 1) else .unavailable (mapUpstreamError error)
    | .cancelled => .cancelled

def refusal (state : CircuitState) : String := "inference endpoint circuit breaker is " ++ state.name

/-- `_resilient_send`, on a breaker that refuses the call in the given state or lets it through. -/
def resilientSend (maxRetries : ℕ) (refused : Option CircuitState) (outcomes : ℕ → SendOutcome R) : SendResult R :=
  match refused with
  | some state => .unavailable (refusal state)
  | none => withRetries outcomes maxRetries 0

variable {outcomes : ℕ → SendOutcome R}

theorem withRetries_skip {skipped left attempt : ℕ} (h : ∀ k < skipped, (outcomes (attempt + k)).isConnectFailure = true) :
    withRetries outcomes (left + skipped) attempt = withRetries outcomes left (attempt + skipped) := by
  induction skipped generalizing attempt with
  | zero => rfl
  | succ skipped ih =>
    have hfirst := h 0 (by omega)
    rw [Nat.add_zero] at hfirst
    rw [← Nat.add_assoc, withRetries]
    cases houtcome : outcomes attempt with
    | failed error =>
      rw [houtcome] at hfirst
      have hretryable : error.isRetryable = true := hfirst
      simp only [hretryable, if_true]
      rw [ih fun k hk => ?_, show attempt + 1 + skipped = attempt + (skipped + 1) by omega]
      rw [show attempt + 1 + k = attempt + (k + 1) by omega]
      exact h (k + 1) (by omega)
    | response response =>
      rw [houtcome] at hfirst
      cases hfirst
    | cancelled =>
      rw [houtcome] at hfirst
      cases hfirst

variable {maxRetries : ℕ} {endpoint : Endpoint}

theorem withRetries_of_getLast? {sends : List (SendOutcome R)} (hsends : sends = (List.range sends.length).map outcomes)
    (hundelivered : ∀ outcome ∈ sends.dropLast, outcome.isConnectFailure = true) (hlength : sends.length ≤ maxRetries + 1)
    {outcome : SendOutcome R} (hlast : sends.getLast? = some outcome) : ∃ n, sends.length = n + 1 ∧ outcomes n = outcome ∧
      withRetries outcomes maxRetries 0 = withRetries outcomes (maxRetries - n) n := by
  obtain ⟨n, hn⟩ : ∃ n, sends.length = n + 1 := by
    cases sends with
    | nil => cases hlast
    | cons first rest => exact ⟨rest.length, rfl⟩
  rw [hn, range_succ, map_append, map_singleton] at hsends
  rw [hsends, getLast?_concat] at hlast
  rw [hsends, dropLast_concat] at hundelivered
  have hskip : ∀ k < n, (outcomes (0 + k)).isConnectFailure = true := by
    intro k hk
    rw [Nat.zero_add]
    exact hundelivered _ (mem_map_of_mem (mem_range.mpr hk))
  have hall : withRetries outcomes (maxRetries - n + n) 0 = withRetries outcomes (maxRetries - n) (0 + n) :=
    withRetries_skip hskip
  rw [Nat.sub_add_cancel (by omega), Nat.zero_add] at hall
  exact ⟨n, hn, Option.some.inj hlast, hall⟩

/-- The result of a call that has ended is told by its last send, or by the state of the breaker. -/
def SendCall.Told (maxRetries : ℕ) (call : SendCall R) : Prop :=
  match call.phase with
  | .rejected message => ∃ state, message = refusal state
  | .ended (.returned response) => call.sends.getLast? = some (.response response)
  | .ended (.unavailable message) => ∃ error, call.sends.getLast? = some (.failed error) ∧
      message = mapUpstreamError error ∧ (error.isRetryable = true → call.sends.length = maxRetries + 1)
  | _ => True

theorem SendCall.told_of_act {event : CallEvent R} {call : SendCall R} {next : SendCall R × Endpoint}
    (hsound : call.Sound maxRetries) (hact : act maxRetries event call endpoint = some next) :
    next.1.Told maxRetries := by
  unfold act at hact
  split at hact
  · rw [Option.ite_none_right_eq_some] at hact
    obtain ⟨-, hact⟩ := hact
    obtain rfl := Option.some.inj hact
    rw [begin]
    split
    · trivial
    · exact ⟨_, rfl⟩
  · rename_i attempt outcome now hphase
    rw [Option.ite_none_right_eq_some] at hact
    obtain ⟨-, hact⟩ := hact
    obtain rfl := Option.some.inj hact
    have hloop := hsound.loop
    rw [InLoop, hphase] at hloop
    cases outcome with
    | response response => exact getLast?_concat
    | cancelled => trivial
    | failed error =>
      rw [endSend]
      by_cases hretryable : error.isRetryable = true
      · by_cases hattempt : attempt = maxRetries
        · simp only [hretryable, hattempt, if_true]
          refine ⟨error, getLast?_concat, rfl, fun _ => ?_⟩
          show (call.sends ++ [SendOutcome.failed error]).length = maxRetries + 1
          rw [length_append, hloop.1, hattempt, length_singleton]
        · simp only [hretryable, hattempt, if_true, if_false]
          trivial
      · simp only [hretryable]
        exact ⟨error, getLast?_concat, rfl, fun h => absurd h hretryable⟩
  · obtain rfl := Option.some.inj hact
    trivial
  · obtain rfl := Option.some.inj hact
    trivial
  · cases hact

theorem told_of_reaches {ι : Type} [DecidableEq ι] {w : Crew Endpoint (SendCall R) ι}
    (h : (atRest ι endpoint).Reaches (SendCall.act maxRetries) w) (i : ι) :
    (w.locals i).Sound maxRetries ∧ (w.locals i).Told maxRetries := by
  refine Crew.Reaches.forall_locals (P := fun call => call.Sound maxRetries ∧ call.Told maxRetries)
    (fun event call shared next hcall hact => ?_) h (fun _ => ?_) i
  · exact ⟨SendCall.sound_of_acts (SendCall.acts_of_act hact) hcall.1, SendCall.told_of_act hcall.1 hact⟩
  · exact ⟨SendCall.sound_idle maxRetries, trivial⟩

theorem rejected_eq_resilientSend {ι : Type} [DecidableEq ι] {w : Crew Endpoint (SendCall R) ι}
    (h : (atRest ι endpoint).Reaches (SendCall.act maxRetries) w) {i : ι} {message : String}
    (hrejected : (w.locals i).phase = .rejected message) (outcomes : ℕ → SendOutcome R) :
    ∃ state, .unavailable message = resilientSend maxRetries (some state) outcomes := by
  have htold := (told_of_reaches h i).2
  rw [SendCall.Told, hrejected] at htold
  obtain ⟨state, rfl⟩ := htold
  exact ⟨state, rfl⟩

/-- In any interleaving, a call that was let through and not cancelled ends as its sends say. -/
theorem ended_eq_resilientSend {ι : Type} [DecidableEq ι] {maxRetries : ℕ} {endpoint : Endpoint}
    {w : Crew Endpoint (SendCall R) ι} (h : (atRest ι endpoint).Reaches (SendCall.act maxRetries) w) {i : ι}
    {result : SendResult R} (hended : (w.locals i).phase = .ended result) (hresult : result ≠ .cancelled)
    {outcomes : ℕ → SendOutcome R} (hsends : (w.locals i).sends = (List.range (w.locals i).sends.length).map outcomes) :
    result = resilientSend maxRetries none outcomes := by
  rw [resilientSend]
  obtain ⟨hsound, htold⟩ := told_of_reaches h i
  have hlength := hsound.loop
  have hundelivered := hsound.undelivered
  rw [SendCall.InLoop, hended] at hlength
  rw [SendCall.Told, hended] at htold
  cases result with
  | cancelled => exact absurd rfl hresult
  | returned response =>
    obtain ⟨n, -, houtcome, heq⟩ := withRetries_of_getLast? hsends hundelivered (by omega) htold
    rw [heq]
    cases maxRetries - n <;> simp [withRetries, houtcome]
  | unavailable message =>
    obtain ⟨error, htold, rfl, hexhausted⟩ := htold
    obtain ⟨n, hn, houtcome, heq⟩ := withRetries_of_getLast? hsends hundelivered (by omega) htold
    rw [heq]
    by_cases hretryable : error.isRetryable = true
    · have hleft : maxRetries - n = 0 := by
        have := hexhausted hretryable
        omega
      rw [hleft, withRetries, houtcome]
    · cases maxRetries - n <;> simp [withRetries, houtcome, hretryable]

def turnsEndpoint : Endpoint := { breaker := { threshold := 1, threshold_pos := Nat.one_pos, resetSeconds := 30 } }

def turnsSchedule : List (Bool × CallEvent ℕ) :=
  [(true, .start 0 0), (false, .start 1 1), (true, .sendEnds (.failed (.connectError "refused")) 2),
    (false, .sendEnds (.failed (.connectTimeout "slow")) 3), (false, .sleepEnds), (true, .sleepEnds),
    (false, .sendEnds (.failed (.timeout "late")) 4), (true, .sendEnds (.response 200) 5)]

/-- Each of the two calls ends as its own sends say. -/
theorem ended_eq_resilientSend_answered : ∃ w : Crew Endpoint (SendCall ℕ) Bool,
    (atRest Bool turnsEndpoint).run (SendCall.act 2) turnsSchedule = some w ∧
      (w.locals true).phase = .ended (resilientSend 2 none fun attempt =>
        if attempt = 0 then .failed (.connectError "refused") else .response 200) ∧
      (w.locals false).phase = .ended (resilientSend 2 none fun attempt =>
        if attempt = 0 then .failed (.connectTimeout "slow") else .failed (.timeout "late")) := by
  obtain ⟨w, hrun, hanswered, hfailed, hsends, hsends'⟩ : ∃ w : Crew Endpoint (SendCall ℕ) Bool,
      (atRest Bool turnsEndpoint).run (SendCall.act 2) turnsSchedule = some w ∧
      (w.locals true).phase = .ended (.returned 200) ∧
      (w.locals false).phase = .ended (.unavailable "upstream request timed out: late") ∧
      (w.locals true).sends = [.failed (.connectError "refused"), .response 200] ∧
      (w.locals false).sends = [.failed (.connectTimeout "slow"), .failed (.timeout "late")] :=
    ⟨_, rfl, rfl, rfl, rfl, rfl⟩
  refine ⟨w, hrun, ?_, ?_⟩
  · rw [hanswered]
    exact congrArg _ (ended_eq_resilientSend ⟨_, hrun⟩ hanswered (by simp) (by rw [hsends]; rfl))
  · rw [hfailed]
    exact congrArg _ (ended_eq_resilientSend ⟨_, hrun⟩ hfailed (by simp) (by rw [hsends']; rfl))

end Retries

/-! ### Headers -/

abbrev Headers := List (String × String)

def hopByHopHeaders : List String :=
  ["connection", "keep-alive", "proxy-authenticate", "proxy-authorization", "te", "trailer", "trailers",
    "transfer-encoding", "upgrade"]

def strippedResponseHeaders : List String := hopByHopHeaders ++ ["content-length", "set-cookie"]

section Headers

variable (rt : Runtime)

/-- `get_header`, and the lookup of the client's header type. -/
def getHeader (headers : Headers) (name : String) : Option String :=
  (headers.find? fun header => rt.lower header.1 = rt.lower name).map Prod.snd

def connectionNamedHeaders (headers : Headers) : List String :=
  let tokens := (((getHeader rt headers "connection").getD "").toList.splitOn ',').map strip
  (tokens.filter (· ≠ [])).map fun token => rt.lower (String.ofList token)

def filterResponseHeaders (keepContentEncoding : Bool) (headers : Headers) : Headers :=
  let stripped := strippedResponseHeaders ++ connectionNamedHeaders rt headers ++
    (if keepContentEncoding then [] else ["content-encoding"])
  headers.filter fun header => rt.lower header.1 ∉ stripped

end Headers

/-! ### Exchanges with the upstream -/

inductive ReadError where
  | timeout (text : String)
  | other (text : String)
  deriving DecidableEq, Repr

def ReadError.toHttpError : ReadError → HttpError
  | .timeout text => .timeout text
  | .other text => .other text

abbrev Body := List UInt8

structure ResponseHead where
  status : ℕ
  headers : Headers := []
  deriving DecidableEq, Repr

/-- One attempt at the upstream: it fails before the headers, or they come and the body can be read or not. -/
inductive Exchange where
  | failed (error : HttpError)
  | answered (head : ResponseHead) (body : Except ReadError Body)

def Exchange.buffered : Exchange → SendOutcome (ResponseHead × Body)
  | .failed error => .failed error
  | .answered head (.ok body) => .response (head, body)
  | .answered _ (.error error) => .failed error.toHttpError

def Exchange.streamed : Exchange → SendOutcome (ResponseHead × Except ReadError Body)
  | .failed error => .failed error
  | .answered head body => .response (head, body)

/-- The exceptions that leave the provider. -/
inductive Raised where
  | upstreamUnavailable (message : String)
  | upstreamHTTPError (status : ℕ) (body : Body) (contentType : String) (headers : Headers)
  /-- An exception of the HTTP client. -/
  | httpxError (error : ReadError)
  | cancelledError
  deriving DecidableEq, Repr

def SendResult.outcome {R : Type} : SendResult R → Except Raised R
  | .returned response => .ok response
  | .unavailable message => .error (.upstreamUnavailable message)
  | .cancelled => .error .cancelledError

section Paths

variable (rt : Runtime) (maxRetries : ℕ) (refused : Option CircuitState) (exchanges : ℕ → Exchange)

def upstreamHTTPError (head : ResponseHead) (body : Body) : Raised :=
  .upstreamHTTPError head.status body ((getHeader rt head.headers "content-type").getD "application/json")
    (filterResponseHeaders rt false head.headers)

def complete : Except Raised (ℕ × Headers × Body) := do
  let (head, body) ← (resilientSend maxRetries refused fun attempt => (exchanges attempt).buffered).outcome
  if 400 ≤ head.status then throw (upstreamHTTPError rt head body)
  return (head.status, filterResponseHeaders rt false head.headers, body)

/-- `open_stream`; the stream is a response whose body is still to be read. -/
def openStream : Except Raised (ResponseHead × Except ReadError Body) := do
  let (head, body) ← (resilientSend maxRetries refused fun attempt => (exchanges attempt).streamed).outcome
  if 400 ≤ head.status then
    match body with
    | .ok body => throw (upstreamHTTPError rt head body)
    | .error error => throw (.httpxError error)
  return (head, body)

/-! ### The exchange that decides -/

/-- The exchange that ends the attempts: the first that is more than a failure to connect, or the last one allowed. -/
def decidingExchange (exchanges : ℕ → Exchange) : ℕ → ℕ → Exchange
  | 0, attempt => exchanges attempt
  | left + 1, attempt =>
    match exchanges attempt with
    | .failed error => if error.isRetryable then decidingExchange exchanges left (attempt + 1) else .failed error
    | .answered head body => .answered head body

def SendOutcome.result {R : Type} : SendOutcome R → SendResult R
  | .response answer => .returned answer
  | .failed error => .unavailable (mapUpstreamError error)
  | .cancelled => .cancelled

/-- Whether the body is read or not, an answer ends the attempts, so both paths stop at the same exchange. -/
theorem withRetries_eq {R : Type} {outcome : Exchange → SendOutcome R} (hfailed : ∀ error, outcome (.failed error) = .failed error)
    (hanswered : ∀ head body, (outcome (.answered head body)).isConnectFailure = false) (left attempt : ℕ) :
    withRetries (fun k => outcome (exchanges k)) left attempt
      = (outcome (decidingExchange exchanges left attempt)).result := by
  induction left generalizing attempt with
  | zero =>
    rw [withRetries, decidingExchange]
    cases outcome (exchanges attempt) <;> rfl
  | succ left ih =>
    rw [withRetries, decidingExchange]
    cases hexchange : exchanges attempt with
    | failed error =>
      simp only [hfailed]
      by_cases hretryable : error.isRetryable = true
      · simp only [hretryable, if_true]
        exact ih (attempt + 1)
      · simp only [hretryable, Bool.false_eq_true, if_false]
        exact (congrArg SendOutcome.result (hfailed error)).symm
    | answered head body =>
      have hstop := hanswered head body
      simp only
      cases houtcome : outcome (.answered head body) with
      | failed error =>
        rw [houtcome] at hstop
        have hretryable : error.isRetryable = false := hstop
        simp [hretryable, SendOutcome.result]
      | response response => rfl
      | cancelled => rfl

theorem ReadError.not_isRetryable (error : ReadError) : error.toHttpError.isRetryable = false := by
  cases error <;> rfl

theorem resilientSend_buffered : resilientSend maxRetries none (fun attempt => (exchanges attempt).buffered)
      = (decidingExchange exchanges maxRetries 0).buffered.result := by
  refine withRetries_eq exchanges (fun _ => rfl) (fun head body => ?_) maxRetries 0
  cases body with
  | ok body => rfl
  | error error => exact error.not_isRetryable

theorem resilientSend_streamed : resilientSend maxRetries none (fun attempt => (exchanges attempt).streamed)
      = (decidingExchange exchanges maxRetries 0).streamed.result :=
  withRetries_eq exchanges (fun _ => rfl) (fun _ _ => rfl) maxRetries 0

/-! ### The two paths compared -/

/-- The upstream fails the request: the breaker keeps it back, no attempt gets an answer, or the answer is an error. -/
def UpstreamFails : Prop :=
  refused = none → ∀ head body, decidingExchange exchanges maxRetries 0 = .answered head body → 400 ≤ head.status

/-- Exceptions of the same class, of the two that the API knows; errors of the upstream with the same status and body. -/
def Raised.Alike : Raised → Raised → Prop
  | .upstreamUnavailable _, .upstreamUnavailable _ => True
  | .upstreamHTTPError status body _ _, .upstreamHTTPError status' body' _ _ => status = status' ∧ body = body'
  | _, _ => False

/-- Both paths raise, and alike. -/
def FailsAlike : Prop :=
  ∃ streamed buffered, openStream rt maxRetries refused exchanges = .error streamed ∧
    complete rt maxRetries refused exchanges = .error buffered ∧ streamed.Alike buffered

variable {rt maxRetries refused exchanges}

theorem failsAlike_of_refused (state : CircuitState) : FailsAlike rt maxRetries (some state) exchanges :=
  ⟨_, _, rfl, rfl, trivial⟩

theorem failsAlike_of_failed {error : HttpError} (h : decidingExchange exchanges maxRetries 0 = .failed error) :
    FailsAlike rt maxRetries none exchanges := by
  refine ⟨.upstreamUnavailable (mapUpstreamError error), .upstreamUnavailable (mapUpstreamError error), ?_, ?_, trivial⟩
  · rw [openStream, resilientSend_streamed, h]
    rfl
  · rw [complete, resilientSend_buffered, h]
    rfl

variable {head : ResponseHead}

/-- An error with a body that can be read reaches the client as it is, on both paths. -/
theorem failsAlike_of_error {body : Body} (h : decidingExchange exchanges maxRetries 0 = .answered head (.ok body))
    (hstatus : 400 ≤ head.status) : FailsAlike rt maxRetries none exchanges := by
  refine ⟨upstreamHTTPError rt head body, upstreamHTTPError rt head body, ?_, ?_, rfl, rfl⟩
  · rw [openStream, resilientSend_streamed, h]
    exact if_pos hstatus
  · rw [complete, resilientSend_buffered, h]
    exact if_pos hstatus

variable {error : ReadError}

/-- An error whose body cannot be read leaves `open_stream` as the exception of the HTTP client. -/
theorem openStream_of_unread (h : decidingExchange exchanges maxRetries 0 = .answered head (.error error))
    (hstatus : 400 ≤ head.status) : openStream rt maxRetries none exchanges = .error (.httpxError error) := by
  rw [openStream, resilientSend_streamed, h]
  exact if_pos hstatus

/-- Both paths report every failure of the upstream alike, exactly if the request is kept back or the exchange that decides is no error whose body cannot be read. -/
theorem failsAlike_iff (rt : Runtime) (maxRetries : ℕ) (refused : Option CircuitState) (exchanges : ℕ → Exchange) :
    (UpstreamFails maxRetries refused exchanges → FailsAlike rt maxRetries refused exchanges) ↔
      (refused = none → ∀ head error, decidingExchange exchanges maxRetries 0 = .answered head (.error error) →
        head.status < 400) := by
  constructor
  · intro halike hrefused head error hdecides
    subst hrefused
    by_contra hstatus
    have hstatus : 400 ≤ head.status := by omega
    have hfails : UpstreamFails maxRetries none exchanges := by
      intro _ head' body' hdecides'
      obtain ⟨rfl, rfl⟩ := Exchange.answered.inj (hdecides.symm.trans hdecides')
      exact hstatus
    obtain ⟨streamed, buffered, hstream, -, hsame⟩ := halike hfails
    rw [openStream_of_unread hdecides hstatus] at hstream
    obtain rfl := Except.error.inj hstream
    exact hsame
  · intro hread hfails
    cases refused with
    | some state => exact failsAlike_of_refused state
    | none =>
      cases hdecides : decidingExchange exchanges maxRetries 0 with
      | failed error => exact failsAlike_of_failed hdecides
      | answered head body =>
        have hstatus := hfails rfl head body hdecides
        cases body with
        | ok body => exact failsAlike_of_error hdecides hstatus
        | error error =>
          have hlow := hread rfl head error hdecides
          omega

end Paths

/-- A 503 whose body times out: the buffered request is told that the upstream is unavailable, the streamed one fails with an exception of the HTTP client. -/
theorem unread_error_escapes :
    let exchanges : ℕ → Exchange := fun _ => .answered { status := 503 } (.error (.timeout "read"))
    UpstreamFails 2 none exchanges ∧
      openStream plainRuntime 2 none exchanges = .error (.httpxError (.timeout "read")) ∧
      complete plainRuntime 2 none exchanges = .error (.upstreamUnavailable "upstream request timed out: read") ∧
      ¬FailsAlike plainRuntime 2 none exchanges := by
  have hstream : openStream plainRuntime 2 none (fun _ => .answered { status := 503 } (.error (.timeout "read")))
      = .error (.httpxError (.timeout "read")) := rfl
  have hfails : UpstreamFails 2 none (fun _ => .answered { status := 503 } (.error (.timeout "read"))) := by
    intro _ head body hdecides
    obtain ⟨rfl, -⟩ := Exchange.answered.inj hdecides
    decide
  refine ⟨hfails, hstream, rfl, fun ⟨streamed, buffered, hraised, _, halike⟩ => ?_⟩
  obtain rfl := Except.error.inj (hstream.symm.trans hraised)
  exact halike

end ContextProxy
