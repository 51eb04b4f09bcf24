import ContextProxy.Lib.Interleaving
import Mathlib.Algebra.Order.Ring.Rat

/-!
# Sending to the endpoint

`_resilient_send`: the circuit breaker, the bounded retries around one send, and the calls that share them. Calls run on one event loop, so what a call does between two awaits is one action. From the actions alone it follows that only a failure to connect is ever followed by another send (`SendCall.Sound`).
-/

namespace ContextProxy

open List

/-! ### The circuit breaker -/

inductive CircuitState where
  | closed
  | opened
  | halfOpen
  deriving DecidableEq, Repr

def CircuitState.name : CircuitState → String
  | .closed => "closed"
  | .opened => "open"
  | .halfOpen => "half_open"

/-- A breaker; its constructor refuses a threshold below one. -/
structure CircuitBreaker where
  threshold : ℕ
  threshold_pos : 0 < threshold
  resetSeconds : ℚ
  state : CircuitState := .closed
  consecutiveFailures : ℕ := 0
  openedAt : ℚ := 0
  probeReserved : Bool := false

namespace CircuitBreaker

/-- `_transition`, at the given reading of the clock. -/
def transition (breaker : CircuitBreaker) (now : ℚ) : CircuitState → CircuitBreaker
  | .opened => { breaker with state := .opened, openedAt := now, probeReserved := false }
  | .closed => { breaker with state := .closed, probeReserved := false }
  | .halfOpen => { breaker with state := .halfOpen }

/-- `_current_state`, which opens the breaker halfway when the time has come. -/
def currentState (breaker : CircuitBreaker) (now : ℚ) : CircuitBreaker :=
  if breaker.state = .opened ∧ breaker.resetSeconds ≤ now - breaker.openedAt then breaker.transition now .halfOpen
  else breaker

def allowAttempt (breaker : CircuitBreaker) (now : ℚ) : Bool × CircuitBreaker :=
  let breaker := breaker.currentState now
  match breaker.state with
  | .opened => (false, breaker)
  | .halfOpen => if breaker.probeReserved then (false, breaker) else (true, { breaker with probeReserved := true })
  | .closed => (true, breaker)

def recordSuccess (breaker : CircuitBreaker) (now : ℚ) : CircuitBreaker :=
  let breaker := if breaker.state ≠ .closed then breaker.transition now .closed else breaker
  { breaker with consecutiveFailures := 0, probeReserved := false }

def recordFailure (breaker : CircuitBreaker) (now : ℚ) : CircuitBreaker :=
  let breaker :=
    { breaker with probeReserved := false, consecutiveFailures := breaker.consecutiveFailures + 1 }
  if breaker.state = .halfOpen then breaker.transition now .opened
  else if breaker.state = .closed ∧ breaker.threshold ≤ breaker.consecutiveFailures then breaker.transition now .opened
  else breaker

def releaseProbe (breaker : CircuitBreaker) : CircuitBreaker := { breaker with probeReserved := false }

end CircuitBreaker

/-! ### The outcomes of a send -/

/-- The errors of the HTTP client that the code tells apart, with their texts. -/
inductive HttpError where
  | connectError (text : String)
  | connectTimeout (text : String)
  | timeout (text : String)
  | other (text : String)
  deriving DecidableEq, Repr

/-- `RETRYABLE_TRANSPORT_ERRORS`. -/
def HttpError.isRetryable : HttpError → Bool
  | .connectError _ | .connectTimeout _ => true
  | .timeout _ | .other _ => false

/-- `map_upstream_error`: the text of the `UpstreamUnavailable` the client sees. -/
def mapUpstreamError : HttpError → String
  | .connectError text | .connectTimeout text => "cannot connect to upstream endpoint: " ++ text
  | .timeout text => "upstream request timed out: " ++ text
  | .other text => "upstream transport error: " ++ text

inductive SendOutcome (R : Type) where
  | response (response : R)
  | failed (error : HttpError)
  | cancelled
  deriving DecidableEq, Repr

/-- The send ended before anything was delivered. -/
def SendOutcome.isConnectFailure {R : Type} : SendOutcome R → Bool
  | .failed error => error.isRetryable
  | .response _ | .cancelled => false

def SendOutcome.isResponse {R : Type} : SendOutcome R → Bool
  | .response _ => true
  | .failed _ | .cancelled => false

/-! ### One call -/

inductive Record where
  | success
  | failure
  deriving DecidableEq, Repr

inductive SendResult (R : Type) where
  | returned (response : R)
  | unavailable (message : String)
  | cancelled
  deriving DecidableEq, Repr

/-- Where a call is: not begun, turned away, awaiting its send or the sleep behind it, or at its end. -/
inductive CallPhase (R : Type) where
  | idle
  | rejected (message : String)
  | sending (attempt : ℕ)
  | sleeping (attempt : ℕ)
  | ended (result : SendResult R)
  deriving DecidableEq, Repr

/-- A call, with the outcomes of its sends, its records, and the HALF_OPEN period in which it was admitted. -/
structure SendCall (R : Type) where
  phase : CallPhase R := .idle
  sends : List (SendOutcome R) := []
  records : List Record := []
  probe : Option ℕ := none
  deriving DecidableEq, Repr

/-- What the calls share: the breaker, the last reading of the clock, and how often the breaker has become HALF_OPEN. -/
structure Endpoint where
  breaker : CircuitBreaker
  clock : ℚ := 0
  period : ℕ := 0

def Endpoint.advance (endpoint : Endpoint) (breaker : CircuitBreaker) (now : ℚ) : Endpoint where
  breaker
  clock := now
  period := if endpoint.breaker.state ≠ .halfOpen ∧ breaker.state = .halfOpen then endpoint.period + 1 else endpoint.period

/-- What happens to a call: it begins, the await it is at ends, or it is cancelled there. -/
inductive CallEvent (R : Type) where
  | start (now later : ℚ)
  | sendEnds (outcome : SendOutcome R) (now : ℚ)
  | sleepEnds
  | sleepCancelled
  deriving DecidableEq, Repr

namespace SendCall

variable {R : Type}

/-- The calls of the breaker at the end of an admitted call; the release is in the `finally` block. -/
def settle (breaker : CircuitBreaker) (now : ℚ) : Option Record → CircuitBreaker
  | none => breaker.releaseProbe
  | some .success => (breaker.recordSuccess now).releaseProbe
  | some .failure => (breaker.recordFailure now).releaseProbe

def conclude (call : SendCall R) (endpoint : Endpoint) (now : ℚ) (record : Option Record) (result : SendResult R) :
    SendCall R × Endpoint :=
  ({ call with phase := .ended result, records := call.records ++ record.toList },
    endpoint.advance (settle endpoint.breaker now record) now)

/-- From the beginning to the first await. A call that is turned away reads the state of the breaker once more, for its message. -/
def begin (call : SendCall R) (endpoint : Endpoint) (now later : ℚ) : SendCall R × Endpoint :=
  let attempt := endpoint.breaker.allowAttempt now
  if attempt.1 then
    let endpoint := endpoint.advance attempt.2 now
    ({ call with phase := .sending 0, probe := if attempt.2.state = .halfOpen then some endpoint.period else none }, endpoint)
  else
    let breaker := attempt.2.currentState later
    ({ call with phase := .rejected ("inference endpoint circuit breaker is " ++ breaker.state.name) },
      endpoint.advance breaker later)

/-- From the end of a send to the next await: the body of the loop in `with_retries`, and the handlers around it. -/
def endSend (maxRetries attempt : ℕ) (call : SendCall R) (endpoint : Endpoint) (outcome : SendOutcome R) (now : ℚ) :
    SendCall R × Endpoint :=
  let call := { call with sends := call.sends ++ [outcome] }
  match outcome with
  | .response response => call.conclude endpoint now (some .success) (.returned response)
  | .failed error =>
    if error.isRetryable then
      if attempt = maxRetries then call.conclude endpoint now (some .failure) (.unavailable (mapUpstreamError error))
      else ({ call with phase := .sleeping attempt }, endpoint.advance endpoint.breaker now)
    else call.conclude endpoint now none (.unavailable (mapUpstreamError error))
  | .cancelled => call.conclude endpoint now none .cancelled

/-- One action of `_resilient_send`. The clock never goes back. -/
def act (maxRetries : ℕ) (event : CallEvent R) (call : SendCall R) (endpoint : Endpoint) : Option (SendCall R × Endpoint) :=
  match call.phase, event with
  | .idle, .start now later =>
    if endpoint.clock ≤ now ∧ now ≤ later then some (call.begin endpoint now later) else none
  | .sending attempt, .sendEnds outcome now =>
    if endpoint.clock ≤ now then some (call.endSend maxRetries attempt endpoint outcome now) else none
  | .sleeping attempt, .sleepEnds => some ({ call with phase := .sending (attempt + 1) }, endpoint)
  | .sleeping _, .sleepCancelled => some (call.conclude endpoint endpoint.clock none .cancelled)
  | _, _ => none

/-- The call has been admitted and has not ended. -/
def inFlight (call : SendCall R) : Bool :=
  match call.phase with
  | .sending _ | .sleeping _ => true
  | .idle | .rejected _ | .ended _ => false

def performed (call : SendCall R) : ℕ :=
  match call.phase with
  | .sending _ => call.sends.length + 1
  | _ => call.sends.length

/-! ### What an action can do -/

/-- The actions, in terms of the call and the endpoint before them. -/
inductive Acts (maxRetries : ℕ) (call : SendCall R) (endpoint : Endpoint) : SendCall R × Endpoint → Prop
  | reject (now later : ℚ) (message : String) (hphase : call.phase = .idle) (hclock : endpoint.clock ≤ now)
      (hlater : now ≤ later) (hrefused : (endpoint.breaker.allowAttempt now).1 = false) :
      Acts maxRetries call endpoint ({ call with phase := .rejected message },
        endpoint.advance ((endpoint.breaker.allowAttempt now).2.currentState later) later)
  | allow (now : ℚ) (hphase : call.phase = .idle) (hclock : endpoint.clock ≤ now)
      (hallowed : (endpoint.breaker.allowAttempt now).1 = true) :
      Acts maxRetries call endpoint
        ({ call with
            phase := .sending 0
            probe := if (endpoint.breaker.allowAttempt now).2.state = .halfOpen then
              some (endpoint.advance (endpoint.breaker.allowAttempt now).2 now).period else none },
          endpoint.advance (endpoint.breaker.allowAttempt now).2 now)
  | retry (attempt : ℕ) (outcome : SendOutcome R) (now : ℚ) (hphase : call.phase = .sending attempt)
      (hclock : endpoint.clock ≤ now) (houtcome : outcome.isConnectFailure = true) (hattempt : attempt ≠ maxRetries) :
      Acts maxRetries call endpoint ({ call with phase := .sleeping attempt, sends := call.sends ++ [outcome] },
        endpoint.advance endpoint.breaker now)
  | wake (attempt : ℕ) (hphase : call.phase = .sleeping attempt) :
      Acts maxRetries call endpoint ({ call with phase := .sending (attempt + 1) }, endpoint)
  | finish (attempt : ℕ) (outcome : SendOutcome R) (now : ℚ) (result : SendResult R) (record : Option Record)
      (hphase : call.phase = .sending attempt) (hclock : endpoint.clock ≤ now)
      (hlast : outcome.isConnectFailure = true → attempt = maxRetries)
      (hrecord : record = if outcome.isResponse then some .success
        else if outcome.isConnectFailure then some .failure else none) :
      Acts maxRetries call endpoint
        (conclude { call with sends := call.sends ++ [outcome] } endpoint now record result)
  | cancel (attempt : ℕ) (result : SendResult R) (hphase : call.phase = .sleeping attempt) :
      Acts maxRetries call endpoint (conclude call endpoint endpoint.clock none result)

variable {call : SendCall R} {endpoint : Endpoint} {maxRetries : ℕ} {outcome : SendOutcome R}
  {sends : List (SendOutcome R)}

theorem acts_begin {now later : ℚ} (hphase : call.phase = .idle) (hclock : endpoint.clock ≤ now) (hlater : now ≤ later) :
    Acts maxRetries call endpoint (call.begin endpoint now later) := by
  by_cases hallowed : (endpoint.breaker.allowAttempt now).1 = true
  · simp only [begin, hallowed, if_true]
    exact .allow now hphase hclock hallowed
  · simp only [begin, hallowed]
    exact .reject now later _ hphase hclock hlater (Bool.eq_false_of_not_eq_true hallowed)

theorem acts_endSend {attempt : ℕ} {now : ℚ} (hphase : call.phase = .sending attempt) (hclock : endpoint.clock ≤ now) :
    Acts maxRetries call endpoint (call.endSend maxRetries attempt endpoint outcome now) := by
  cases outcome with
  | response response => exact .finish attempt _ now _ _ hphase hclock (by simp [SendOutcome.isConnectFailure]) rfl
  | cancelled => exact .finish attempt _ now _ _ hphase hclock (by simp [SendOutcome.isConnectFailure]) rfl
  | failed error =>
    rw [endSend]
    by_cases herror : error.isRetryable = true
    · by_cases hattempt : attempt = maxRetries
      · simp only [herror, hattempt, if_true]
        refine .finish maxRetries _ now _ _ (hattempt ▸ hphase) hclock (fun _ => rfl) ?_
        simp [SendOutcome.isResponse, SendOutcome.isConnectFailure, herror]
      · simp only [herror, hattempt, if_true, if_false]
        exact .retry attempt _ now hphase hclock herror hattempt
    · simp only [herror]
      refine .finish attempt _ now _ _ hphase hclock (fun h => absurd h herror) ?_
      simp [SendOutcome.isResponse, SendOutcome.isConnectFailure, herror]

variable {next : SendCall R × Endpoint}

theorem acts_of_act {event : CallEvent R} (h : act maxRetries event call endpoint = some next) :
    Acts maxRetries call endpoint next := by
  unfold act at h
  split at h
  · rename_i hphase
    rw [Option.ite_none_right_eq_some] at h
    obtain ⟨⟨hclock, hlater⟩, h⟩ := h
    obtain rfl := Option.some.inj h
    exact acts_begin hphase hclock hlater
  · rename_i hphase
    rw [Option.ite_none_right_eq_some] at h
    obtain ⟨hclock, h⟩ := h
    obtain rfl := Option.some.inj h
    exact acts_endSend hphase hclock
  · rename_i hphase
    obtain rfl := Option.some.inj h
    exact .wake _ hphase
  · rename_i hphase
    obtain rfl := Option.some.inj h
    exact .cancel _ _ hphase
  · cases h

/-! ### Sends and records -/

/-- Where the call is in its loop: as many sends have ended as its attempt says, all of them before anything was delivered. -/
def InLoop (maxRetries : ℕ) (call : SendCall R) : Prop :=
  match call.phase with
  | .idle | .rejected _ => call.sends = []
  | .sending attempt => call.sends.length = attempt ∧ attempt ≤ maxRetries
  | .sleeping attempt => call.sends.length = attempt + 1 ∧ attempt < maxRetries
  | .ended _ => call.sends.length ≤ maxRetries + 1

def verdict (maxRetries : ℕ) (sends : List (SendOutcome R)) : List Record :=
  if sends.any SendOutcome.isResponse then [.success]
  else if sends.length = maxRetries + 1 ∧ sends.all SendOutcome.isConnectFailure then [.failure]
  else []

/-- What is true of a call at every instant. -/
structure Sound (maxRetries : ℕ) (call : SendCall R) : Prop where
  loop : call.InLoop maxRetries
  undelivered : ∀ outcome ∈ call.sends.dropLast, outcome.isConnectFailure = true
  undelivered_inFlight : call.inFlight = true → ∀ outcome ∈ call.sends, outcome.isConnectFailure = true
  records : call.records = verdict maxRetries call.sends

theorem sound_idle (maxRetries : ℕ) : ({} : SendCall R).Sound maxRetries where
  loop := rfl
  undelivered := by simp
  undelivered_inFlight := by simp
  records := by simp [verdict]

theorem not_isResponse_of_isConnectFailure (h : outcome.isConnectFailure = true) : outcome.isResponse = false := by
  cases outcome with
  | response response => cases h
  | failed error => rfl
  | cancelled => rfl

section

variable (h : ∀ outcome ∈ sends, outcome.isConnectFailure = true)
include h

theorem any_isResponse_of_undelivered : sends.any SendOutcome.isResponse = false := by
  rw [any_eq_false]
  intro outcome houtcome
  simp [not_isResponse_of_isConnectFailure (h outcome houtcome)]

theorem verdict_of_undelivered (hlength : sends.length ≤ maxRetries) : verdict maxRetries sends = [] := by
  rw [verdict, any_isResponse_of_undelivered h, if_neg Bool.false_ne_true, if_neg (by omega)]

theorem verdict_concat (hlast : outcome.isConnectFailure = true → sends.length = maxRetries) :
    verdict maxRetries (sends ++ [outcome]) = (if outcome.isResponse then some Record.success
      else if outcome.isConnectFailure then some .failure else none).toList := by
  have hall : sends.all SendOutcome.isConnectFailure = true := all_eq_true.mpr h
  rw [verdict, any_append, all_append, any_isResponse_of_undelivered h, hall]
  by_cases hout : outcome.isResponse = true
  · simp [hout]
  by_cases hfailure : outcome.isConnectFailure = true
  · simp [hout, hfailure, hlast hfailure]
  · simp [hout, hfailure]

theorem undelivered_concat : ∀ o ∈ (sends ++ [outcome]).dropLast, o.isConnectFailure = true := by
  rw [dropLast_concat]
  exact h

end

/-- Every action keeps it. -/
theorem sound_of_acts (h : Acts maxRetries call endpoint next) (hcall : call.Sound maxRetries) :
    next.1.Sound maxRetries := by
  obtain ⟨hloop, hundelivered, hinFlight, hrecords⟩ := hcall
  cases h with
  | reject now later message hphase hclock hlater hrefused =>
    rw [InLoop, hphase] at hloop
    exact ⟨hloop, hundelivered, by simp [inFlight], hrecords⟩
  | allow now hphase hclock hallowed =>
    rw [InLoop, hphase] at hloop
    exact ⟨⟨by simp [hloop], Nat.zero_le _⟩, hundelivered, by simp [hloop], hrecords⟩
  | retry attempt outcome now hphase hclock houtcome hattempt =>
    have hsends := hinFlight (by simp [inFlight, hphase])
    rw [InLoop, hphase] at hloop
    obtain ⟨hlength, hle⟩ := hloop
    have hall : ∀ o ∈ call.sends ++ [outcome], o.isConnectFailure = true := by
      intro o ho
      rcases mem_append.mp ho with ho | ho
      · exact hsends o ho
      · rw [mem_singleton.mp ho, houtcome]
    refine ⟨⟨?_, ?_⟩, undelivered_concat hsends, fun _ => hall, ?_⟩
    · rw [length_append, hlength, length_singleton]
    · omega
    · have hshort : (call.sends ++ [outcome]).length ≤ maxRetries := by
        rw [length_append, hlength, length_singleton]
        omega
      rw [hrecords, verdict_of_undelivered hsends (by omega), verdict_of_undelivered hall hshort]
  | wake attempt hphase =>
    rw [InLoop, hphase] at hloop
    exact ⟨⟨hloop.1, hloop.2⟩, hundelivered, fun _ => hinFlight (by simp [inFlight, hphase]), hrecords⟩
  | finish attempt outcome now result record hphase hclock hlast hrecord =>
    have hsends := hinFlight (by simp [inFlight, hphase])
    rw [InLoop, hphase] at hloop
    obtain ⟨hlength, hle⟩ := hloop
    refine ⟨?_, undelivered_concat hsends, by simp [inFlight, conclude], ?_⟩
    · simp only [InLoop, conclude, length_append, length_singleton]
      omega
    · simp only [conclude]
      rw [hrecords, verdict_of_undelivered hsends (by omega), hrecord, nil_append,
        verdict_concat hsends fun h => hlength.trans (hlast h)]
  | cancel attempt result hphase =>
    rw [InLoop, hphase] at hloop
    refine ⟨?_, hundelivered, by simp [inFlight, conclude], by simpa [conclude] using hrecords⟩
    simp only [InLoop, conclude]
    omega

theorem Sound.performed_le (h : call.Sound maxRetries) : call.performed ≤ maxRetries + 1 := by
  have hloop := h.loop
  rw [InLoop] at hloop
  rw [performed]
  cases hphase : call.phase with
  | idle | rejected message =>
    rw [hphase] at hloop
    simp [hloop]
  | sending attempt | sleeping attempt | ended result =>
    rw [hphase] at hloop
    simp only at hloop ⊢
    omega

theorem mem_verdict (maxRetries : ℕ) (sends : List (SendOutcome R)) :
    (.success ∈ verdict maxRetries sends ↔ ∃ response, .response response ∈ sends) ∧
      (.failure ∈ verdict maxRetries sends ↔
        sends.length = maxRetries + 1 ∧ ∀ outcome ∈ sends, outcome.isConnectFailure = true) := by
  have hresponse : sends.any SendOutcome.isResponse = true ↔ ∃ response, .response response ∈ sends := by
    rw [any_eq_true]
    constructor
    · rintro ⟨outcome, hmem, hout⟩
      cases outcome with
      | response response => exact ⟨response, hmem⟩
      | failed error => cases hout
      | cancelled => cases hout
    · rintro ⟨response, hmem⟩
      exact ⟨_, hmem, rfl⟩
  rw [← hresponse, verdict]
  split
  · rename_i hany
    refine ⟨by simp [hany], by simp, ?_⟩
    rintro ⟨-, hall⟩
    obtain ⟨outcome, hmem, hout⟩ := any_eq_true.mp hany
    simp [not_isResponse_of_isConnectFailure (hall outcome hmem)] at hout
  · rename_i hnone
    split
    · rename_i hfailed
      exact ⟨by simp [hnone], by simpa using hfailed⟩
    · rename_i hfailed
      exact ⟨by simp [hnone], by simpa using hfailed⟩

end SendCall

/-! ### Calls that share an endpoint -/

def atRest {R : Type} (ι : Type) (endpoint : Endpoint) : Crew Endpoint (SendCall R) ι := ⟨endpoint, fun _ => {}⟩

section Calls

variable {R ι : Type} [DecidableEq ι] {maxRetries : ℕ} {endpoint : Endpoint} {w : Crew Endpoint (SendCall R) ι}

theorem sound_of_reaches (h : (atRest ι endpoint).Reaches (SendCall.act maxRetries) w) (i : ι) :
    (w.locals i).Sound maxRetries :=
  h.forall_locals (fun _ _ _ _ hcall hact => SendCall.sound_of_acts (SendCall.acts_of_act hact) hcall)
    (fun _ => SendCall.sound_idle maxRetries) i

theorem consecutiveFailures_currentState (breaker : CircuitBreaker) (now : ℚ) :
    (breaker.currentState now).consecutiveFailures = breaker.consecutiveFailures := by
  rw [CircuitBreaker.currentState]
  split <;> rfl

theorem consecutiveFailures_allowAttempt (breaker : CircuitBreaker) (now : ℚ) :
    (breaker.allowAttempt now).2.consecutiveFailures = breaker.consecutiveFailures := by
  rw [← consecutiveFailures_currentState breaker now, CircuitBreaker.allowAttempt]
  split
  · rfl
  · split <;> rfl
  · rfl

/-- At every instant of every interleaving: a call sends at most once more than it may retry, every send but the last ended before anything was delivered, and the breaker is told of a success or a failure exactly when there is one. A call that is turned away sends nothing and is not counted. -/
theorem delivered_never_sent_again (h : (atRest ι endpoint).Reaches (SendCall.act maxRetries) w) (i : ι) :
    (w.locals i).performed ≤ maxRetries + 1 ∧
      (∀ outcome ∈ (w.locals i).sends.dropLast, outcome.isConnectFailure = true) ∧
      ((w.locals i).inFlight = true → ∀ outcome ∈ (w.locals i).sends, outcome.isConnectFailure = true) ∧
      (w.locals i).records.length ≤ 1 ∧
      (.success ∈ (w.locals i).records ↔ ∃ response, .response response ∈ (w.locals i).sends) ∧
      (.failure ∈ (w.locals i).records ↔ (w.locals i).sends.length = maxRetries + 1 ∧
        ∀ outcome ∈ (w.locals i).sends, outcome.isConnectFailure = true) ∧
      (∀ message, (w.locals i).phase = .rejected message → (w.locals i).performed = 0) ∧
      ∀ event next message, SendCall.act maxRetries event (w.locals i) w.shared = some next →
        next.1.phase = .rejected message →
        next.1.performed = 0 ∧ next.2.breaker.consecutiveFailures = w.shared.breaker.consecutiveFailures := by
  have hsound := sound_of_reaches h i
  have hrejected : ∀ {call : SendCall R} {message}, call.Sound maxRetries → call.phase = .rejected message →
      call.performed = 0 := by
    intro call message hcall hphase
    have hloop := hcall.loop
    rw [SendCall.InLoop, hphase] at hloop
    rw [SendCall.performed, hphase]
    simp [hloop]
  obtain ⟨hsuccess, hfailure⟩ := SendCall.mem_verdict maxRetries (w.locals i).sends
  rw [← hsound.records] at hsuccess hfailure
  refine ⟨hsound.performed_le, hsound.undelivered, hsound.undelivered_inFlight, ?_, hsuccess, hfailure,
    fun message => hrejected hsound, ?_⟩
  · rw [hsound.records, SendCall.verdict]
    split
    · exact le_rfl
    · split <;> simp
  · intro event next message hact hphase
    have hacts := SendCall.acts_of_act hact
    refine ⟨hrejected (SendCall.sound_of_acts hacts hsound) hphase, ?_⟩
    cases hacts with
    | reject now later =>
      simp only [Endpoint.advance]
      rw [consecutiveFailures_currentState, consecutiveFailures_allowAttempt]
    | allow | retry | wake | finish | cancel => cases hphase

end Calls

def freshEndpoint (threshold : ℕ) (h : 0 < threshold) (resetSeconds clock : ℚ) : Endpoint where
  breaker := { threshold, threshold_pos := h, resetSeconds }
  clock

def retriedOnce : List (Unit × CallEvent ℕ) :=
  [((), .start 0 0), ((), .sendEnds (.failed (.connectError "refused")) 1), ((), .sleepEnds), ((), .sendEnds (.response 200) 2)]

/-- The call that is answered at its second send records a success. -/
theorem delivered_never_sent_again_retried :
    ∃ w, (atRest Unit (freshEndpoint 1 (by decide) 10 0)).run (SendCall.act 1) retriedOnce = some w ∧
      (w.locals ()).sends = [.failed (.connectError "refused"), .response 200] ∧ .success ∈ (w.locals ()).records := by
  obtain ⟨w, hrun, hsends⟩ : ∃ w, (atRest Unit (freshEndpoint 1 (by decide) 10 0)).run (SendCall.act 1) retriedOnce = some w ∧
      (w.locals ()).sends = [.failed (.connectError "refused"), .response 200] := ⟨_, rfl, rfl⟩
  have hresponse := (delivered_never_sent_again ⟨retriedOnce, hrun⟩ ()).2.2.2.2.1
  exact ⟨w, hrun, hsends, hresponse.mpr ⟨200, by simp [hsends]⟩⟩

end ContextProxy
