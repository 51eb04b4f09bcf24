import ContextProxy.Provider.Resilience

/-!
# Probes of a half-open breaker

In a HALF_OPEN period the breaker reserves its one probe by a flag that all calls share, and every call clears the flag at its end. So a call that was admitted earlier and ends without a record while a probe is under way lets a second probe in. That takes as many calls as the threshold and three more (`singleProbe_iff`).
-/

namespace ContextProxy

open List

namespace CircuitBreaker

theorem currentState_cases (breaker : CircuitBreaker) (now : ℚ) : breaker.currentState now = breaker ∨
      (breaker.state = .opened ∧ breaker.currentState now = { breaker with state := .halfOpen }) := by
  rw [currentState]
  split
  · rename_i hexpired
    exact .inr ⟨hexpired.1, rfl⟩
  · exact .inl rfl

theorem currentState_twice (breaker : CircuitBreaker) (now later : ℚ) :
    (breaker.currentState now).currentState later = breaker ∨
      (breaker.state = .opened ∧
        (breaker.currentState now).currentState later = { breaker with state := .halfOpen }) := by
  rcases currentState_cases breaker now with hsame | ⟨hopened, hhalf⟩
  · rw [hsame]
    exact currentState_cases breaker later
  · rw [hhalf, currentState, if_neg (by simp)]
    exact .inr ⟨hopened, rfl⟩

variable {breaker : CircuitBreaker}

theorem allowAttempt_of_refused {now : ℚ} (h : (breaker.allowAttempt now).1 = false) :
    (breaker.allowAttempt now).2 = breaker.currentState now := by
  rw [allowAttempt] at h ⊢
  split at h
  · rfl
  · split at h
    · rename_i hreserved
      simp [hreserved]
    · cases h
  · cases h

/-- An attempt is allowed in CLOSED, or as the only probe of a HALF_OPEN period that is under way or begins with it. -/
theorem allowAttempt_of_allowed {now : ℚ} (h : (breaker.allowAttempt now).1 = true) :
    (breaker.state = .closed ∧ (breaker.allowAttempt now).2 = breaker) ∨
      (breaker.state = .halfOpen ∧ breaker.probeReserved = false ∧
        (breaker.allowAttempt now).2 = { breaker with probeReserved := true }) ∨
      (breaker.state = .opened ∧
        (breaker.allowAttempt now).2 = { breaker with state := .halfOpen, probeReserved := true }) := by
  rw [allowAttempt] at h ⊢
  rcases currentState_cases breaker now with hsame | ⟨hopened, hhalf⟩
  · rw [hsame] at h ⊢
    cases hstate : breaker.state with
    | closed => exact .inl ⟨rfl, rfl⟩
    | opened => simp [hstate] at h
    | halfOpen =>
      simp only [hstate] at h ⊢
      split at h
      · cases h
      · rename_i hfree
        exact .inr (.inl ⟨trivial, Bool.eq_false_of_not_eq_true hfree, by simp [hfree]⟩)
  · rw [hhalf] at h ⊢
    simp only at h ⊢
    split at h
    · cases h
    · rename_i hfree
      exact .inr (.inr ⟨hopened, by simp [hfree]⟩)

theorem settle_success (breaker : CircuitBreaker) (now : ℚ) :
    (SendCall.settle breaker now (some .success)).state = .closed ∧
      (SendCall.settle breaker now (some .success)).consecutiveFailures = 0 ∧
      (SendCall.settle breaker now (some .success)).threshold = breaker.threshold := by
  simp only [SendCall.settle, releaseProbe, recordSuccess]
  by_cases hclosed : breaker.state = .closed
  · simp [hclosed]
  · simp [hclosed, transition]

/-- A recorded failure counts. The breaker stays closed only below its threshold. -/
theorem settle_failure (breaker : CircuitBreaker) (now : ℚ) :
    (SendCall.settle breaker now (some .failure)).consecutiveFailures = breaker.consecutiveFailures + 1 ∧
      (SendCall.settle breaker now (some .failure)).threshold = breaker.threshold ∧
      (SendCall.settle breaker now (some .failure)).state
        = if breaker.state = .closed ∧ breaker.consecutiveFailures + 1 < breaker.threshold then .closed else .opened := by
  simp only [SendCall.settle, releaseProbe, recordFailure]
  cases hstate : breaker.state with
  | halfOpen => simp [transition]
  | opened => simp
  | closed =>
    by_cases hbelow : breaker.consecutiveFailures + 1 < breaker.threshold
    · simp [hbelow, Nat.not_le.mpr hbelow]
    · simp [hbelow, Nat.not_lt.mp hbelow, transition]

theorem settle_failure_of_closed (h : breaker.state = .closed) (now : ℚ) : SendCall.settle breaker now (some .failure) =
      if breaker.consecutiveFailures + 1 < breaker.threshold then
        { breaker with consecutiveFailures := breaker.consecutiveFailures + 1, probeReserved := false }
      else
        { breaker with
          state := .opened
          openedAt := now
          consecutiveFailures := breaker.consecutiveFailures + 1
          probeReserved := false } := by
  obtain ⟨threshold, hpos, resetSeconds, state, failures, openedAt, reserved⟩ := breaker
  obtain rfl : state = .closed := h
  by_cases hbelow : failures + 1 < threshold
  · simp [SendCall.settle, releaseProbe, recordFailure, hbelow, Nat.not_le.mpr hbelow]
  · simp [SendCall.settle, releaseProbe, recordFailure, transition, hbelow, Nat.not_lt.mp hbelow]

end CircuitBreaker

/-! ### Failed and lost calls -/

namespace SendCall

variable {R : Type}

def failed (call : SendCall R) : Bool := call.records.contains .failure

def lost (call : SendCall R) : Bool :=
  match call.phase with
  | .ended _ => call.records.isEmpty
  | .idle | .rejected _ | .sending _ | .sleeping _ => false

theorem Sound.records_of_inFlight {maxRetries : ℕ} {call : SendCall R} (h : call.Sound maxRetries)
    (hinFlight : call.inFlight = true) : call.records = [] := by
  rw [h.records]
  apply verdict_of_undelivered (h.undelivered_inFlight hinFlight)
  have hloop := h.loop
  rw [InLoop] at hloop
  rw [inFlight] at hinFlight
  cases hphase : call.phase with
  | sending attempt | sleeping attempt =>
    rw [hphase] at hloop
    simp only at hloop
    omega
  | idle | rejected message | ended result =>
    rw [hphase] at hinFlight
    cases hinFlight

end SendCall

section Probes

variable {R ι : Type} [DecidableEq ι] [Fintype ι] {maxRetries : ℕ} {w : Crew Endpoint (SendCall R) ι}

/-- The call is in flight and was admitted as a probe of the latest HALF_OPEN period. -/
def Probing (w : Crew Endpoint (SendCall R) ι) (i : ι) : Prop :=
  (w.locals i).inFlight = true ∧ (w.locals i).probe = some w.shared.period

/-- There is at most one probe of the current HALF_OPEN period. -/
def SingleProbe (w : Crew Endpoint (SendCall R) ι) : Prop :=
  w.shared.breaker.state = .halfOpen → ∀ i j, Probing w i → Probing w j → i = j

/-- What holds at every instant: the breaker counts calls that failed and trips on them, and as long as no call is lost the flag stands for the one probe. -/
structure Guarded (threshold maxRetries : ℕ) (w : Crew Endpoint (SendCall R) ι) : Prop where
  threshold_eq : w.shared.breaker.threshold = threshold
  sound : ∀ i, (w.locals i).Sound maxRetries
  failures : w.shared.breaker.consecutiveFailures ≤ w.count SendCall.failed
  tripped : w.shared.breaker.state ≠ .closed → threshold ≤ w.count SendCall.failed
  periods : ∀ i period, (w.locals i).probe = some period → period ≤ w.shared.period
  reserved : w.shared.breaker.state = .halfOpen → (∀ i, (w.locals i).lost = false) →
    ∀ i, Probing w i → w.shared.breaker.probeReserved = true ∧ ∀ j, Probing w j → j = i

variable {endpoint : Endpoint}

omit [DecidableEq ι] in
theorem guarded_atRest (maxRetries : ℕ) (h : endpoint.breaker.state = .closed)
    (hfailures : endpoint.breaker.consecutiveFailures = 0) :
    Guarded endpoint.breaker.threshold maxRetries (atRest ι endpoint : Crew Endpoint (SendCall R) ι) where
  threshold_eq := rfl
  sound _ := SendCall.sound_idle maxRetries
  failures := hfailures.trans_le (Nat.zero_le _)
  tripped hstate := absurd h hstate
  periods i period hprobe := by cases hprobe
  reserved hstate := by
    have : endpoint.breaker.state = .halfOpen := hstate
    simp [h] at this

namespace Guarded

variable {threshold : ℕ} {i : ι} {next : SendCall R × Endpoint}

theorem sound_put (h : Guarded threshold maxRetries w) (hact : SendCall.Acts maxRetries (w.locals i) w.shared next) (j : ι) :
    ((w.put i next).locals j).Sound maxRetries :=
  Crew.forall_put (P := fun _ => SendCall.Sound maxRetries) (SendCall.sound_of_acts hact (h.sound i))
    (fun j _ => h.sound j) j

theorem periods_put (h : Guarded threshold maxRetries w) (hperiod : w.shared.period ≤ next.2.period)
    (hprobe : next.1.probe = (w.locals i).probe ∨ ∀ period, next.1.probe = some period → period = next.2.period)
    (j : ι) (period : ℕ) (hj : ((w.put i next).locals j).probe = some period) : period ≤ (w.put i next).shared.period := by
  refine Crew.forall_put (P := fun _ (call : SendCall R) => call.probe = some period → period ≤ next.2.period) ?_ ?_ j hj
  · intro hmoved
    rcases hprobe with hsame | hnew
    · exact (h.periods i period (hsame ▸ hmoved)).trans hperiod
    · exact (hnew period hmoved).le
  · intro k _ hk
    exact (h.periods k period hk).trans hperiod

theorem eq_of_probing_new (h : Guarded threshold maxRetries w) (hperiod : next.2.period = w.shared.period + 1) {j : ι}
    (hj : Probing (w.put i next) j) : j = i := by
  by_contra hne
  obtain ⟨-, hprobe⟩ := hj
  rw [Crew.put_locals_of_ne next hne, Crew.put_shared, hperiod] at hprobe
  have := h.periods j _ hprobe
  omega

omit [Fintype ι] in
theorem probing_of_put (hperiod : next.2.period = w.shared.period)
    (hcall : next.1.inFlight = true → (w.locals i).inFlight = true ∧ next.1.probe = (w.locals i).probe) {j : ι}
    (hj : Probing (w.put i next) j) : Probing w j := by
  obtain ⟨hinFlight, hprobe⟩ := hj
  rw [Crew.put_shared, hperiod] at hprobe
  by_cases hji : j = i
  · rw [hji, Crew.put_locals_self] at hinFlight hprobe
    rw [hji]
    exact ⟨(hcall hinFlight).1, (hcall hinFlight).2 ▸ hprobe⟩
  · rw [Crew.put_locals_of_ne next hji] at hinFlight hprobe
    exact ⟨hinFlight, hprobe⟩

omit [Fintype ι] in
theorem lost_of_put (hcall : (w.locals i).lost = false) (hlost : ∀ j, ((w.put i next).locals j).lost = false) (j : ι) :
    (w.locals j).lost = false := by
  by_cases hji : j = i
  · rw [hji, hcall]
  · have hj := hlost j
    rwa [Crew.put_locals_of_ne next hji] at hj

/-- An action without a record leaves the count of failures as it is. What is left to show is what the flag stands for. -/
theorem put_of_unrecorded (h : Guarded threshold maxRetries w) (hact : SendCall.Acts maxRetries (w.locals i) w.shared next)
    (hrecords : next.1.records = (w.locals i).records)
    (hthreshold : next.2.breaker.threshold = w.shared.breaker.threshold)
    (hfailures : next.2.breaker.consecutiveFailures = w.shared.breaker.consecutiveFailures)
    (hclosed : w.shared.breaker.state = .closed → next.2.breaker.state = .closed)
    (hperiod : w.shared.period ≤ next.2.period)
    (hprobe : next.1.probe = (w.locals i).probe ∨ ∀ period, next.1.probe = some period → period = next.2.period)
    (hreserved : next.2.breaker.state = .halfOpen → (∀ j, ((w.put i next).locals j).lost = false) →
      ∀ j, Probing (w.put i next) j → next.2.breaker.probeReserved = true ∧ ∀ k, Probing (w.put i next) k → k = j) :
    Guarded threshold maxRetries (w.put i next) := by
  have hcount : (w.put i next).count SendCall.failed = w.count SendCall.failed :=
    Crew.count_put_of_same (by rw [SendCall.failed, SendCall.failed, hrecords])
  refine ⟨hthreshold.trans h.threshold_eq, h.sound_put hact, ?_, ?_, h.periods_put hperiod hprobe, hreserved⟩
  · rw [hcount, Crew.put_shared, hfailures]
    exact h.failures
  · intro hstate
    rw [hcount]
    exact h.tripped fun hbefore => hstate (hclosed hbefore)

theorem put_of_unchanged (h : Guarded threshold maxRetries w) (hact : SendCall.Acts maxRetries (w.locals i) w.shared next)
    (hrecords : next.1.records = (w.locals i).records) (hlost : (w.locals i).lost = false)
    (hprobe : next.1.probe = (w.locals i).probe) (hinFlight : next.1.inFlight = true → (w.locals i).inFlight = true)
    (hbreaker : next.2.breaker = w.shared.breaker) (hperiod : next.2.period = w.shared.period) :
    Guarded threshold maxRetries (w.put i next) := by
  refine h.put_of_unrecorded hact hrecords (by rw [hbreaker]) (by rw [hbreaker]) (by rw [hbreaker]; exact id) hperiod.ge
    (.inl hprobe) ?_
  intro hstate hnone j hj
  rw [hbreaker] at hstate ⊢
  have hback : ∀ {k}, Probing (w.put i next) k → Probing w k :=
    probing_of_put hperiod fun hflying => ⟨hinFlight hflying, hprobe⟩
  obtain ⟨hreserved, honly⟩ := h.reserved hstate (lost_of_put hlost hnone) j (hback hj)
  exact ⟨hreserved, fun k hk => honly k (hback hk)⟩

variable {now : ℚ}

section

variable (h : Guarded threshold maxRetries w) (hact : SendCall.Acts maxRetries (w.locals i) w.shared next)
include h hact

theorem put_of_rejected {later : ℚ} (hphase : (w.locals i).phase = .idle)
    (hrecords : next.1.records = (w.locals i).records) (hprobe : next.1.probe = (w.locals i).probe)
    (hinFlight : next.1.inFlight = false)
    (hnext : next.2 = w.shared.advance ((w.shared.breaker.currentState now).currentState later) later) :
    Guarded threshold maxRetries (w.put i next) := by
  rcases w.shared.breaker.currentState_twice now later with hsame | ⟨hopened, hhalf⟩
  · rw [hsame] at hnext
    apply h.put_of_unchanged hact hrecords (by rw [SendCall.lost, hphase]) hprobe (by simp [hinFlight])
    · rw [hnext, Endpoint.advance]
    · rw [hnext, Endpoint.advance]
      simp
  · rw [hhalf] at hnext
    have hperiod : next.2.period = w.shared.period + 1 := by rw [hnext, Endpoint.advance]; simp [hopened]
    refine h.put_of_unrecorded hact hrecords (by rw [hnext]; rfl) (by rw [hnext]; rfl) (by simp [hopened]) (by omega)
      (.inl hprobe) ?_
    intro _ _ j hj
    obtain rfl := h.eq_of_probing_new hperiod hj
    obtain ⟨hflying, -⟩ := hj
    rw [Crew.put_locals_self, hinFlight] at hflying
    cases hflying

theorem put_of_admitted (hphase : (w.locals i).phase = .idle) (hallowed : (w.shared.breaker.allowAttempt now).1 = true)
    (hrecords : next.1.records = (w.locals i).records)
    (hprobe : ∀ period, next.1.probe = some period → period = next.2.period)
    (hnext : next.2 = w.shared.advance (w.shared.breaker.allowAttempt now).2 now) :
    Guarded threshold maxRetries (w.put i next) := by
  rcases CircuitBreaker.allowAttempt_of_allowed hallowed with
    ⟨hclosed, hsame⟩ | ⟨hhalf, hfree, hreserve⟩ | ⟨hopened, hreserve⟩
  · rw [hsame] at hnext
    have hperiod : next.2.period = w.shared.period := by rw [hnext, Endpoint.advance]; simp
    have hstate : next.2.breaker.state = .closed := by rw [hnext]; exact hclosed
    exact h.put_of_unrecorded hact hrecords (by rw [hnext]; rfl) (by rw [hnext]; rfl) (fun _ => hstate) hperiod.ge
      (.inr hprobe) (by simp [hstate])
  · rw [hreserve] at hnext
    have hperiod : next.2.period = w.shared.period := by rw [hnext, Endpoint.advance]; simp [hhalf]
    refine h.put_of_unrecorded hact hrecords (by rw [hnext]; rfl) (by rw [hnext]; rfl) (by simp [hhalf]) hperiod.ge
      (.inr hprobe) ?_
    intro _ hnone
    -- the flag was clear, so no call was a probe before this one
    have honly : ∀ j, Probing (w.put i next) j → j = i := by
      intro j hj
      by_contra hne
      obtain ⟨hflying, hprobing⟩ := hj
      rw [Crew.put_locals_of_ne next hne] at hflying hprobing
      rw [Crew.put_shared, hperiod] at hprobing
      have hlost : (w.locals i).lost = false := by rw [SendCall.lost, hphase]
      have hreserved := (h.reserved hhalf (lost_of_put hlost hnone) j ⟨hflying, hprobing⟩).1
      simp [hfree] at hreserved
    intro j hj
    refine ⟨by rw [hnext]; rfl, fun k hk => ?_⟩
    rw [honly j hj, honly k hk]
  · rw [hreserve] at hnext
    have hperiod : next.2.period = w.shared.period + 1 := by rw [hnext, Endpoint.advance]; simp [hopened]
    refine h.put_of_unrecorded hact hrecords (by rw [hnext]; rfl) (by rw [hnext]; rfl) (by simp [hopened]) (by omega)
      (.inr hprobe) ?_
    intro _ _ j hj
    refine ⟨by rw [hnext]; rfl, fun k hk => ?_⟩
    rw [h.eq_of_probing_new hperiod hj, h.eq_of_probing_new hperiod hk]

theorem put_of_success (hbreaker : next.2.breaker = SendCall.settle w.shared.breaker now (some .success))
    (hperiod : w.shared.period ≤ next.2.period) (hprobe : next.1.probe = (w.locals i).probe) :
    Guarded threshold maxRetries (w.put i next) := by
  obtain ⟨hstate, hfailures, hthreshold⟩ := CircuitBreaker.settle_success w.shared.breaker now
  rw [← hbreaker] at hstate hfailures hthreshold
  refine ⟨hthreshold.trans h.threshold_eq, h.sound_put hact, ?_, ?_, h.periods_put hperiod (.inl hprobe), ?_⟩
  · rw [Crew.put_shared, hfailures]
    exact Nat.zero_le _
  · rw [Crew.put_shared]
    exact fun hopen => absurd hstate hopen
  · rw [Crew.put_shared, hstate]
    intro hhalf
    cases hhalf

theorem put_of_failure (hbreaker : next.2.breaker = SendCall.settle w.shared.breaker now (some .failure))
    (hbefore : (w.locals i).failed = false) (hafter : next.1.failed = true) (hperiod : w.shared.period ≤ next.2.period)
    (hprobe : next.1.probe = (w.locals i).probe) : Guarded threshold maxRetries (w.put i next) := by
  obtain ⟨hfailures, hthreshold, hstate⟩ := CircuitBreaker.settle_failure w.shared.breaker now
  rw [← hbreaker] at hstate hfailures hthreshold
  have hcount : (w.put i next).count SendCall.failed = w.count SendCall.failed + 1 := Crew.count_put_of_gained hbefore hafter
  have hbound := h.failures
  refine ⟨hthreshold.trans h.threshold_eq, h.sound_put hact, ?_, ?_, h.periods_put hperiod (.inl hprobe), ?_⟩
  · rw [Crew.put_shared, hfailures, hcount]
    omega
  · rw [Crew.put_shared, hstate, hcount]
    intro hopen
    by_cases hclosed : w.shared.breaker.state = .closed
    · have := h.threshold_eq
      simp only [hclosed, true_and] at hopen
      split at hopen <;> simp at hopen
      omega
    · have := h.tripped hclosed
      omega
  · rw [Crew.put_shared, hstate]
    intro hhalf
    split at hhalf <;> cases hhalf

end

theorem put_of_concluded (h : Guarded threshold maxRetries w) {call : SendCall R} {record : Option Record}
    {result : SendResult R} (hnext : next = call.conclude w.shared now record result)
    (hact : SendCall.Acts maxRetries (w.locals i) w.shared next) (hrecords : call.records = (w.locals i).records)
    (hinFlight : (w.locals i).inFlight = true) (hprobe : call.probe = (w.locals i).probe) :
    Guarded threshold maxRetries (w.put i next) := by
  have hnone := (h.sound i).records_of_inFlight hinFlight
  have hbreaker : next.2.breaker = SendCall.settle w.shared.breaker now record := by rw [hnext]; rfl
  have hafter : next.1.records = record.toList := by rw [hnext, SendCall.conclude, hrecords, hnone, nil_append]
  have hprobe : next.1.probe = (w.locals i).probe := by rw [hnext]; exact hprobe
  have hperiod : w.shared.period ≤ next.2.period := by
    rw [hnext, SendCall.conclude, Endpoint.advance]
    simp only
    split <;> omega
  cases record with
  | none =>
    have hlost : next.1.lost = true := by
      rw [SendCall.lost, hafter, hnext]
      rfl
    refine h.put_of_unrecorded hact (by rw [hafter, hnone]; rfl) (by rw [hbreaker]; rfl) (by rw [hbreaker]; rfl)
      (by rw [hbreaker]; exact id) hperiod (.inl hprobe) ?_
    intro _ hnolost
    have hi := hnolost i
    rw [Crew.put_locals_self, hlost] at hi
    cases hi
  | some record =>
    cases record with
    | success => exact h.put_of_success hact hbreaker hperiod hprobe
    | failure =>
      have hbefore : (w.locals i).failed = false := by simp [SendCall.failed, hnone]
      have hfailed : next.1.failed = true := by
        rw [SendCall.failed, hafter]
        rfl
      exact h.put_of_failure hact hbreaker hbefore hfailed hperiod hprobe

theorem put (h : Guarded threshold maxRetries w) (hact : SendCall.Acts maxRetries (w.locals i) w.shared next) :
    Guarded threshold maxRetries (w.put i next) := by
  have hall := hact
  cases hact with
  | reject now later message hphase hclock hlater hrefused =>
    rw [CircuitBreaker.allowAttempt_of_refused hrefused] at hall ⊢
    exact h.put_of_rejected hall hphase rfl rfl rfl rfl
  | allow now hphase hclock hallowed =>
    refine h.put_of_admitted hall hphase hallowed rfl ?_ rfl
    intro period hperiod
    simp only at hperiod ⊢
    split at hperiod
    · exact (Option.some.inj hperiod).symm
    · cases hperiod
  | retry attempt outcome now hphase hclock houtcome hattempt =>
    refine h.put_of_unchanged hall rfl (by rw [SendCall.lost, hphase]) rfl (by simp [SendCall.inFlight, hphase]) rfl ?_
    simp [Endpoint.advance]
  | wake attempt hphase =>
    exact h.put_of_unchanged hall rfl (by rw [SendCall.lost, hphase]) rfl (by simp [SendCall.inFlight, hphase]) rfl rfl
  | finish attempt outcome now result record hphase hclock hlast hrecord =>
    exact h.put_of_concluded rfl hall rfl (by simp [SendCall.inFlight, hphase]) rfl
  | cancel attempt result hphase =>
    exact h.put_of_concluded rfl hall rfl (by simp [SendCall.inFlight, hphase]) rfl

end Guarded

theorem guarded_of_reaches (hclosed : endpoint.breaker.state = .closed)
    (hfailures : endpoint.breaker.consecutiveFailures = 0) (h : (atRest ι endpoint).Reaches (SendCall.act maxRetries) w) :
    Guarded endpoint.breaker.threshold maxRetries w :=
  h.invariant (fun _ _ _ _ hw hact => hw.put (SendCall.acts_of_act hact)) (guarded_atRest maxRetries hclosed hfailures)

omit [DecidableEq ι] in
/-- As long as no call is lost, there is at most one probe. -/
theorem Guarded.singleProbe {threshold : ℕ} (h : Guarded threshold maxRetries w) (hnone : ∀ i, (w.locals i).lost = false) :
    SingleProbe w := fun hhalf i j hi hj => (h.reserved hhalf hnone j hj).2 i hi

/-- Two probes take the calls that tripped the breaker, a lost call, and the two. -/
theorem Guarded.card_of_probes {threshold : ℕ} (h : Guarded threshold maxRetries w) (hw : ¬SingleProbe w) :
    threshold + 3 ≤ Fintype.card ι := by
  obtain ⟨k, hk⟩ : ∃ k, (w.locals k).lost = true := by
    by_contra hnone
    exact hw (h.singleProbe (by simpa using hnone))
  simp only [SingleProbe, not_forall] at hw
  obtain ⟨hhalf, i, j, hi, hj, hne⟩ := hw
  have hfailed : ∀ {l}, (w.locals l).records = [] → (w.locals l).failed = false := by
    intro l hl
    simp [SendCall.failed, hl]
  have hlost : (w.locals k).records = [] ∧ (w.locals k).inFlight = false := by
    rw [SendCall.lost] at hk
    rw [SendCall.inFlight]
    split at hk
    · rename_i hphase
      exact ⟨List.isEmpty_iff.mp hk, by rw [hphase]⟩
    all_goals cases hk
  have hki : k ≠ i := by
    rintro rfl
    exact absurd hi.1 (by simp [hlost.2])
  have hkj : k ≠ j := by
    rintro rfl
    exact absurd hj.1 (by simp [hlost.2])
  have htripped := h.tripped (by simp [hhalf])
  have hcard : (insert i (insert j (insert k (Finset.univ.filter fun l => (w.locals l).failed = true)))).card
      = w.count SendCall.failed + 3 := by
    rw [Finset.card_insert_of_notMem, Finset.card_insert_of_notMem, Finset.card_insert_of_notMem, Crew.count]
    · simp [hfailed hlost.1]
    · simp [hkj.symm, hfailed ((h.sound j).records_of_inFlight hj.1)]
    · simp [hne, hki.symm, hfailed ((h.sound i).records_of_inFlight hi.1)]
  have := Finset.card_le_univ (insert i (insert j (insert k (Finset.univ.filter fun l => (w.locals l).failed = true))))
  omega

end Probes

/-! ### A schedule with two probes -/

section TwoProbes

variable {R ι : Type} [DecidableEq ι] {maxRetries : ℕ} {w : Crew Endpoint (SendCall R) ι}

/-- A schedule that moves only the given calls. -/
def ReachesBy (maxRetries : ℕ) (moved : List ι) (w w' : Crew Endpoint (SendCall R) ι) : Prop :=
  w.Reaches (SendCall.act maxRetries) w' ∧ ∀ j ∉ moved, w'.locals j = w.locals j

variable {w' : Crew Endpoint (SendCall R) ι}

theorem ReachesBy.trans {moved : List ι} {w'' : Crew Endpoint (SendCall R) ι} (h : ReachesBy maxRetries moved w w')
    (h' : ReachesBy maxRetries moved w' w'') : ReachesBy maxRetries moved w w'' := by
  refine ⟨h.1.trans h'.1, fun j hj => ?_⟩
  rw [h'.2 j hj, h.2 j hj]

theorem ReachesBy.mono {moved moved' : List ι} (h : ReachesBy maxRetries moved w w') (hsubset : moved ⊆ moved') :
    ReachesBy maxRetries moved' w w' := by
  refine ⟨h.1, fun j hj => ?_⟩
  exact h.2 j fun hmem => hj (hsubset hmem)

theorem reachesBy_put {i : ι} {event : CallEvent R} {next : SendCall R × Endpoint}
    (h : SendCall.act maxRetries event (w.locals i) w.shared = some next) : ReachesBy maxRetries [i] w (w.put i next) := by
  refine ⟨.head h (.refl _), fun j hj => ?_⟩
  apply Crew.put_locals_of_ne
  simpa using hj

theorem reachesBy_failure {i : ι} {attempt : ℕ} (hphase : (w.locals i).phase = .sending attempt)
    (hattempt : attempt ≤ maxRetries) : ∃ w', ReachesBy maxRetries [i] w w' ∧
      w'.shared.breaker = SendCall.settle w.shared.breaker w.shared.clock (some .failure) ∧
      w'.shared.clock = w.shared.clock := by
  obtain ⟨left, hleft⟩ := Nat.exists_eq_add_of_le hattempt
  have hact : SendCall.act maxRetries (.sendEnds (.failed (.connectError "")) w.shared.clock) (w.locals i) w.shared
      = some (SendCall.endSend maxRetries attempt (w.locals i) w.shared (.failed (.connectError "")) w.shared.clock) := by
    simp [SendCall.act, hphase]
  induction left generalizing attempt w with
  | zero =>
    refine ⟨_, reachesBy_put hact, ?_, ?_⟩ <;>
      simp [SendCall.endSend, HttpError.isRetryable, hleft, SendCall.conclude, Endpoint.advance]
  | succ left ih =>
    generalize hslept : w.put i
      (SendCall.endSend maxRetries attempt (w.locals i) w.shared (.failed (.connectError "")) w.shared.clock) = slept
    have hattempt' : attempt ≠ maxRetries := by omega
    have hsleeping : (slept.locals i).phase = .sleeping attempt := by
      simp [← hslept, SendCall.endSend, HttpError.isRetryable, hattempt']
    have hwake : SendCall.act maxRetries .sleepEnds (slept.locals i) slept.shared
        = some ({ slept.locals i with phase := .sending (attempt + 1) }, slept.shared) := by
      simp [SendCall.act, hsleeping]
    generalize hwoken : slept.put i ({ slept.locals i with phase := .sending (attempt + 1) }, slept.shared) = woken
    have hshared : woken.shared.breaker = w.shared.breaker ∧ woken.shared.clock = w.shared.clock := by
      simp [← hwoken, ← hslept, SendCall.endSend, HttpError.isRetryable, hattempt', Endpoint.advance]
    have hsending : (woken.locals i).phase = .sending (attempt + 1) := by simp [← hwoken]
    obtain ⟨w', hreaches, hbreaker, hclock⟩ := ih hsending (by omega) (by omega) (by simp [SendCall.act, hsending])
    refine ⟨w', ?_, ?_, ?_⟩
    · exact (hslept ▸ reachesBy_put hact).trans ((hwoken ▸ reachesBy_put hwake).trans hreaches)
    · rw [hbreaker, hshared.1, hshared.2]
    · rw [hclock, hshared.2]

theorem reachesBy_begin {i : ι} (h : (w.locals i).phase = .idle) :
    ReachesBy maxRetries [i] w (w.put i ((w.locals i).begin w.shared w.shared.clock w.shared.clock)) :=
  have hact : SendCall.act maxRetries (.start w.shared.clock w.shared.clock) (w.locals i) w.shared
      = some ((w.locals i).begin w.shared w.shared.clock w.shared.clock) := by simp [SendCall.act, h]
  reachesBy_put hact

theorem reachesBy_tripped (maxRetries : ℕ) {calls : List ι} (hnodup : calls.Nodup)
    (hidle : ∀ i ∈ calls, (w.locals i).phase = .idle) (hne : calls ≠ []) (hclosed : w.shared.breaker.state = .closed)
    (hcount : w.shared.breaker.consecutiveFailures + calls.length = w.shared.breaker.threshold) :
    ∃ w', ReachesBy maxRetries calls w w' ∧ w'.shared.breaker.state = .opened ∧
      w'.shared.breaker.openedAt = w.shared.clock ∧ w'.shared.breaker.probeReserved = false ∧
      w'.shared.breaker.resetSeconds = w.shared.breaker.resetSeconds ∧ w'.shared.clock = w.shared.clock := by
  induction calls generalizing w with
  | nil => exact absurd rfl hne
  | cons i calls ih =>
    generalize hbegun : w.put i ((w.locals i).begin w.shared w.shared.clock w.shared.clock) = begun
    have hallowed : w.shared.breaker.allowAttempt w.shared.clock = (true, w.shared.breaker) := by
      simp [CircuitBreaker.allowAttempt, CircuitBreaker.currentState, hclosed]
    have hsending : (begun.locals i).phase = .sending 0 := by simp [← hbegun, SendCall.begin, hallowed]
    have hshared : begun.shared.breaker = w.shared.breaker ∧ begun.shared.clock = w.shared.clock := by
      simp [← hbegun, SendCall.begin, hallowed, Endpoint.advance]
    obtain ⟨failed, hfailed, hbreaker, hclock⟩ := reachesBy_failure hsending (Nat.zero_le maxRetries)
    have hfirst : ReachesBy maxRetries [i] w failed :=
      (hbegun ▸ reachesBy_begin (hidle i (by simp))).trans hfailed
    rw [hshared.1, hshared.2, CircuitBreaker.settle_failure_of_closed hclosed] at hbreaker
    rw [hshared.2] at hclock
    rw [length_cons] at hcount
    obtain ⟨hi, hnodup⟩ := nodup_cons.mp hnodup
    by_cases hlast : calls = []
    · rw [if_neg (by simp [hlast] at hcount; omega)] at hbreaker
      refine ⟨failed, hfirst.mono (by simp), ?_, ?_, ?_, ?_, hclock⟩ <;> rw [hbreaker]
    · have hlength := length_pos_of_ne_nil hlast
      rw [if_pos (by omega)] at hbreaker
      have hstill : ∀ j ∈ calls, (failed.locals j).phase = .idle := by
        intro j hj
        have hij : j ∉ [i] := fun hmem => hi (mem_singleton.mp hmem ▸ hj)
        rw [hfirst.2 j hij]
        exact hidle j (by simp [hj])
      obtain ⟨w', hreaches, hrest⟩ := ih hnodup hstill hlast (by rw [hbreaker]; exact hclosed)
        (by rw [hbreaker]; simp only; omega)
      rw [hclock, hbreaker] at hrest
      exact ⟨w', (hfirst.mono (by simp)).trans (hreaches.mono (by simp)), hrest⟩

/-- The breaker is open, and a call that was admitted before is still in flight. A probe is let in when the time has come; the early call ends without a record, and a second probe is let in. -/
theorem exists_two_probes_of_opened (maxRetries : ℕ) {early probe second : ι} {attempt : ℕ} (hep : early ≠ probe) (hes : early ≠ second)
    (hps : probe ≠ second) (hearly : (w.locals early).phase = .sending attempt) (hprobe : (w.locals probe).phase = .idle)
    (hsecond : (w.locals second).phase = .idle) (hopened : w.shared.breaker.state = .opened)
    (hfree : w.shared.breaker.probeReserved = false) (hopenedAt : w.shared.breaker.openedAt = w.shared.clock) :
    ∃ w', w.Reaches (SendCall.act maxRetries) w' ∧ ¬SingleProbe w' := by
  generalize hnow : w.shared.clock + max w.shared.breaker.resetSeconds 0 = now
  have hlater : w.shared.clock ≤ now := hnow ▸ le_add_of_nonneg_right (le_max_right _ _)
  have hexpired : w.shared.breaker.resetSeconds ≤ now - w.shared.breaker.openedAt := by
    rw [← hnow, hopenedAt, add_sub_cancel_left]
    exact le_max_left _ _
  have hallowed : w.shared.breaker.allowAttempt now
      = (true, { w.shared.breaker with state := .halfOpen, probeReserved := true }) := by
    simp [CircuitBreaker.allowAttempt, CircuitBreaker.currentState, CircuitBreaker.transition, hopened, hexpired, hfree]
  have hstart : SendCall.act maxRetries (.start now now) (w.locals probe) w.shared
      = some ((w.locals probe).begin w.shared now now) := by
    simp [SendCall.act, hprobe, hlater]
  -- the first probe is in flight
  generalize hu : w.put probe ((w.locals probe).begin w.shared now now) = u
  have hfirst : ReachesBy maxRetries [probe] w u := hu ▸ reachesBy_put hstart
  have hprobing : Probing u probe := by
    rw [Probing, ← hu, Crew.put_locals_self, Crew.put_shared]
    simp [SendCall.begin, hallowed, SendCall.inFlight]
  have hhalf : u.shared.breaker.state = .halfOpen := by simp [← hu, SendCall.begin, hallowed, Endpoint.advance]
  have hsending : (u.locals early).phase = .sending attempt := by rw [hfirst.2 early (by simpa using hep), hearly]
  have hcancel : SendCall.act maxRetries (.sendEnds .cancelled u.shared.clock) (u.locals early) u.shared
      = some ((u.locals early).endSend maxRetries attempt u.shared .cancelled u.shared.clock) := by
    simp [SendCall.act, hsending]
  -- the early call has cleared its flag
  generalize hv : u.put early ((u.locals early).endSend maxRetries attempt u.shared .cancelled u.shared.clock) = v
  have hlost : ReachesBy maxRetries [early] u v := hv ▸ reachesBy_put hcancel
  have hbreaker : v.shared.breaker = u.shared.breaker.releaseProbe ∧ v.shared.period = u.shared.period := by
    simp [← hv, SendCall.endSend, SendCall.conclude, Endpoint.advance, SendCall.settle, CircuitBreaker.releaseProbe]
  have hidle : (v.locals second).phase = .idle := by
    rw [hlost.2 second (by simpa using hes.symm), hfirst.2 second (by simpa using hps.symm), hsecond]
  have hagain : v.shared.breaker.allowAttempt v.shared.clock
      = (true, { u.shared.breaker with probeReserved := true }) := by
    simp [hbreaker.1, CircuitBreaker.releaseProbe, CircuitBreaker.allowAttempt, CircuitBreaker.currentState, hhalf]
  -- and the second probe is admitted in the same period
  generalize hx : v.put second ((v.locals second).begin v.shared v.shared.clock v.shared.clock) = x
  have hlast : ReachesBy maxRetries [second] v x := hx ▸ reachesBy_begin hidle
  have hshared : x.shared.breaker.state = .halfOpen ∧ x.shared.period = u.shared.period := by
    have hstill : v.shared.breaker.state = .halfOpen := by
      rw [hbreaker.1]
      exact hhalf
    simp [← hx, SendCall.begin, hagain, Endpoint.advance, hhalf, hstill, hbreaker.2]
  refine ⟨x, hfirst.1.trans (hlost.1.trans hlast.1), fun hsingle => hps ?_⟩
  apply hsingle hshared.1
  · rw [Probing, hshared.2, hlast.2 probe (by simpa using hps), hlost.2 probe (by simpa using hep.symm)]
    exact hprobing
  · rw [Probing, ← hx, Crew.put_locals_self, Crew.put_shared]
    simp [SendCall.begin, hagain, SendCall.inFlight, hhalf]

/-- An early call, the calls that trip the breaker, a probe, the end of the early call, and a second probe. -/
theorem exists_two_probes (maxRetries : ℕ) {early probe second : ι} {calls : List ι}
    (hnodup : (early :: probe :: second :: calls).Nodup) (hclosed : w.shared.breaker.state = .closed)
    (hfailures : w.shared.breaker.consecutiveFailures = 0) (hcount : calls.length = w.shared.breaker.threshold)
    (hidle : ∀ i, w.locals i = {}) : ∃ w', w.Reaches (SendCall.act maxRetries) w' ∧ ¬SingleProbe w' := by
  have hdistinct : early ≠ probe ∧ early ≠ second ∧ probe ≠ second ∧ early ∉ calls ∧ probe ∉ calls ∧ second ∉ calls := by
    simp only [nodup_cons, mem_cons, not_or] at hnodup
    tauto
  obtain ⟨hep, hes, hps, hearly, hprobe, hsecond⟩ := hdistinct
  have hcallsnodup : calls.Nodup := by
    simp only [nodup_cons] at hnodup
    exact hnodup.2.2.2
  -- the early call is admitted while the breaker is closed
  generalize hbegun : w.put early ((w.locals early).begin w.shared w.shared.clock w.shared.clock) = begun
  have hallowed : w.shared.breaker.allowAttempt w.shared.clock = (true, w.shared.breaker) := by
    simp [CircuitBreaker.allowAttempt, CircuitBreaker.currentState, hclosed]
  have hbegin : ReachesBy maxRetries [early] w begun := hbegun ▸ reachesBy_begin (by rw [hidle early])
  have hsending : (begun.locals early).phase = .sending 0 := by simp [← hbegun, SendCall.begin, hallowed]
  have hbreaker : begun.shared.breaker = w.shared.breaker := by simp [← hbegun, SendCall.begin, hallowed, Endpoint.advance]
  have hothers : ∀ i, i ≠ early → begun.locals i = {} := by
    intro i hi
    rw [hbegin.2 i (by simp [hi]), hidle i]
  -- the others trip it
  obtain ⟨tripped, htripped, hopened, hopenedAt, hfree, hreset, hclock⟩ := reachesBy_tripped maxRetries
    hcallsnodup (fun i hi => by rw [hothers i (fun heq => hearly (heq ▸ hi))])
    (ne_nil_of_length_pos (hcount ▸ w.shared.breaker.threshold_pos)) (hbreaker ▸ hclosed)
    (by rw [hbreaker, hfailures, hcount, Nat.zero_add])
  obtain ⟨w', hreaches, hw'⟩ := exists_two_probes_of_opened maxRetries hep hes hps
    (by rw [htripped.2 early hearly, hsending]) (by rw [htripped.2 probe hprobe, hothers probe hep.symm])
    (by rw [htripped.2 second hsecond, hothers second hes.symm]) hopened hfree (hopenedAt.trans hclock.symm)
  exact ⟨w', hbegin.1.trans (htripped.1.trans hreaches), hw'⟩

end TwoProbes

/-- As long as no admitted call is lost, there is at most one probe at a time. Whatever the interleaving, there is at most one exactly if there are too few calls to trip the breaker, lose one and probe twice. -/
theorem singleProbe_iff {R ι : Type} [DecidableEq ι] [Fintype ι] (maxRetries threshold : ℕ) (hpos : 0 < threshold)
    (resetSeconds clock : ℚ) : (∀ w : Crew Endpoint (SendCall R) ι,
        (atRest ι (freshEndpoint threshold hpos resetSeconds clock)).Reaches (SendCall.act maxRetries) w →
          (∀ i, (w.locals i).lost = false) → SingleProbe w) ∧
      ((∀ w : Crew Endpoint (SendCall R) ι,
          (atRest ι (freshEndpoint threshold hpos resetSeconds clock)).Reaches (SendCall.act maxRetries) w → SingleProbe w) ↔
        Fintype.card ι < threshold + 3) := by
  refine ⟨fun w hreaches hnone => (guarded_of_reaches rfl rfl hreaches).singleProbe hnone, ?_⟩
  constructor
  · intro hsingle
    by_contra hmany
    have hlength : threshold + 3 ≤ (Finset.univ : Finset ι).toList.length := by
      rw [Finset.length_toList, Finset.card_univ]
      omega
    match hcalls : (Finset.univ : Finset ι).toList with
    | early :: probe :: second :: calls =>
      rw [hcalls] at hlength
      have hnodup := Finset.nodup_toList (Finset.univ : Finset ι)
      rw [hcalls] at hnodup
      have htake : (early :: probe :: second :: calls.take threshold).Nodup :=
        hnodup.sublist (((take_sublist threshold calls).cons_cons _).cons_cons _ |>.cons_cons _)
      have htaken : (calls.take threshold).length = threshold := by
        simp only [length_cons] at hlength
        rw [length_take]
        omega
      obtain ⟨w, hreaches, hw⟩ := exists_two_probes maxRetries htake rfl rfl htaken
        (w := atRest ι (freshEndpoint threshold hpos resetSeconds clock)) (fun _ => rfl)
      exact hw (hsingle w hreaches)
    | [] | [_] | [_, _] => simp [hcalls] at hlength
  · intro hfew w hreaches
    by_contra hprobes
    have hcard := (guarded_of_reaches rfl rfl hreaches).card_of_probes hprobes
    exact absurd hfew (Nat.not_lt.mpr hcard)

/-- Call 0 is admitted, call 1 trips the breaker, call 2 probes, call 0 is cancelled, and call 3 probes as well. -/
def lostCallSchedule : List (Fin 4 × CallEvent ℕ) :=
  [(0, .start 0 0), (1, .start 0 0), (1, .sendEnds (.failed (.connectError "refused")) 1), (2, .start 11 11),
    (0, .sendEnds .cancelled 12), (3, .start 13 13)]

/-- Two probes of one HALF_OPEN period are in flight. -/
theorem two_probes_in_flight :
    ((atRest (Fin 4) (freshEndpoint 1 (by decide) 10 0)).run (SendCall.act 0) lostCallSchedule).map
        (fun w => (w.shared.breaker.state, w.shared.period, [2, 3].map fun i => ((w.locals i).inFlight, (w.locals i).probe)))
      = some (.halfOpen, 1, [(true, some 1), (true, some 1)]) := by
  decide +kernel

/-- Three calls are too few for a threshold of one. -/
theorem singleProbe_three : Fintype.card (Fin 3) < 1 + 3 ∧ ∀ w : Crew Endpoint (SendCall ℕ) (Fin 3),
      (atRest (Fin 3) (freshEndpoint 1 (by decide) 10 0)).Reaches (SendCall.act 0) w → SingleProbe w :=
  ⟨by decide, (singleProbe_iff 0 1 (by decide) 10 0).2.mpr (by decide)⟩

end ContextProxy
