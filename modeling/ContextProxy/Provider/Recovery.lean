import ContextProxy.Provider.Probe

/-!
# The breaker recovers

Any call can clear the flag that reserves the probe, and only a call that begins can set it. Whoever set it last clears it at its end at the latest, so a flag that is set belongs to a call in flight (`lastSetter`). With no call in flight only the time since the breaker opened stands in the way of an attempt.
-/

namespace ContextProxy

namespace CircuitBreaker

theorem refused_iff (breaker : CircuitBreaker) (now : ℚ) : (breaker.allowAttempt now).1 = false ↔
      (breaker.state = .opened ∧ now - breaker.openedAt < breaker.resetSeconds) ∨
        (breaker.state ≠ .closed ∧ (breaker.state = .opened → breaker.resetSeconds ≤ now - breaker.openedAt) ∧
          breaker.probeReserved = true) := by
  rw [allowAttempt, currentState]
  cases hstate : breaker.state with
  | closed => simp [hstate]
  | halfOpen => cases hreserved : breaker.probeReserved <;> simp [hstate, hreserved]
  | opened =>
    by_cases hdue : breaker.resetSeconds ≤ now - breaker.openedAt
    · cases hreserved : breaker.probeReserved <;> simp [hdue, transition, hreserved, not_lt.mpr hdue]
    · simp [hdue, hstate, not_le.mp hdue]

theorem probeReserved_currentState (breaker : CircuitBreaker) (now : ℚ) :
    (breaker.currentState now).probeReserved = breaker.probeReserved := by
  rcases currentState_cases breaker now with hsame | ⟨-, hhalf⟩
  · rw [hsame]
  · rw [hhalf]

end CircuitBreaker

namespace SendCall

variable {R : Type} {maxRetries : ℕ} {call : SendCall R} {endpoint : Endpoint} {next : SendCall R × Endpoint}

theorem probeReserved_settle (breaker : CircuitBreaker) (now : ℚ) (record : Option Record) :
    (settle breaker now record).probeReserved = false := by
  cases record with
  | none => rfl
  | some record => cases record <;> rfl

/-- Where the flag is set after an action: the call that set it has just been admitted, and no call has ended. -/
theorem inFlight_of_probeReserved (h : Acts maxRetries call endpoint next) (hflag : next.2.breaker.probeReserved = true) :
    (endpoint.breaker.probeReserved = false → next.1.inFlight = true) ∧
      (call.inFlight = true → next.1.inFlight = true) := by
  cases h with
  | reject now later message hphase hclock hlater hrefused =>
    -- a refused attempt leaves the flag as it is
    have hsame : ((endpoint.breaker.allowAttempt now).2.currentState later).probeReserved
        = endpoint.breaker.probeReserved := by
      rw [CircuitBreaker.allowAttempt_of_refused hrefused, CircuitBreaker.probeReserved_currentState,
        CircuitBreaker.probeReserved_currentState]
    have hbefore : endpoint.breaker.probeReserved = true := hsame.symm.trans hflag
    refine ⟨fun hfree => ?_, fun hcall => ?_⟩
    · rw [hbefore] at hfree
      cases hfree
    · rw [inFlight, hphase] at hcall
      cases hcall
  | allow => exact ⟨fun _ => rfl, fun _ => rfl⟩
  | retry => exact ⟨fun _ => rfl, fun _ => rfl⟩
  | wake => exact ⟨fun _ => rfl, fun _ => rfl⟩
  | finish attempt outcome now result record hphase hclock hlast hrecord =>
    have hcleared : (settle endpoint.breaker now record).probeReserved = true := hflag
    rw [probeReserved_settle] at hcleared
    cases hcleared
  | cancel attempt result hphase =>
    have hcleared : (settle endpoint.breaker endpoint.clock none).probeReserved = true := hflag
    rw [probeReserved_settle] at hcleared
    cases hcleared

end SendCall

section Recovery

variable {R ι : Type} [DecidableEq ι]

/-- The call that moves is noted whenever its action sets the flag. -/
def noteSetter (i : ι) (before after : Crew Endpoint (SendCall R) ι) (setter : Option ι) : Option ι :=
  if before.shared.breaker.probeReserved = false ∧ after.shared.breaker.probeReserved = true then some i else setter

/-- The call that has set the flag last along a schedule. -/
def lastSetter (maxRetries : ℕ) (w : Crew Endpoint (SendCall R) ι) (schedule : List (ι × CallEvent R)) : Option ι :=
  Crew.noted (SendCall.act maxRetries) noteSetter none w schedule

def SetterInFlight (w : Crew Endpoint (SendCall R) ι) (setter : Option ι) : Prop :=
  w.shared.breaker.probeReserved = true → ∃ i, setter = some i ∧ (w.locals i).inFlight = true

theorem SetterInFlight.put {maxRetries : ℕ} {w : Crew Endpoint (SendCall R) ι} {setter : Option ι}
    (h : SetterInFlight w setter) {i : ι} {next : SendCall R × Endpoint}
    (hact : SendCall.Acts maxRetries (w.locals i) w.shared next) :
    SetterInFlight (w.put i next) (noteSetter i w (w.put i next) setter) := by
  intro hflag
  have hflag : next.2.breaker.probeReserved = true := hflag
  obtain ⟨hset, hkept⟩ := SendCall.inFlight_of_probeReserved hact hflag
  rw [noteSetter, Crew.put_shared]
  by_cases hfree : w.shared.breaker.probeReserved = false
  · refine ⟨i, if_pos ⟨hfree, hflag⟩, ?_⟩
    rw [Crew.put_locals_self]
    exact hset hfree
  · obtain ⟨j, hj, hinFlight⟩ := h (Bool.eq_true_of_not_eq_false hfree)
    refine ⟨j, (if_neg fun hnew => hfree hnew.1).trans hj, ?_⟩
    by_cases hji : j = i
    · subst hji
      rw [Crew.put_locals_self]
      exact hkept hinFlight
    · rw [Crew.put_locals_of_ne next hji]
      exact hinFlight

variable {maxRetries : ℕ} {endpoint : Endpoint} {schedule : List (ι × CallEvent R)} {w : Crew Endpoint (SendCall R) ι}

theorem setterInFlight_of_run (hfree : endpoint.breaker.probeReserved = false)
    (hrun : (atRest ι endpoint).run (SendCall.act maxRetries) schedule = some w) :
    SetterInFlight w (lastSetter maxRetries (atRest ι endpoint) schedule) := by
  refine Crew.noted_invariant ?_ hrun ?_
  · intro w i event next setter hsetter hact
    exact hsetter.put (SendCall.acts_of_act hact)
  · intro hflag
    have hflag : endpoint.breaker.probeReserved = true := hflag
    rw [hfree] at hflag
    cases hflag

/-- After any schedule a flag that is set was set by a call in flight. So an attempt is refused only while the breaker is open and the time has not come, or for such a call, and never for good. -/
theorem breaker_recovers (threshold : ℕ) (hpos : 0 < threshold) (resetSeconds clock : ℚ)
    (hrun : (atRest ι (freshEndpoint threshold hpos resetSeconds clock)).run (SendCall.act maxRetries) schedule = some w) :
    (w.shared.breaker.probeReserved = true → ∃ i,
      lastSetter maxRetries (atRest ι (freshEndpoint threshold hpos resetSeconds clock)) schedule = some i ∧
        (w.locals i).inFlight = true) ∧
    ∀ now, w.shared.clock ≤ now →
      ((∀ i, (w.locals i).inFlight = false) →
        (w.shared.breaker.state = .opened → w.shared.breaker.resetSeconds ≤ now - w.shared.breaker.openedAt) →
          (w.shared.breaker.allowAttempt now).1 = true) ∧
      ((w.shared.breaker.allowAttempt now).1 = false →
        (w.shared.breaker.state = .opened ∧ now - w.shared.breaker.openedAt < w.shared.breaker.resetSeconds) ∨
          ∃ i, lastSetter maxRetries (atRest ι (freshEndpoint threshold hpos resetSeconds clock)) schedule = some i ∧
            (w.locals i).inFlight = true) := by
  have hsetter := setterInFlight_of_run rfl hrun
  refine ⟨hsetter, fun now _ => ⟨fun hidle hdue => ?_, fun hrefused => ?_⟩⟩
  · by_contra hrefused
    rcases (CircuitBreaker.refused_iff _ _).mp (Bool.eq_false_of_not_eq_true hrefused) with ⟨hopened, hearly⟩ | ⟨-, -, hflag⟩
    · exact absurd (hdue hopened) (not_le.mpr hearly)
    · obtain ⟨i, -, hinFlight⟩ := hsetter hflag
      rw [hidle i] at hinFlight
      cases hinFlight
  · rcases (CircuitBreaker.refused_iff _ _).mp hrefused with hopen | ⟨-, -, hflag⟩
    · exact .inl hopen
    · exact .inr (hsetter hflag)

end Recovery

def cancelledProbe : List (Fin 2 × CallEvent ℕ) :=
  [(0, .start 0 0), (0, .sendEnds (.failed (.connectError "refused")) 1), (1, .start 11 11), (1, .sendEnds .cancelled 12)]

/-- The next attempt is let in. -/
theorem breaker_recovers_cancelled :
    ∃ w, (atRest (Fin 2) (freshEndpoint 1 (by decide) 10 0)).run (SendCall.act 0) cancelledProbe = some w ∧
      w.shared.breaker.state = .halfOpen ∧ (w.shared.breaker.allowAttempt 12).1 = true := by
  have hview : ((atRest (Fin 2) (freshEndpoint 1 (by decide) 10 0)).run (SendCall.act 0) cancelledProbe).map
      (fun w => (w.shared.breaker.state, w.shared.clock, (w.locals 0).inFlight, (w.locals 1).inFlight))
        = some (.halfOpen, 12, false, false) := by decide +kernel
  obtain ⟨w, hrun, hw⟩ := Option.map_eq_some_iff.mp hview
  simp only [Prod.mk.injEq] at hw
  obtain ⟨hstate, hclock, hfirst, hsecond⟩ := hw
  have hidle : ∀ i, (w.locals i).inFlight = false := Fin.forall_fin_two.mpr ⟨hfirst, hsecond⟩
  have hnext := ((breaker_recovers 1 (by decide) 10 0 hrun).2 12 hclock.le).1 hidle
  exact ⟨w, hrun, hstate, hnext fun hopened => by rw [hstate] at hopened; cases hopened⟩

end ContextProxy
