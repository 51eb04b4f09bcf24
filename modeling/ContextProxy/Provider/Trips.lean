import ContextProxy.Provider.Probe

/-!
# The breaker trips

The breaker counts the failures since the last success, of whatever calls recorded them. It is closed exactly as long as they are fewer than the threshold, and every call gets through. From the failure on that makes up the threshold, no call gets through for the reset time, and then only probes, until the next success (`breaker_trips`).
-/

namespace ContextProxy

open List

/-- What the calls have recorded and when, the latest first. -/
abbrev RecordHistory := List (Record × ℚ)

/-- The failures since the last success. -/
def recentFailures (history : RecordHistory) : RecordHistory := history.takeWhile (·.1 = .failure)

def tripping (threshold : ℕ) (history : RecordHistory) : Option (Record × ℚ) := (recentFailures history).reverse[threshold - 1]?

structure Remembers (breaker : CircuitBreaker) (clock : ℚ) (history : RecordHistory) : Prop where
  past : ∀ record ∈ history, record.2 ≤ clock
  failures : breaker.consecutiveFailures = (recentFailures history).length
  closed : breaker.state = .closed ↔ (recentFailures history).length < breaker.threshold
  opened : breaker.state ≠ .closed → breaker.openedAt ≤ clock
  tripped : breaker.state ≠ .closed → ∀ trip, tripping breaker.threshold history = some trip → trip.2 ≤ breaker.openedAt
  waited : breaker.state = .halfOpen → breaker.openedAt + breaker.resetSeconds ≤ clock

namespace Remembers

variable {breaker : CircuitBreaker} {clock now : ℚ} {history : RecordHistory}

section

variable (h : Remembers breaker clock history)
include h

theorem mono (hclock : clock ≤ now) : Remembers breaker now history :=
  { h with
    past := fun record hrecord => (h.past record hrecord).trans hclock
    opened := fun hopen => (h.opened hopen).trans hclock
    waited := fun hhalf => (h.waited hhalf).trans hclock }

theorem reserve (probeReserved : Bool) :
    Remembers { breaker with probeReserved } clock history := ⟨h.past, h.failures, h.closed, h.opened, h.tripped, h.waited⟩

theorem currentState (hclock : clock ≤ now) : Remembers (breaker.currentState now) now history := by
  rw [CircuitBreaker.currentState]
  split
  next hdue =>
    have hopen : breaker.state ≠ .closed := by simp [hdue.1]
    refine ⟨(h.mono hclock).past, h.failures, ?_, fun _ => (h.opened hopen).trans hclock, fun _ => h.tripped hopen, fun _ => ?_⟩
    · exact iff_of_false (by simp [CircuitBreaker.transition]) fun hlt => hopen (h.closed.mpr hlt)
    · exact le_sub_iff_add_le'.mp hdue.2
  next => exact h.mono hclock

theorem allowAttempt (hclock : clock ≤ now) : Remembers (breaker.allowAttempt now).2 now history := by
  have hcurrent := h.currentState hclock
  rw [CircuitBreaker.allowAttempt]
  split
  next => exact hcurrent
  next =>
    split
    next => exact hcurrent
    next => exact hcurrent.reserve true
  next => exact hcurrent

theorem past_cons (hclock : clock ≤ now) (record : Record) : ∀ entry ∈ (record, now) :: history, entry.2 ≤ now :=
  forall_mem_cons.mpr ⟨le_rfl, (h.mono hclock).past⟩

theorem recordSuccess (hclock : clock ≤ now) :
    Remembers (breaker.recordSuccess now) now ((.success, now) :: history) := by
  have hstate : (breaker.recordSuccess now).state = .closed := by
    rw [CircuitBreaker.recordSuccess]
    split
    next => rfl
    next hclosed => exact not_not.mp hclosed
  have hpos := (breaker.recordSuccess now).threshold_pos
  exact ⟨h.past_cons hclock _, rfl, iff_of_true hstate hpos, fun hopen => absurd hstate hopen, fun hopen => absurd hstate hopen,
    by simp [hstate]⟩

end

theorem of_opened (hpast : ∀ entry ∈ history, entry.2 ≤ now)
    (hfailures : breaker.consecutiveFailures = (recentFailures history).length)
    (hfull : breaker.threshold ≤ (recentFailures history).length) : Remembers (breaker.transition now .opened) now history where
  past := hpast
  failures := hfailures
  closed := iff_of_false (by simp [CircuitBreaker.transition]) (not_lt.mpr hfull)
  opened _ := le_rfl
  tripped _ trip htrip := by
    have hmem := mem_reverse.mp (mem_of_getElem? htrip)
    exact hpast trip ((List.takeWhile_prefix _).subset hmem)
  waited := by simp [CircuitBreaker.transition]

theorem tripping_cons {threshold : ℕ} (hpos : 0 < threshold) (h : threshold ≤ (recentFailures history).length) (now : ℚ) :
    tripping threshold ((.failure, now) :: history) = tripping threshold history := by
  have hrecent : recentFailures ((.failure, now) :: history) = (.failure, now) :: recentFailures history := rfl
  rw [tripping, hrecent, reverse_cons, getElem?_append_left, tripping]
  rw [length_reverse]
  omega

/-- A failure opens a breaker that is half open, and a closed one if it makes up the threshold. -/
theorem recordFailure (h : Remembers breaker clock history) (hclock : clock ≤ now) :
    Remembers (breaker.recordFailure now) now ((.failure, now) :: history) := by
  have hpast := h.past_cons hclock .failure
  have hfailures : breaker.consecutiveFailures + 1 = (recentFailures ((.failure, now) :: history)).length :=
    congrArg (· + 1) h.failures
  have hlate : breaker.state ≠ .closed → breaker.threshold ≤ breaker.consecutiveFailures := by
    intro hopen
    rw [h.failures]
    exact not_lt.mp fun hlt => hopen (h.closed.mpr hlt)
  rw [CircuitBreaker.recordFailure]
  dsimp only
  split
  next hhalf =>
    have hfull := hlate (by simp [hhalf])
    exact of_opened hpast hfailures (by dsimp only; omega)
  next hhalf =>
    split
    next hfull => exact of_opened hpast hfailures (hfull.2.trans_eq hfailures)
    next hfew =>
      refine ⟨hpast, hfailures, ?_, fun hopen => (h.opened hopen).trans hclock, fun hopen trip htrip => ?_, fun hh => absurd hh hhalf⟩
      · refine ⟨fun hclosed => ?_, fun hlt => ?_⟩
        · have hfew := not_and.mp hfew hclosed
          dsimp only at hfew ⊢
          omega
        · by_contra hopen
          have hfull := hlate hopen
          dsimp only at hlt
          omega
      · rw [tripping_cons breaker.threshold_pos (h.failures ▸ hlate hopen)] at htrip
        exact h.tripped hopen trip htrip

theorem settle (h : Remembers breaker clock history) (hclock : clock ≤ now) (record : Option Record) :
    Remembers (SendCall.settle breaker now record) now (record.toList.map (·, now) ++ history) := by
  cases record with
  | none => exact (h.mono hclock).reserve false
  | some record =>
    cases record with
    | success => exact (h.recordSuccess hclock).reserve false
    | failure => exact (h.recordFailure hclock).reserve false

end Remembers

section Trips

variable {R ι : Type} [DecidableEq ι] {maxRetries : ℕ}

def noteRecords (i : ι) (before after : Crew Endpoint (SendCall R) ι) (history : RecordHistory) : RecordHistory :=
  ((after.locals i).records.drop (before.locals i).records.length).map (·, after.shared.clock) ++ history

def recordHistory (maxRetries : ℕ) (w : Crew Endpoint (SendCall R) ι) (schedule : List (ι × CallEvent R)) : RecordHistory :=
  Crew.noted (SendCall.act maxRetries) noteRecords [] w schedule

variable {next : SendCall R × Endpoint}

theorem Remembers.put {w : Crew Endpoint (SendCall R) ι} {history : RecordHistory} {i : ι}
    (h : Remembers w.shared.breaker w.shared.clock history) (hact : SendCall.Acts maxRetries (w.locals i) w.shared next) :
    Remembers next.2.breaker next.2.clock (noteRecords i w (w.put i next) history) := by
  have hsame : next.1.records = (w.locals i).records → Remembers next.2.breaker next.2.clock history →
      Remembers next.2.breaker next.2.clock (noteRecords i w (w.put i next) history) := by
    intro hrecords hnext
    rw [noteRecords, Crew.put_locals_self, hrecords, drop_length]
    exact hnext
  -- only the end of an admitted call adds a record
  have hconclude : ∀ (call : SendCall R) now record result, call.records = (w.locals i).records → w.shared.clock ≤ now →
      next = call.conclude w.shared now record result →
      Remembers next.2.breaker next.2.clock (noteRecords i w (w.put i next) history) := by
    rintro call now record result hrecords hclock rfl
    have hnew : noteRecords i w (w.put i (call.conclude w.shared now record result)) history =
        record.toList.map (·, now) ++ history := by
      rw [noteRecords, Crew.put_locals_self, SendCall.conclude, hrecords, drop_left]
      rfl
    rw [hnew]
    exact h.settle hclock record
  cases hact with
  | reject now later message hphase hclock hlater hrefused =>
    exact hsame rfl ((h.allowAttempt hclock).currentState hlater)
  | allow now hphase hclock hallowed => exact hsame rfl (h.allowAttempt hclock)
  | retry attempt outcome now hphase hclock => exact hsame rfl (h.mono hclock)
  | wake => exact hsame rfl h
  | finish attempt outcome now result record hphase hclock =>
    exact hconclude { w.locals i with sends := (w.locals i).sends ++ [outcome] } now record result rfl hclock rfl
  | cancel attempt result => exact hconclude _ _ none result rfl le_rfl rfl

variable {endpoint : Endpoint} {schedule : List (ι × CallEvent R)} {w : Crew Endpoint (SendCall R) ι}

theorem remembers_of_run (hclosed : endpoint.breaker.state = .closed) (hfailures : endpoint.breaker.consecutiveFailures = 0)
    (hrun : (atRest ι endpoint).run (SendCall.act maxRetries) schedule = some w) :
    Remembers w.shared.breaker w.shared.clock (recordHistory maxRetries (atRest ι endpoint) schedule) := by
  refine Crew.noted_invariant (P := fun w history => Remembers w.shared.breaker w.shared.clock history) ?_ hrun ?_
  · exact fun w i event next history h hact => h.put (SendCall.acts_of_act hact)
  · exact ⟨forall_mem_nil _, hfailures, iff_of_true hclosed endpoint.breaker.threshold_pos,
      fun hopen => absurd hclosed hopen, fun hopen => absurd hclosed hopen, by simp [atRest, hclosed]⟩

theorem begin_of_act {call : SendCall R} {endpoint : Endpoint} {now later : ℚ}
    (h : SendCall.act maxRetries (.start now later) call endpoint = some next) :
    endpoint.clock ≤ now ∧ next = call.begin endpoint now later := by
  unfold SendCall.act at h
  split at h
  next hstart =>
    cases hstart
    rw [Option.ite_none_right_eq_some] at h
    exact ⟨h.1.1, (Option.some.inj h.2).symm⟩
  next hstart => cases hstart
  next hstart => cases hstart
  next hstart => cases hstart
  next => cases h

theorem Remembers.exists_tripping {breaker : CircuitBreaker} {clock : ℚ} {history : RecordHistory}
    (h : Remembers breaker clock history) (hopen : breaker.state ≠ .closed) :
    ∃ trip, tripping breaker.threshold history = some trip ∧ trip.2 ≤ breaker.openedAt := by
  have hpos := breaker.threshold_pos
  have hfull : ¬(recentFailures history).length < breaker.threshold := fun hlt => hopen (h.closed.mpr hlt)
  have hlt : breaker.threshold - 1 < (recentFailures history).reverse.length := by
    rw [length_reverse]
    omega
  exact ⟨_, getElem?_eq_getElem hlt, h.tripped hopen _ (getElem?_eq_getElem hlt)⟩

/-- Whatever the calls do and in whatever order: as long as fewer failures than the threshold were recorded since the last success, a call that starts is sent as an ordinary one. Otherwise it is sent only as a probe, and not before the reset time has passed since the failure that made up the threshold. -/
theorem breaker_trips (hclosed : endpoint.breaker.state = .closed) (hfailures : endpoint.breaker.consecutiveFailures = 0)
    (hrun : (atRest ι endpoint).run (SendCall.act maxRetries) schedule = some w) {i : ι} {now later : ℚ}
    {next : SendCall R × Endpoint} (hact : SendCall.act maxRetries (.start now later) (w.locals i) w.shared = some next) :
    let history := recordHistory maxRetries (atRest ι endpoint) schedule
    ((recentFailures history).length < w.shared.breaker.threshold → next.1.phase = .sending 0 ∧ next.1.probe = none) ∧
    (w.shared.breaker.threshold ≤ (recentFailures history).length → next.1.phase = .sending 0 →
      next.1.probe.isSome = true ∧ ∃ trip, tripping w.shared.breaker.threshold history = some trip ∧
        trip.2 + w.shared.breaker.resetSeconds ≤ now) := by
  intro history
  have h : Remembers w.shared.breaker w.shared.clock history := remembers_of_run hclosed hfailures hrun
  obtain ⟨hclock, rfl⟩ := begin_of_act hact
  have hafter := h.allowAttempt hclock
  by_cases hallowed : (w.shared.breaker.allowAttempt now).1 = true
  · rw [SendCall.begin, if_pos hallowed]
    rcases CircuitBreaker.allowAttempt_of_allowed hallowed with ⟨hstate, heq⟩ | ⟨hstate, -, heq⟩ | ⟨hstate, heq⟩
    · have hlt := h.closed.mp hstate
      refine ⟨fun _ => ⟨rfl, ?_⟩, fun hle => absurd hlt (not_lt.mpr hle)⟩
      simp [heq, hstate]
    all_goals
      rw [heq] at hafter
      obtain ⟨trip, htrip, hle⟩ := hafter.exists_tripping (by simp [hstate])
      refine ⟨fun hlt => absurd (h.closed.mpr hlt) (by simp [hstate]), fun _ _ => ⟨by simp [heq, hstate], trip, htrip, ?_⟩⟩
      exact (add_le_add hle le_rfl).trans (hafter.waited (by simp [hstate]))
  · rw [SendCall.begin, if_neg hallowed]
    refine ⟨fun hlt => absurd ?_ hallowed, by simp⟩
    simp [CircuitBreaker.allowAttempt, CircuitBreaker.currentState, h.closed.mpr hlt]

end Trips

/-- A call that fails to connect opens a breaker with threshold one; the next one, after the reset time, is a probe. -/
theorem breaker_trips_once : ∃ next : SendCall ℕ × Endpoint, next.1.phase = .sending 0 ∧ next.1.probe.isSome = true := by
  let endpoint : Endpoint := { breaker := { threshold := 1, threshold_pos := Nat.one_pos, resetSeconds := 30 } }
  let schedule : List (Fin 2 × CallEvent ℕ) := [(0, .start 0 0), (0, .sendEnds (.failed (.connectError "")) 1)]
  obtain ⟨w, hrun, next, hact, hsent, hfailed⟩ : ∃ w : Crew Endpoint (SendCall ℕ) (Fin 2),
      (atRest _ endpoint).run (SendCall.act 0) schedule = some w ∧
      ∃ next, SendCall.act 0 (.start 40 40) (w.locals 1) w.shared = some next ∧ next.1.phase = .sending 0 ∧
        w.shared.breaker.threshold ≤ (recentFailures (recordHistory 0 (atRest _ endpoint) schedule)).length :=
    ⟨_, rfl, _, rfl, by decide +kernel, by decide +kernel⟩
  exact ⟨next, hsent, ((breaker_trips rfl rfl hrun hact).2 hfailed hsent).1⟩

end ContextProxy
