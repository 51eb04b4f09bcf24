import ContextProxy.Capture.Folding

/-!
# The stream that persists

`PersistingLLMStream.iter_bytes`: the chunks of the provider are handed on as they come, and a capture is fed on the side. However the generator is left, its `finally` block is meant to call `on_finished` once and to raise nothing of its own. It calls `finalize` outside of the `try` that guards `on_finished`, so it keeps that promise exactly when the events that came can be folded.
-/

namespace ContextProxy

open Json

variable {ε : Type}

/-- How the stream of the provider ends after its last chunk. -/
inductive UpstreamEnd (ε : Type) where
  | done
  | failed (error : ε)

/-- Whoever reads the stream: to its end, or up to a chunk after which the stream is closed. A stream that nobody starts to read does nothing. -/
inductive Consumer where
  | readsAll
  | closesAt (position : ℕ)

inductive FinishOutcome (ε : Type) where
  | returns
  | historyDivergence
  | infrastructureError
  | exception (error : ε)
  /-- What `except Exception` does not catch, such as a cancellation. -/
  | baseException (error : ε)

inductive StreamError (ε : Type) where
  | upstream (error : ε)
  | capture (error : CaptureError)
  | finished (error : ε)

inductive LoopExit (ε : Type) where
  | completed
  | failed (error : ε)
  | closed

structure StreamRun (ε : Type) where
  yielded : List (List UInt8)
  /-- The calls of `on_finished`. -/
  finishedWith : List (Option Message × Fields)
  raised : Option (StreamError ε)

/-- The consumer after it was given a chunk; none if it closes the stream. -/
def Consumer.next : Consumer → Option Consumer
  | .readsAll => some .readsAll
  | .closesAt 0 => none
  | .closesAt (position + 1) => some (.closesAt position)

def UpstreamEnd.exit : UpstreamEnd ε → LoopExit ε
  | .done => .completed
  | .failed error => .failed error

/-- `async for chunk in self._inner.iter_bytes()`, with the capture it leaves. -/
def pump (ending : UpstreamEnd ε) : Consumer → AssistantCapture → List (List UInt8) →
    List (List UInt8) × AssistantCapture × LoopExit ε
  | _, capture, [] => ([], capture, ending.exit)
  | consumer, capture, chunk :: chunks =>
    match consumer.next with
    | none => ([chunk], capture.feed chunk, .closed)
    | some consumer =>
      let (yielded, capture, exit) := pump ending consumer (capture.feed chunk) chunks
      (chunk :: yielded, capture, exit)

/-- What the `finally` block calls `on_finished` with. -/
def finishArguments (loads : String → Loaded) (capture : AssistantCapture) :
    LoopExit ε → Except CaptureError (Option Message × Fields)
  | .completed =>
    if capture.overflowed then .ok (none, [])
    else do
      let (message, capture) ← capture.finalize loads
      return (message, capture.responseMetadata)
  | _ => .ok (none, [])

/-- What the generator raises if the `finally` block does not. The exception of a consumer that closes ends in `aclose`. -/
def LoopExit.raised : LoopExit ε → Option (StreamError ε)
  | .failed error => some (.upstream error)
  | .completed | .closed => none

/-- The handlers around `on_finished`. -/
def FinishOutcome.raised (pending : Option (StreamError ε)) : FinishOutcome ε → Option (StreamError ε)
  | .baseException error => some (.finished error)
  | .returns | .historyDivergence | .infrastructureError | .exception _ => pending

def iterBytes (loads : String → Loaded) (maxCaptureBytes : Option ℕ) (finish : FinishOutcome ε) (ending : UpstreamEnd ε)
    (consumer : Consumer) (chunks : List (List UInt8)) : StreamRun ε :=
  let (yielded, capture, exit) := pump ending consumer { maxBytes := maxCaptureBytes } chunks
  match finishArguments loads capture exit with
  | .error error => { yielded, finishedWith := [], raised := some (.capture error) }
  | .ok arguments => { yielded, finishedWith := [arguments], raised := finish.raised exit.raised }

/-! ### The promise -/

def Consumer.received (chunks : List (List UInt8)) : Consumer → List (List UInt8)
  | .readsAll => chunks
  | .closesAt position => chunks.take (position + 1)

def Consumer.ReachesEnd (chunks : List (List UInt8)) : Consumer → Prop
  | .readsAll => True
  | .closesAt position => chunks.length ≤ position

/-- What the stream promises whoever reads it, and whoever waits for `on_finished`. -/
structure PassThrough (maxCaptureBytes : Option ℕ) (ending : UpstreamEnd ε) (consumer : Consumer)
    (chunks : List (List UInt8)) (run : StreamRun ε) : Prop where
  yields : run.yielded = consumer.received chunks
  quiet : consumer.ReachesEnd chunks → ending = .done → run.raised = none
  reraises : ∀ error, consumer.ReachesEnd chunks → ending = .failed error → run.raised = some (.upstream error)
  once : run.finishedWith.length = 1
  message : ∀ arguments ∈ run.finishedWith, arguments.1 ≠ none →
    consumer.ReachesEnd chunks ∧ ending = .done ∧ Fits chunks maxCaptureBytes

/-! ### The loop -/

theorem pump_yields (ending : UpstreamEnd ε) (consumer : Consumer) (capture : AssistantCapture) (chunks : List (List UInt8)) :
    (pump ending consumer capture chunks).1 = consumer.received chunks := by
  induction chunks generalizing consumer capture with
  | nil => cases consumer <;> rfl
  | cons chunk chunks ih =>
    match consumer with
    | .readsAll => exact congrArg (chunk :: ·) (ih .readsAll (capture.feed chunk))
    | .closesAt 0 => rfl
    | .closesAt (position + 1) => exact congrArg (chunk :: ·) (ih (.closesAt position) (capture.feed chunk))

variable {chunks : List (List UInt8)}

theorem pump_end (ending : UpstreamEnd ε) (consumer : Consumer) (capture : AssistantCapture)
    (h : consumer.ReachesEnd chunks) :
    (pump ending consumer capture chunks).2 = (chunks.foldl AssistantCapture.feed capture, ending.exit) := by
  induction chunks generalizing consumer capture with
  | nil => rfl
  | cons chunk chunks ih =>
    match consumer with
    | .readsAll => exact ih .readsAll (capture.feed chunk) trivial
    | .closesAt 0 => cases h
    | .closesAt (position + 1) => exact ih (.closesAt position) (capture.feed chunk) (Nat.le_of_succ_le_succ h)

theorem pump_closed (ending : UpstreamEnd ε) (consumer : Consumer) (capture : AssistantCapture)
    (h : ¬consumer.ReachesEnd chunks) : ∃ capture', (pump ending consumer capture chunks).2 = (capture', .closed) := by
  induction chunks generalizing consumer capture with
  | nil => cases consumer <;> simp [Consumer.ReachesEnd] at h
  | cons chunk chunks ih =>
    match consumer with
    | .readsAll => exact absurd trivial h
    | .closesAt 0 => exact ⟨capture.feed chunk, rfl⟩
    | .closesAt (position + 1) =>
      exact ih (.closesAt position) (capture.feed chunk) fun hle => h (Nat.succ_le_succ hle)

/-! ### The five ways out -/

section Exits

variable {loads : String → Loaded} {maxCaptureBytes : Option ℕ} {finish : FinishOutcome ε} {ending : UpstreamEnd ε}
  {consumer : Consumer} {chunks : List (List UInt8)}

theorem iterBytes_of_arguments {capture : AssistantCapture} {exit : LoopExit ε} {arguments : Option Message × Fields}
    (hpump : (pump ending consumer { maxBytes := maxCaptureBytes } chunks).2 = (capture, exit))
    (h : finishArguments loads capture exit = .ok arguments) :
    iterBytes loads maxCaptureBytes finish ending consumer chunks =
      { yielded := consumer.received chunks, finishedWith := [arguments], raised := finish.raised exit.raised } := by
  rw [iterBytes, ← Prod.eta (pump _ _ _ _), hpump, pump_yields]
  simp only [h]

theorem iterBytes_closed (h : ¬consumer.ReachesEnd chunks) :
    iterBytes loads maxCaptureBytes finish ending consumer chunks =
      { yielded := consumer.received chunks, finishedWith := [(none, [])], raised := finish.raised none } := by
  obtain ⟨capture, hpump⟩ := pump_closed ending consumer { maxBytes := maxCaptureBytes } h
  exact iterBytes_of_arguments hpump rfl

theorem iterBytes_failed {error : ε} (h : consumer.ReachesEnd chunks) :
    iterBytes loads maxCaptureBytes finish (.failed error) consumer chunks =
      { yielded := consumer.received chunks, finishedWith := [(none, [])]
        raised := finish.raised (some (.upstream error)) } :=
  iterBytes_of_arguments (pump_end _ consumer _ h) rfl

theorem iterBytes_overflowed (h : consumer.ReachesEnd chunks) (hfits : ¬Fits chunks maxCaptureBytes) :
    iterBytes loads maxCaptureBytes finish .done consumer chunks =
      { yielded := consumer.received chunks, finishedWith := [(none, [])], raised := finish.raised none } := by
  apply iterBytes_of_arguments (pump_end _ consumer _ h)
  exact if_pos ((fed_foldl chunks maxCaptureBytes).overflows hfits)

theorem finishArguments_done (hfits : Fits chunks maxCaptureBytes) :
    finishArguments loads (chunks.foldl AssistantCapture.feed { maxBytes := maxCaptureBytes })
      (UpstreamEnd.exit (.done : UpstreamEnd ε)) = (do
        let (message, capture) ← AssistantCapture.finalize loads { buffer := chunks.flatten, maxBytes := maxCaptureBytes }
        return (message, capture.responseMetadata)) := by
  rw [(fed_foldl chunks maxCaptureBytes).holds hfits]
  rfl

theorem iterBytes_folded (h : consumer.ReachesEnd chunks) (hfits : Fits chunks maxCaptureBytes)
    (hfold : Foldable loads (dataTexts (Utf8.decode chunks.flatten))) :
    ∃ arguments, iterBytes loads maxCaptureBytes finish .done consumer chunks =
      { yielded := consumer.received chunks, finishedWith := [arguments], raised := finish.raised none } := by
  obtain ⟨result, hresult⟩ := (exists_finalize loads chunks.flatten maxCaptureBytes).mpr hfold
  refine ⟨(result.1, result.2.responseMetadata), iterBytes_of_arguments (pump_end _ consumer _ h) ?_⟩
  rw [finishArguments_done hfits, hresult]
  rfl

/-- What cannot be folded breaks out of the block before `on_finished` is called. -/
theorem iterBytes_broken (h : consumer.ReachesEnd chunks) (hfits : Fits chunks maxCaptureBytes)
    (hfold : ¬Foldable loads (dataTexts (Utf8.decode chunks.flatten))) :
    (iterBytes loads maxCaptureBytes finish .done consumer chunks).finishedWith = [] := by
  cases hresult : AssistantCapture.finalize loads { buffer := chunks.flatten, maxBytes := maxCaptureBytes } with
  | ok result => exact absurd ((exists_finalize loads chunks.flatten maxCaptureBytes).mp ⟨result, hresult⟩) hfold
  | error error =>
    rw [iterBytes, ← Prod.eta (pump _ _ _ _), pump_end _ consumer _ h]
    simp only [finishArguments_done hfits, hresult]
    rfl

end Exits

def FinishOutcome.Caught : FinishOutcome ε → Prop
  | .baseException _ => False
  | _ => True

theorem FinishOutcome.raised_of_caught {finish : FinishOutcome ε} (h : finish.Caught) (pending : Option (StreamError ε)) :
    finish.raised pending = pending := by
  cases finish with
  | baseException => exact h.elim
  | returns | historyDivergence | infrastructureError | exception => rfl

theorem passThrough_called {maxCaptureBytes : Option ℕ} {finish : FinishOutcome ε} {ending : UpstreamEnd ε}
    {consumer : Consumer} {arguments : Option Message × Fields} (hend : consumer.ReachesEnd chunks)
    (hmessage : arguments.1 ≠ none → ending = .done ∧ Fits chunks maxCaptureBytes) :
    PassThrough maxCaptureBytes ending consumer chunks
        { yielded := consumer.received chunks, finishedWith := [arguments]
          raised := finish.raised ending.exit.raised } ↔ finish.Caught := by
  constructor
  · intro h
    have hraised : finish.raised ending.exit.raised = ending.exit.raised := by
      cases ending with
      | done => exact h.quiet hend rfl
      | failed error => exact h.reraises error hend rfl
    cases finish with
    | baseException => cases ending <;> cases hraised
    | returns | historyDivergence | infrastructureError | exception => trivial
  · intro hcaught
    rw [finish.raised_of_caught hcaught]
    refine ⟨rfl, fun _ hdone => hdone ▸ rfl, fun _ _ herror => herror ▸ rfl, rfl, ?_⟩
    intro _ hmem hsome
    obtain rfl := List.mem_singleton.mp hmem
    exact ⟨hend, hmessage hsome⟩

/-- The stream keeps its promise exactly if, when it is read to its end, what `on_finished` raises is caught, and the events of an upstream that has come to its end can be folded as far as the capture holds them. -/
theorem passThrough_iff (loads : String → Loaded) (maxCaptureBytes : Option ℕ) (finish : FinishOutcome ε)
    (ending : UpstreamEnd ε) (consumer : Consumer) (chunks : List (List UInt8)) :
    PassThrough maxCaptureBytes ending consumer chunks
        (iterBytes loads maxCaptureBytes finish ending consumer chunks) ↔
      (consumer.ReachesEnd chunks → finish.Caught) ∧
      (consumer.ReachesEnd chunks → ending = .done → Fits chunks maxCaptureBytes →
        Foldable loads (dataTexts (Utf8.decode chunks.flatten))) := by
  by_cases hend : consumer.ReachesEnd chunks
  · simp only [hend, forall_const]
    cases ending with
    | failed error =>
      rw [iterBytes_failed hend]
      refine (passThrough_called hend fun hsome => absurd rfl hsome).trans ?_
      exact ⟨fun hcaught => ⟨hcaught, fun hdone => nomatch hdone⟩, And.left⟩
    | done =>
      by_cases hfits : Fits chunks maxCaptureBytes
      · by_cases hfold : Foldable loads (dataTexts (Utf8.decode chunks.flatten))
        · obtain ⟨arguments, hrun⟩ := iterBytes_folded hend hfits hfold
          rw [hrun]
          refine (passThrough_called hend fun _ => ⟨rfl, hfits⟩).trans ?_
          exact ⟨fun hcaught => ⟨hcaught, fun _ _ => hfold⟩, And.left⟩
        · refine iff_of_false (fun h => ?_) (fun h => hfold (h.2 rfl hfits))
          have honce := h.once
          rw [iterBytes_broken hend hfits hfold] at honce
          cases honce
      · rw [iterBytes_overflowed hend hfits]
        refine (passThrough_called hend fun hsome => absurd rfl hsome).trans ?_
        exact ⟨fun hcaught => ⟨hcaught, fun _ h => absurd h hfits⟩, And.left⟩
  · rw [iterBytes_closed hend]
    refine iff_of_true ?_ ⟨fun h => absurd h hend, fun h => absurd h hend⟩
    exact ⟨rfl, fun h => absurd h hend, fun _ h => absurd h hend, rfl, by simp⟩

/-- A provider that sends a number as an event: the consumer gets an exception at the end, and `on_finished` is not called. -/
theorem number_event_breaks_stream :
    ¬PassThrough none (.done : UpstreamEnd Unit) .readsAll [Utf8.encode "data: 5\n\n".toList]
      (iterBytes (fun text => if text = "5" then .value (.int 5) else .malformed) none .returns .done .readsAll
        [Utf8.encode "data: 5\n\n".toList]) := by
  intro h
  have honce := h.once
  revert honce
  decide +kernel

end ContextProxy
