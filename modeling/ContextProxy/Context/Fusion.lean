import ContextProxy.Context.Candidates
import ContextProxy.Context.Planner

/-!
# Fusion

`_fuse_candidates` turns the arguments of `build` into one list of candidates: the units of the history, the current request, the tool definitions, the pinned messages and the retrieved items, in this order.
-/

namespace ContextProxy

open Json
open List hiding get

structure BuildInput (F : Type) where
  history : List Message
  currentRequest : List Message
  tools : List Json := []
  pinned : List Message := []
  retrieved : List (RetrievedItem F) := []
  supersededMemoryIds : List String := []
  conversationId : Option String := none

section Fusion

variable {F : Type} (rt : Runtime)

def unitCandidate (unit : InteractionUnit) (index : ℕ) : Except PyError (Candidate F) := do
  let text ← messageTexts rt unit.messages
  let texts ← unit.messages.mapM (contentTexts rt)
  return {
    source := if unit.isSystem then .system else .recentTurn
    key := "unit:" ++ toString index
    tokens := unit.tokens
    render := unit.messages
    text := canonicalText rt text
    position := index
    contentTexts := texts.flatten }

/-- The current request is one candidate; without a user message there is none. -/
def requestCandidates (currentRequest : List Message) (position : ℕ) : Except PyError (List (Candidate F)) :=
  if currentRequest = [] then return []
  else do
    let tokens ← messagesTokens rt currentRequest
    let text ← messageTexts rt currentRequest
    return [{
      source := .currentRequest
      key := "current_request"
      tokens
      render := currentRequest
      text := canonicalText rt text
      position }]

def toolsCandidates (tools : List Json) : List (Candidate F) :=
  if tools = [] then []
  else [{ source := .toolDefinitions, key := "tool_definitions", tokens := toolsTokens rt tools }]

def pinnedCandidate (message : Message) (index : ℕ) : Except PyError (Candidate F) := do
  let tokens ← messageTokens rt message
  let text ← messageTexts rt [message]
  return {
    source := .pinned
    key := "pinned:" ++ toString index
    tokens
    render := [message]
    text := canonicalText rt text
    position := index }

def fuseCandidates (input : BuildInput F) : Except PyError (List (Candidate F)) := do
  let units ← segmentMessages rt input.history
  let fromUnits ← units.zipIdx.mapM fun (unit, index) => unitCandidate rt unit index
  let request ← requestCandidates rt input.currentRequest units.length
  let pinned ← input.pinned.zipIdx.mapM fun (message, index) => pinnedCandidate rt message index
  let retrieved ← input.retrieved.mapM (candidateFromRetrieved rt)
  return fromUnits ++ request ++ toolsCandidates rt input.tools ++ pinned ++ retrieved

/-! ### When fusion does not raise -/

/-- The plain runtime, where the text `surrogate` stands for one that cannot be encoded. -/
def surrogateRuntime : Runtime :=
  { plainRuntime with sha256 := fun text => if text = "surrogate" then none else some text }

def surrogateImage : Message :=
  [("role", .str "user"),
    ("content", .arr [.obj [("type", .str "image_url"), ("image_url", .obj [("url", .str "surrogate")])]])]

def RetrievedItem.Fusable (rt : Runtime) (item : RetrievedItem F) : Prop :=
  ∃ text, item.dedupText rt = .ok text ∧ (rt.sha256 (canonicalText rt text)).isSome = true

/-- What fusion has to be able to read: roles and tokens of the messages, what it hashes of them, and the stored text of each item. -/
structure BuildInput.Readable (rt : Runtime) (input : BuildInput F) : Prop where
  history : ∀ m ∈ input.history, Segmentable rt m
  currentRequest : ∀ m ∈ input.currentRequest, ContextProxy.Readable rt m
  pinned : ∀ m ∈ input.pinned, ContextProxy.Readable rt m
  fingerprintable : ∀ m ∈ input.history ++ input.currentRequest ++ input.pinned, Fingerprintable rt m
  retrieved : ∀ item ∈ input.retrieved, item.Fusable rt

variable {rt : Runtime}

theorem exists_renderToolCall {call : Json} {n : ℕ} (h : toolCallTokens rt call = .ok n) :
    ∃ text, renderToolCall rt call = .ok text := by
  cases call with
  | obj fields => exact ⟨_, rfl⟩
  | _ => cases h

variable {α : Type} {f : String → List String} {items : List α} {unit : InteractionUnit} {currentRequest : List Message}
  {input : BuildInput F}

theorem exists_partTexts {part : Json} :
    (∃ texts, partTexts rt f part = .ok texts) ↔ ∀ text ∈ hashedText rt part, (rt.sha256 text).isSome = true := by
  cases part with
  | obj fields =>
    rw [partTexts, hashedText]
    split
    · simp [pure_eq_ok]
    · rw [exists_bind_pure, partFingerprint]
      split <;> rw [exists_bind_pure, Runtime.exists_hexdigest] <;> simp
  | _ => simp [partTexts, hashedText, pure_eq_ok]

theorem exists_mapM_partTexts {parts : List Json} : (∃ texts, parts.mapM (partTexts rt f) = .ok texts) ↔
      ∀ part ∈ parts, ∀ text ∈ hashedText rt part, (rt.sha256 text).isSome = true :=
  exists_mapM_eq_ok.trans (forall₂_congr fun _ _ => exists_partTexts)

variable {message : Message}

theorem exists_renderContent :
    (∃ text, renderContent rt (get message "content") = .ok text) ↔ Fingerprintable rt message := by
  rw [Fingerprintable]
  cases get message "content" with
  | arr parts => simp only [renderContent, exists_bind_pure, exists_mapM_partTexts, Json.arr.injEq, forall_eq']
  | _ => simp [renderContent, pure_eq_ok]

theorem exists_contentTexts : (∃ texts, contentTexts rt message = .ok texts) ↔ Fingerprintable rt message := by
  rw [Fingerprintable, contentTexts]
  cases get message "content" with
  | arr parts => simp only [exists_bind_pure, exists_mapM_partTexts, Json.arr.injEq, forall_eq']
  | _ => simp [pure_eq_ok]

theorem exists_messageLines (h : Readable rt message) :
    (∃ lines, messageLines rt message = .ok lines) ↔ Fingerprintable rt message := by
  obtain ⟨n, hn⟩ := h
  obtain ⟨calls, hcalls, hn⟩ := bind_eq_ok.mp hn
  obtain ⟨k, hk, -⟩ := bind_eq_ok.mp hn
  have hrendered : ∀ call ∈ calls, ∃ text, renderToolCall rt call = .ok text := by
    intro call hcall
    obtain ⟨j, hj⟩ := (sumM_eq_ok.mp hk).1 call hcall
    exact exists_renderToolCall hj
  obtain ⟨rendered, hrendered⟩ := exists_mapM_eq_ok.mpr hrendered
  rw [← exists_renderContent]
  constructor
  · rintro ⟨lines, hlines⟩
    obtain ⟨text, htext, -⟩ := bind_eq_ok.mp hlines
    exact ⟨text, htext⟩
  · rintro ⟨text, htext⟩
    exact ⟨_, bind_eq_ok.mpr ⟨text, htext, bind_eq_ok.mpr ⟨calls, hcalls, bind_eq_ok.mpr ⟨rendered, hrendered, rfl⟩⟩⟩⟩

theorem exists_messageTexts {messages : List Message} (h : ∀ m ∈ messages, Readable rt m) :
    (∃ text, messageTexts rt messages = .ok text) ↔ ∀ m ∈ messages, Fingerprintable rt m := by
  rw [messageTexts, exists_bind_pure, exists_mapM_eq_ok]
  exact forall₂_congr fun m hm => exists_messageLines (h m hm)

theorem readable_block (rt : Runtime) (item : RetrievedItem F) : Readable rt item.block := ⟨_, rfl⟩

theorem exists_candidateFromRetrieved {item : RetrievedItem F} :
    (∃ c, candidateFromRetrieved rt item = .ok c) ↔ item.Fusable rt := by
  constructor
  · rintro ⟨c, hc⟩
    obtain ⟨text, htext, hc⟩ := bind_eq_ok.mp hc
    obtain ⟨_, -, hc⟩ := bind_eq_ok.mp hc
    obtain ⟨digest, hdigest, -⟩ := bind_eq_ok.mp hc
    exact ⟨text, htext, Runtime.exists_hexdigest.mp ⟨digest, hdigest⟩⟩
  · rintro ⟨text, htext, hsome⟩
    obtain ⟨n, hn⟩ := readable_block rt item
    obtain ⟨digest, hdigest⟩ := Runtime.exists_hexdigest.mpr hsome
    exact ⟨_, bind_eq_ok.mpr ⟨text, htext, bind_eq_ok.mpr ⟨n, hn, bind_eq_ok.mpr ⟨digest, hdigest, rfl⟩⟩⟩⟩

/-! ### What fusion returns -/

/-- The candidate costs what the messages it renders cost. -/
def Candidate.Counted (rt : Runtime) (candidate : Candidate F) : Prop :=
  messagesTokens rt candidate.render = .ok candidate.tokens

structure Candidate.OfUnit (unit : InteractionUnit) (candidate : Candidate F) : Prop where
  source : candidate.source = if unit.isSystem then .system else .recentTurn
  tokens : candidate.tokens = unit.tokens
  render : candidate.render = unit.messages

structure Fused (rt : Runtime) (input : BuildInput F) (units : List InteractionUnit)
    (fromUnits request pinned retrieved : List (Candidate F)) : Prop where
  segmented : segmentMessages rt input.history = .ok units
  ofUnits : List.Forall₂ Candidate.OfUnit units fromUnits
  unitOrder : fromUnits.Pairwise fun a b => a.position < b.position
  ofRequest : request = [] ∧ input.currentRequest = [] ∨
    ∃ c, request = [c] ∧ c.source = .currentRequest ∧ c.render = input.currentRequest ∧ c.Counted rt
  ofPinned : List.Forall₂ (fun m c => c.source = .pinned ∧ c.render = [m] ∧ c.Counted rt) input.pinned pinned
  pinnedOrder : pinned.Pairwise fun a b => a.position < b.position
  ofRetrieved : List.Forall₂ (fun item c => candidateFromRetrieved rt item = .ok c) input.retrieved retrieved

variable {candidates : List (Candidate F)}

theorem pairwise_position {f : α × ℕ → Except PyError (Candidate F)}
    (h : List.Forall₂ (fun item c => f item = .ok c) items.zipIdx candidates)
    (hposition : ∀ item c, f item = .ok c → c.position = item.2) :
    candidates.Pairwise fun a b => a.position < b.position := by
  have hmap : candidates.map (·.position) = items.zipIdx.map Prod.snd := by
    generalize items.zipIdx = numbered at h
    induction h with
    | nil => rfl
    | cons hc _ ih => rw [map_cons, map_cons, ih, hposition _ _ hc]
  rw [zipIdx_map_snd] at hmap
  exact pairwise_map.mp (hmap ▸ pairwise_lt_range')

theorem forall₂_of_zipIdx {β : Type} {r : α → β → Prop} {bs : List β}
    (h : List.Forall₂ (fun item b => r item.1 b) items.zipIdx bs) : List.Forall₂ r items bs := by
  have := forall₂_map_left_iff.mpr h
  rwa [zipIdx_map_fst] at this

theorem unitCandidate_eq_ok {index : ℕ} {c : Candidate F} (h : unitCandidate rt unit index = .ok c) :
    c.OfUnit unit ∧ c.position = index := by
  obtain ⟨text, -, h⟩ := bind_eq_ok.mp h
  obtain ⟨texts, -, h⟩ := bind_eq_ok.mp h
  rw [pure_eq_ok] at h
  subst h
  exact ⟨⟨rfl, rfl, rfl⟩, rfl⟩

theorem pinnedCandidate_eq_ok {index : ℕ} {c : Candidate F} (h : pinnedCandidate rt message index = .ok c) :
    (c.source = .pinned ∧ c.render = [message] ∧ c.Counted rt) ∧ c.position = index := by
  obtain ⟨tokens, htokens, h⟩ := bind_eq_ok.mp h
  obtain ⟨text, -, h⟩ := bind_eq_ok.mp h
  rw [pure_eq_ok] at h
  subst h
  obtain ⟨hreadable, rfl⟩ := messageTokens_eq_ok.mp htokens
  refine ⟨⟨rfl, rfl, messagesTokens_eq_ok.mpr ⟨by simpa using hreadable, ?_⟩⟩, rfl⟩
  simp [tokensOfAll]

theorem requestCandidates_eq_ok {position : ℕ} {request : List (Candidate F)}
    (h : requestCandidates rt currentRequest position = .ok request) : request = [] ∧ currentRequest = [] ∨
      ∃ c, request = [c] ∧ c.source = .currentRequest ∧ c.render = currentRequest ∧ c.Counted rt := by
  rw [requestCandidates] at h
  split at h
  · rename_i hnil
    rw [pure_eq_ok] at h
    exact .inl ⟨h.symm, hnil⟩
  · obtain ⟨tokens, htokens, h⟩ := bind_eq_ok.mp h
    obtain ⟨text, -, h⟩ := bind_eq_ok.mp h
    rw [pure_eq_ok] at h
    exact .inr ⟨_, h.symm, rfl, rfl, htokens⟩

theorem fuseCandidates_eq_ok (h : fuseCandidates rt input = .ok candidates) :
    ∃ units fromUnits request pinned retrieved, Fused rt input units fromUnits request pinned retrieved ∧
      candidates = fromUnits ++ request ++ toolsCandidates rt input.tools ++ pinned ++ retrieved := by
  obtain ⟨units, hunits, h⟩ := bind_eq_ok.mp h
  obtain ⟨fromUnits, hfrom, h⟩ := bind_eq_ok.mp h
  obtain ⟨request, hrequest, h⟩ := bind_eq_ok.mp h
  obtain ⟨pinned, hpinned, h⟩ := bind_eq_ok.mp h
  obtain ⟨retrieved, hretrieved, h⟩ := bind_eq_ok.mp h
  rw [pure_eq_ok] at h
  rw [mapM_eq_ok] at hfrom hpinned hretrieved
  refine ⟨units, fromUnits, request, pinned, retrieved, ⟨hunits, ?_, ?_, requestCandidates_eq_ok hrequest, ?_, ?_,
    hretrieved⟩, h.symm⟩
  · exact forall₂_of_zipIdx (hfrom.imp fun _ _ hc => (unitCandidate_eq_ok hc).1)
  · exact pairwise_position hfrom fun _ _ hc => (unitCandidate_eq_ok hc).2
  · exact forall₂_of_zipIdx (hpinned.imp fun _ _ hc => (pinnedCandidate_eq_ok hc).1)
  · exact pairwise_position hpinned fun _ _ hc => (pinnedCandidate_eq_ok hc).2

theorem exists_unitCandidate (h : messagesTokens rt unit.messages = .ok unit.tokens) (index : ℕ) :
    (∃ c : Candidate F, unitCandidate rt unit index = .ok c) ↔ ∀ m ∈ unit.messages, Fingerprintable rt m := by
  have htexts := exists_messageTexts (messagesTokens_eq_ok.mp h).1
  constructor
  · rintro ⟨c, hc⟩
    obtain ⟨text, htext, -⟩ := bind_eq_ok.mp hc
    exact htexts.mp ⟨text, htext⟩
  · intro hencodes
    obtain ⟨text, htext⟩ := htexts.mpr hencodes
    obtain ⟨texts, hcontents⟩ := exists_mapM_eq_ok.mpr fun m hm => exists_contentTexts.mpr (hencodes m hm)
    exact ⟨_, bind_eq_ok.mpr ⟨text, htext, bind_eq_ok.mpr ⟨texts, hcontents, rfl⟩⟩⟩

theorem exists_requestCandidates (h : ∀ m ∈ currentRequest, Readable rt m) (position : ℕ) :
    (∃ request : List (Candidate F), requestCandidates rt currentRequest position = .ok request) ↔
      ∀ m ∈ currentRequest, Fingerprintable rt m := by
  rw [requestCandidates]
  split
  · simp_all [pure_eq_ok]
  · rw [← exists_messageTexts h, messagesTokens_eq_ok.mpr ⟨h, rfl⟩]
    exact exists_bind_pure

theorem exists_pinnedCandidate (h : Readable rt message) (index : ℕ) :
    (∃ c : Candidate F, pinnedCandidate rt message index = .ok c) ↔ Fingerprintable rt message := by
  rw [← forall_mem_singleton (p := Fingerprintable rt), ← exists_messageTexts (forall_mem_singleton.mpr h), pinnedCandidate,
    messageTokens_eq_ok.mpr ⟨h, rfl⟩]
  exact exists_bind_pure

theorem exists_mapM_zipIdx {β : Type} {f : α → ℕ → Except PyError β} {p : α → Prop}
    (h : ∀ a ∈ items, ∀ index, (∃ b, f a index = .ok b) ↔ p a) :
    (∃ bs, (items.zipIdx.mapM fun (a, index) => f a index) = .ok bs) ↔ ∀ a ∈ items, p a := by
  rw [exists_mapM_eq_ok]
  constructor
  · intro hall a ha
    obtain ⟨index, hlt, rfl⟩ := mem_iff_getElem.mp ha
    exact (h _ ha index).mp (hall (items[index], index) (mem_zipIdx_iff_getElem?.mpr (by simp [hlt])))
  · intro hall item hitem
    have hmem := fst_mem_of_mem_zipIdx hitem
    exact (h item.1 hmem item.2).mpr (hall item.1 hmem)

/-- Fusion raises exactly when something in the inputs cannot be read. -/
theorem exists_fuseCandidates : (∃ candidates, fuseCandidates rt input = .ok candidates) ↔ input.Readable rt := by
  have hunits : ∀ {units}, segmentMessages rt input.history = .ok units →
      ((∃ cs : List (Candidate F), (units.zipIdx.mapM fun (unit, index) => unitCandidate rt unit index) = .ok cs) ↔
        ∀ m ∈ input.history, Fingerprintable rt m) := by
    intro units hunits
    rw [exists_mapM_zipIdx fun unit hunit => exists_unitCandidate ((segmentMessages_spec hunits).2.2.1 unit hunit)]
    simp only [← exists_unit_iff hunits, forall_exists_index, and_imp]
    exact ⟨fun h m unit hunit => h unit hunit m, fun h unit hunit m => h m unit hunit⟩
  constructor
  · rintro ⟨candidates, h⟩
    obtain ⟨units, fromUnits, request, pinned, retrieved, fused, -⟩ := fuseCandidates_eq_ok h
    have hrequest : ∀ m ∈ input.currentRequest, Readable rt m := by
      rcases fused.ofRequest with ⟨-, hnil⟩ | ⟨c, -, -, hrender, hcounted⟩
      · simp [hnil]
      · rw [← hrender]
        exact (messagesTokens_eq_ok.mp hcounted).1
    have hpinned : ∀ m ∈ input.pinned, Readable rt m := by
      intro m hm
      obtain ⟨c, -, -, hrender, hcounted⟩ := exists_right_of_forall₂ fused.ofPinned hm
      exact (messagesTokens_eq_ok.mp hcounted).1 m (by simp [hrender])
    obtain ⟨units, hsegmented, h⟩ := bind_eq_ok.mp h
    obtain ⟨fromUnits, hfromUnits, h⟩ := bind_eq_ok.mp h
    obtain ⟨request, hofRequest, h⟩ := bind_eq_ok.mp h
    obtain ⟨pinned, hofPinned, -⟩ := bind_eq_ok.mp h
    refine ⟨exists_segmentMessages.mp ⟨units, hsegmented⟩, hrequest, hpinned, ?_, ?_⟩
    · simp only [forall_mem_append]
      exact ⟨⟨(hunits hsegmented).mp ⟨fromUnits, hfromUnits⟩, (exists_requestCandidates hrequest _).mp ⟨request, hofRequest⟩⟩,
        (exists_mapM_zipIdx fun m hm => exists_pinnedCandidate (hpinned m hm)).mp ⟨pinned, hofPinned⟩⟩
    · intro item hitem
      obtain ⟨c, -, hc⟩ := exists_right_of_forall₂ fused.ofRetrieved hitem
      exact exists_candidateFromRetrieved.mp ⟨c, hc⟩
  · intro h
    obtain ⟨⟨hhistory, hcurrent⟩, hpinned⟩ := by simpa only [forall_mem_append] using h.fingerprintable
    obtain ⟨units, hsegmented⟩ := exists_segmentMessages.mpr h.history
    obtain ⟨fromUnits, hfrom⟩ := (hunits hsegmented).mpr hhistory
    obtain ⟨request, hrequest⟩ := (exists_requestCandidates (F := F) h.currentRequest units.length).mpr hcurrent
    obtain ⟨pinned, hpinned⟩ := (exists_mapM_zipIdx fun m hm => exists_pinnedCandidate (F := F) (h.pinned m hm)).mpr hpinned
    obtain ⟨retrieved, hretrieved⟩ := exists_mapM_eq_ok.mpr fun item hitem =>
      exists_candidateFromRetrieved.mpr (h.retrieved item hitem)
    exact ⟨_, bind_eq_ok.mpr ⟨units, hsegmented, bind_eq_ok.mpr ⟨fromUnits, hfrom, bind_eq_ok.mpr ⟨request, hrequest,
      bind_eq_ok.mpr ⟨pinned, hpinned, bind_eq_ok.mpr ⟨retrieved, hretrieved, rfl⟩⟩⟩⟩⟩⟩

end Fusion

end ContextProxy
