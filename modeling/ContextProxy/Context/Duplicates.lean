import ContextProxy.Context.Plan

/-!
# Duplicates and eviction

Deduplication compares a retrieved block with every candidate, and allocation then evicts some of those. So the content of a dropped duplicate need not be in the request. It is if every repeated text is carried by something mandatory or by a turn that fits together with all newer ones, or if everything retrieved fits (`duplicates_carried`).

For a text of the history, the request or the pinned messages the first condition is necessary too. For one that only retrieved items have, MMR order and packing decide, and nothing simpler is equivalent.
-/

namespace ContextProxy

open List

variable {F : Type} [Score F] {engine : ContextAssemblyEngine F} {rt : Runtime} {input : BuildInput F}
  {candidates : List (Candidate F)} {allocation : Allocation F} {plan : ContextPlan F}

/-- The local variables of a run of `build` that returns a plan. -/
structure Built (engine : ContextAssemblyEngine F) (rt : Runtime) (input : BuildInput F)
    (candidates : List (Candidate F)) (allocation : Allocation F) (plan : ContextPlan F) : Prop where
  fused : fuseCandidates rt input = .ok candidates
  allocated : engine.allocate (prepare candidates input.supersededMemoryIds input.conversationId).kept
    (engine.scores (prepare candidates input.supersededMemoryIds input.conversationId).kept)
    (prepare candidates input.supersededMemoryIds input.conversationId).dropped = .ok allocation
  planned : engine.makePlan allocation
    (engine.scores (prepare candidates input.supersededMemoryIds input.conversationId).kept) = .ok plan

theorem build_eq_ok_iff :
    engine.build rt input = .ok plan ↔ ∃ candidates allocation, Built engine rt input candidates allocation plan := by
  constructor
  · intro h
    obtain ⟨candidates, hfuse, h⟩ := bind_eq_ok.mp h
    obtain ⟨allocation, hallocate, hplan⟩ := bind_eq_ok.mp h
    exact ⟨candidates, allocation, mapError_eq_ok.mp hfuse, hallocate, hplan⟩
  · rintro ⟨candidates, allocation, h⟩
    exact bind_eq_ok.mpr ⟨candidates, mapError_eq_ok.mpr h.fused,
      bind_eq_ok.mpr ⟨allocation, h.allocated, h.planned⟩⟩

def Candidate.Carries (candidate : Candidate F) (text : String) : Prop :=
  candidate.text = text ∨ text ∈ candidate.contentTexts ∨ candidate.dedupText = some text

instance (c : Candidate F) (text : String) : Decidable (c.Carries text) := inferInstanceAs (Decidable (_ ∨ _))

/-- All candidates but superseded memories and items of other conversations. -/
def surviving (input : BuildInput F) (candidates : List (Candidate F)) : List (Candidate F) :=
  (candidates.filter (!isSuperseded input.supersededMemoryIds ·)).filter (!isForeign input.conversationId ·)

variable {c e : Candidate F} {text : String}

theorem Built.mem_ordered_iff (h : Built engine rt input candidates allocation plan) :
    c ∈ allocation.ordered ↔ (c ∈ candidates ∧ c.isMandatory = true) ∨
      (∃ older newer, candidates.filter Candidate.isRecent = older ++ c :: newer ∧
        totalCost Candidate.tokens (c :: newer) ≤ engine.usable - input.requiredTokens rt) ∨
      c ∈ engine.picked (engine.scores (prepare candidates input.supersededMemoryIds input.conversationId).kept)
        (prepare candidates input.supersededMemoryIds input.conversationId).kept := by
  obtain ⟨units, fromUnits, request, pinned, retrieved, fused, hcandidates⟩ := fuseCandidates_eq_ok h.fused
  have hallocated := h.allocated
  have hkept := prepare_removesRetrieved candidates input.supersededMemoryIds input.conversationId
  have hraw := hkept
  generalize prepare candidates input.supersededMemoryIds input.conversationId = prepared at *
  rw [hcandidates] at hkept
  have hcost := mandatoryCost_eq fused hkept
  have hfits : input.requiredTokens rt ≤ engine.usable := by
    by_contra hover
    rw [ContextAssemblyEngine.allocate_of_overflow _ _ (by rw [hcost]; omega)] at hallocated
    cases hallocated
  obtain ⟨allocation', hallocated', hordered, -⟩ :=
    allocate_eq_ok fused hkept (engine.scores prepared.kept) prepared.dropped hfits
  rw [hallocated, Except.ok.injEq] at hallocated'
  subst hallocated'
  have hmandatory : (c ∈ candidates ∧ c.isMandatory = true) ↔
      c ∈ fromUnits.filter Candidate.isMandatory ++ request ++ pinned := by
    rw [← filter_isMandatory fused hkept, hraw.filter_eq fun c => Candidate.isRaw_of_isMandatory, mem_filter]
  have hrecent : c ∈ engine.keptRecent prepared.kept ↔ ∃ older newer,
      candidates.filter Candidate.isRecent = older ++ c :: newer ∧
        totalCost Candidate.tokens (c :: newer) ≤ engine.usable - input.requiredTokens rt := by
    rw [ContextAssemblyEngine.keptRecent, hcost, hraw.filter_eq fun c => Candidate.isRaw_of_isRecent]
    exact (window_longestFitting _ _ _).mem_iff
  rw [hmandatory, ← hrecent, hordered]
  simp only [mem_append, or_assoc, or_comm, or_left_comm]

/-! ### When everything retrieved fits -/

/-- All retrieved items have different identifiers and fit, next to the whole history. -/
structure ContextAssemblyEngine.Roomy (engine : ContextAssemblyEngine F) (rt : Runtime) (input : BuildInput F) : Prop where
  distinct : (input.retrieved.map (·.id)).Nodup
  budget : tokensOfAll rt (input.retrieved.map (·.block)) ≤ engine.settings.retrievedBudgetTokens
  usable : input.requiredTokens rt + tokensOfAll rt (input.history.filter (!isInstruction ·))
    + tokensOfAll rt (input.retrieved.map (·.block)) ≤ engine.usable

section Roomy

variable {units : List InteractionUnit} {fromUnits request pinned retrieved kept : List (Candidate F)}
  (fused : Fused rt input units fromUnits request pinned retrieved)
include fused

omit [Score F] in
theorem Fused.isRaw {c : Candidate F} (hc : c ∈ fromUnits ++ request ++ toolsCandidates rt input.tools ++ pinned) :
    c.isRaw = true := by
  rw [Candidate.isRaw_iff]
  simp only [mem_append] at hc
  rcases hc with ((hc | hc) | hc) | hc
  · rcases fused.source_fromUnits hc with hsource | hsource <;> simp [hsource]
  · simp [fused.source_request hc]
  · simp [source_toolsCandidates hc]
  · simp [fused.source_pinned hc]

omit [Score F] in
theorem Fused.filter_isOptional :
    (fromUnits ++ request ++ toolsCandidates rt input.tools ++ pinned ++ retrieved).filter Candidate.isOptional = retrieved := by
  rw [filter_append, filter_eq_nil_iff.mpr, filter_eq_self.mpr, nil_append]
  · intro c hc
    exact Candidate.isOptional_iff.mpr (fused.source_retrieved hc)
  · intro c hc hoptional
    obtain ⟨hmemory, hchunk⟩ := Candidate.isRaw_iff.mp (fused.isRaw hc)
    exact (Candidate.isOptional_iff.mp hoptional).elim hmemory hchunk

omit [Score F] in
theorem Fused.totalCost_retrieved :
    totalCost Candidate.tokens retrieved = tokensOfAll rt (input.retrieved.map (·.block)) := by
  have hrender : ∀ item (c : Candidate F), candidateFromRetrieved rt item = .ok c → [item.block] = c.render :=
    fun item c h => (candidateFromRetrieved_eq_ok h).2.1.symm
  rw [map_eq_flatMap, flatMap_eq_of_forall₂ hrender fused.ofRetrieved]
  apply totalCost_eq
  intro c hc
  obtain ⟨item, -, hitem⟩ := exists_left_of_forall₂ fused.ofRetrieved hc
  exact (candidateFromRetrieved_eq_ok hitem).2.2

variable (hkept : RemovesRetrieved (fromUnits ++ request ++ toolsCandidates rt input.tools ++ pinned ++ retrieved) kept)
include hkept

omit [Score F] in
theorem totalCost_recent :
    totalCost Candidate.tokens (kept.filter Candidate.isRecent) = tokensOfAll rt (input.history.filter (!isInstruction ·)) := by
  rw [filter_isRecent fused hkept, totalCost_eq fun c hc => fused.counted_unit (mem_filter.mp hc).1,
    ← flatMap_eq_of_forall₂ (fun _ _ h => h.render.symm) fused.recent_units, (segmentMessages_spec fused.segmented).2.1]

omit [Score F] in
theorem optional_sublist : (kept.filter Candidate.isOptional).Sublist retrieved := by
  rw [← fused.filter_isOptional]
  exact hkept.sublist.filter _

omit [Score F] in
theorem tokens_pos_of_isOptional {c : Candidate F} (hc : c ∈ kept.filter Candidate.isOptional) : 0 < c.tokens := by
  obtain ⟨item, -, hitem⟩ := mem_retrieved_of_isOptional fused hkept hc
  obtain ⟨-, hrender, hcounted⟩ := candidateFromRetrieved_eq_ok hitem
  rw [Candidate.Counted, hrender] at hcounted
  rw [← Except.ok.inj hcounted]
  simp [messageOverheadTokens]

namespace ContextAssemblyEngine.Roomy

variable (h : engine.Roomy rt input)
include h

omit [Score F] in
theorem nodup_keys : ((kept.filter Candidate.isOptional).map (·.key)).Nodup := by
  have hkeys : retrieved.map (·.key) = input.retrieved.map (·.id) :=
    keys_of_forall₂ fused.ofRetrieved fun _ _ hc => (candidateFromRetrieved_identity hc).1
  exact (hkeys ▸ h.distinct).sublist ((optional_sublist fused hkept).map _)

omit [Score F] in
theorem cost_le : totalCost Candidate.tokens (kept.filter Candidate.isOptional)
    ≤ min (engine.leftOver kept) engine.settings.retrievedBudgetTokens := by
  have hblocks := totalCost_subperm Candidate.tokens (optional_sublist fused hkept).subperm
  have hrecent : totalCost Candidate.tokens (engine.keptRecent kept) ≤ totalCost Candidate.tokens (kept.filter Candidate.isRecent) :=
    totalCost_subperm _ (window_longestFitting _ _ _).suffix.sublist.subperm
  have hbudget := h.budget
  have husable := h.usable
  rw [fused.totalCost_retrieved] at hblocks
  rw [totalCost_recent fused hkept] at hrecent
  rw [leftOver, mandatoryCost_eq fused hkept]
  omega

theorem picked_eq (scores : String → F) :
    engine.picked scores kept = engine.ranked scores (kept.filter Candidate.isOptional) := by
  have hcost := h.cost_le fused hkept
  rw [picked, pickRetrieved]
  split
  · apply packUnder_of_fits
    have hranked := totalCost_subperm Candidate.tokens (engine.ranked_subperm scores (h.nodup_keys fused hkept))
    omega
  · rename_i hnot
    by_cases hnil : kept.filter Candidate.isOptional = []
    · simp [hnil, ranked, mmrSelect]
    · -- a block costs something, so there is budget left; then there are no places
      have hleft : 0 < engine.leftOver kept := by
        obtain ⟨c, rest, hcons⟩ := exists_cons_of_ne_nil hnil
        have hpos := tokens_pos_of_isOptional fused hkept (hcons ▸ mem_cons_self)
        rw [hcons, totalCost_cons] at hcost
        omega
      have hmax : engine.settings.maxRetrievedItems = 0 := by
        by_contra hmax
        exact hnot ⟨hnil, hleft, Nat.pos_of_ne_zero hmax⟩
      simp [hmax, ranked, mmrSelect]

theorem mem_picked (hcount : input.retrieved.length ≤ engine.settings.maxRetrievedItems) (scores : String → F)
    {c : Candidate F} (hc : c ∈ kept.filter Candidate.isOptional) : c ∈ engine.picked scores kept := by
  rw [h.picked_eq fused hkept]
  refine mem_ranked_of_room (h.nodup_keys fused hkept) ?_ hc
  have hlength := (optional_sublist fused hkept).length_le
  rw [← fused.ofRetrieved.length_eq] at hlength
  exact hlength.trans hcount

end ContextAssemblyEngine.Roomy

end Roomy

/-! ### When a repeated text is carried -/

omit [Score F] in
theorem Candidate.Announces.carries (h : c.Announces text) : c.Carries text := by
  rw [Announces] at h
  split at h
  · rw [rawTexts, mem_append] at h
    rcases h with h | h
    · split at h
      · cases h
      · exact .inl (mem_singleton.mp h).symm
    · exact .inr (.inl h)
  · exact .inr (.inr h)

/-- The text stays: something mandatory carries it, or a turn that fits together with all newer ones. -/
def Stays (engine : ContextAssemblyEngine F) (rt : Runtime) (input : BuildInput F) (candidates : List (Candidate F))
    (text : String) : Prop :=
  (∃ c ∈ candidates, c.isMandatory = true ∧ c.Carries text) ∨
    ∃ older turn newer, candidates.filter Candidate.isRecent = older ++ turn :: newer ∧ turn.Carries text ∧
      totalCost Candidate.tokens (turn :: newer) ≤ engine.usable - input.requiredTokens rt

theorem Built.carried_of_stays (h : Built engine rt input candidates allocation plan)
    (hstays : Stays engine rt input candidates text) : ∃ c ∈ allocation.ordered, c.Carries text := by
  rcases hstays with ⟨c, hmem, hmandatory, htext⟩ | ⟨older, c, newer, hsplit, htext, hfits⟩
  · exact ⟨c, h.mem_ordered_iff.mpr (.inl ⟨hmem, hmandatory⟩), htext⟩
  · exact ⟨c, h.mem_ordered_iff.mpr (.inr (.inl ⟨older, newer, hsplit, hfits⟩)), htext⟩

omit [Score F] in
theorem text_toolsCandidates {tools : List Json} (hc : c ∈ toolsCandidates rt tools) :
    c.text = "" ∧ c.contentTexts = [] := by
  rw [toolsCandidates] at hc
  split at hc
  · cases hc
  · rw [mem_singleton.mp hc]
    exact ⟨rfl, rfl⟩

/-- If everything retrieved fits, whatever announces a text is selected. -/
theorem Built.carried_of_roomy (h : Built engine rt input candidates allocation plan) (hroomy : engine.Roomy rt input)
    (hcount : input.retrieved.length ≤ engine.settings.maxRetrievedItems) (htext : text ≠ "")
    (hannounced : ∃ e ∈ surviving input candidates, e.Announces text) : ∃ c ∈ allocation.ordered, c.Carries text := by
  obtain ⟨units, fromUnits, request, pinned, retrieved, fused, rfl⟩ := fuseCandidates_eq_ok h.fused
  have hkept := prepare_removesRetrieved (fromUnits ++ request ++ toolsCandidates rt input.tools ++ pinned ++ retrieved)
    input.supersededMemoryIds input.conversationId
  obtain ⟨e, he, hannounces⟩ := exists_kept_announces htext hannounced
  refine ⟨e, h.mem_ordered_iff.mpr ?_, hannounces.carries⟩
  have hmem := hkept.sublist.subset he
  by_cases hmandatory : e.isMandatory = true
  · exact .inl ⟨hmem, hmandatory⟩
  by_cases hrecent : e.isRecent = true
  · obtain ⟨older, newer, hsplit⟩ := append_of_mem (mem_filter.mpr ⟨hmem, hrecent⟩)
    refine .inr (.inl ⟨older, newer, hsplit, ?_⟩)
    have hturns := totalCost_recent fused ⟨List.Sublist.refl _, rfl⟩
    have husable := hroomy.usable
    rw [hsplit, totalCost_append] at hturns
    omega
  · refine .inr (.inr (hroomy.mem_picked fused hkept hcount _ (mem_filter.mpr ⟨he, ?_⟩)))
    -- what is neither mandatory nor a turn is retrieved or the tools, which announce nothing
    simp only [mem_append] at hmem
    rcases hmem with (((hmem | hmem) | hmem) | hmem) | hmem
    · rcases fused.source_fromUnits hmem with hsource | hsource <;>
        simp [Candidate.isMandatory_iff, Candidate.isRecent_iff, hsource] at hmandatory hrecent
    · simp [Candidate.isMandatory_iff, fused.source_request hmem] at hmandatory
    · obtain ⟨hnone, hnil⟩ := text_toolsCandidates hmem
      have hraw : e.isRaw = true := Candidate.isRaw_iff.mpr (by simp [source_toolsCandidates hmem])
      simp [Candidate.Announces, hraw, Candidate.rawTexts, hnone, hnil] at hannounces
    · simp [Candidate.isMandatory_iff, fused.source_pinned hmem] at hmandatory
    · exact Candidate.isOptional_iff.mpr (fused.source_retrieved hmem)

omit [Score F] in
theorem mem_surviving_of_isRaw (he : e ∈ candidates) (hraw : e.isRaw = true) : e ∈ surviving input candidates := by
  obtain ⟨hmemory, hchunk⟩ := Candidate.isRaw_iff.mp hraw
  simp [surviving, he, isForeign, isSuperseded, Candidate.isRetrieval, hmemory, hchunk]

omit [Score F] in
theorem dedupText_ne_of_kept (hfused : fuseCandidates rt input = .ok candidates)
    (hc : c ∈ (prepare candidates input.supersededMemoryIds input.conversationId).kept) (hcraw : c.isRaw = false)
    (he : e ∈ candidates) (heraw : e.isRaw = true) (htext : text ≠ "") (hannounces : e.Announces text) :
    c.dedupText ≠ some text := by
  intro hdedup
  obtain ⟨units, fromUnits, request, pinned, retrieved, fused, rfl⟩ := fuseCandidates_eq_ok hfused
  generalize hraws : fromUnits ++ request ++ toolsCandidates rt input.tools ++ pinned = raws at *
  have hraw : ∀ c ∈ raws, c.isRaw = true := fun c hc => fused.isRaw (hraws ▸ hc)
  have hmem : e ∈ surviving input raws := by
    refine mem_surviving_of_isRaw ((mem_append.mp he).resolve_right fun hretrieved => ?_) heraw
    obtain ⟨hmemory, hchunk⟩ := Candidate.isRaw_iff.mp heraw
    exact (fused.source_retrieved hretrieved).elim hmemory hchunk
  obtain ⟨before, after, hsplit, hfirst⟩ := first_of_mem_kept hc hcraw hdedup htext
  -- the raw candidates come first, so the block is not before any of them
  rw [filter_append, filter_append] at hsplit
  change surviving input raws ++ surviving input retrieved = before ++ c :: after at hsplit
  rcases append_eq_append_iff.mp hsplit with ⟨rest, hbefore, -⟩ | ⟨rest, hfront, hrest⟩
  · exact hfirst e (hbefore ▸ mem_append_left _ hmem) hannounces
  · cases rest with
    | nil =>
      rw [append_nil] at hfront
      exact hfirst e (hfront ▸ hmem) hannounces
    | cons d rest =>
      obtain rfl : c = d := (List.cons.inj hrest).1
      have hin : c ∈ surviving input raws := by simp [hfront]
      rw [hraw c (mem_filter.mp (mem_filter.mp hin).1).1] at hcraw
      cases hcraw

omit [Score F] in
theorem contentTexts_of_isOptional (hfused : fuseCandidates rt input = .ok candidates) (hc : c ∈ candidates)
    (hoptional : c.isOptional = true) : c.contentTexts = [] := by
  obtain ⟨units, fromUnits, request, pinned, retrieved, fused, rfl⟩ := fuseCandidates_eq_ok hfused
  have hretrieved : c ∈ retrieved := fused.filter_isOptional ▸ mem_filter.mpr ⟨hc, hoptional⟩
  obtain ⟨item, -, hitem⟩ := exists_left_of_forall₂ fused.ofRetrieved hretrieved
  obtain ⟨_, -, hitem⟩ := bind_eq_ok.mp hitem
  obtain ⟨_, -, hitem⟩ := bind_eq_ok.mp hitem
  obtain ⟨_, -, hitem⟩ := bind_eq_ok.mp hitem
  exact congrArg _ (Except.ok.inj hitem).symm

/-- What a raw candidate announces is carried by something that stays, unless a block reads like it. -/
theorem Built.stays_of_carried (h : Built engine rt input candidates allocation plan) (htext : text ≠ "")
    (he : e ∈ candidates) (heraw : e.isRaw = true) (hannounces : e.Announces text)
    (hblocks : ∀ c ∈ candidates, c.isRaw = false → c.text ≠ text) (hcarried : ∃ c ∈ allocation.ordered, c.Carries text) :
    Stays engine rt input candidates text := by
  obtain ⟨c, hc, hcarries⟩ := hcarried
  rcases h.mem_ordered_iff.mp hc with ⟨hmem, hmandatory⟩ | ⟨older, newer, hsplit, hfits⟩ | hpicked
  · exact .inl ⟨c, hmem, hmandatory, hcarries⟩
  · exact .inr ⟨older, c, newer, hsplit, hcarries, hfits⟩
  · obtain ⟨hkept, hoptional⟩ := mem_filter.mp ((engine.picked_spec _ _).1 c hpicked)
    have hmem := (prepare_removesRetrieved candidates input.supersededMemoryIds input.conversationId).sublist.subset hkept
    have hraw : c.isRaw = false := by
      rw [← Bool.not_eq_true, Candidate.isRaw_iff]
      exact fun hraw => (Candidate.isOptional_iff.mp hoptional).elim hraw.1 hraw.2
    rcases hcarries with hown | hcontent | hdedup
    · exact absurd hown (hblocks c hmem hraw)
    · simp [contentTexts_of_isOptional h.fused hmem hoptional] at hcontent
    · exact absurd hdedup (dedupText_ne_of_kept h.fused hkept hraw he heraw htext hannounces)

/-- A dropped duplicate is still in the request if each repeated text stays, or if everything retrieved fits. A text that a raw candidate announces has to stay, unless a block happens to read like it. -/
theorem duplicates_carried (h : Built engine rt input candidates allocation plan) :
    ((∀ d text, Repeats (surviving input candidates) d text → Stays engine rt input candidates text ∨
          engine.Roomy rt input ∧ input.retrieved.length ≤ engine.settings.maxRetrievedItems) →
      ∀ d ∈ (prepare candidates input.supersededMemoryIds input.conversationId).duplicates,
        ∃ text, d.dedupText = some text ∧ ∃ c ∈ allocation.ordered, c.Carries text) ∧
    ((∀ d ∈ (prepare candidates input.supersededMemoryIds input.conversationId).duplicates,
        ∃ text, d.dedupText = some text ∧ ∃ c ∈ allocation.ordered, c.Carries text) →
      ∀ d text, Repeats (surviving input candidates) d text → (∃ e ∈ candidates, e.isRaw = true ∧ e.Announces text) →
        (∀ c ∈ candidates, c.isRaw = false → c.text ≠ text) → Stays engine rt input candidates text) := by
  have hduplicates : ∀ d, d ∈ (prepare candidates input.supersededMemoryIds input.conversationId).duplicates ↔
      ∃ text, Repeats (surviving input candidates) d text := fun d => mem_duplicates_iff
  constructor
  · intro hall d hd
    obtain ⟨text, hrepeats⟩ := (hduplicates d).mp hd
    refine ⟨text, hrepeats.dedupText, ?_⟩
    rcases hall d text hrepeats with hstays | ⟨hroomy, hcount⟩
    · exact h.carried_of_stays hstays
    · obtain ⟨before, after, hsplit, -, -, htext, e, he, hannounces⟩ := hrepeats
      exact h.carried_of_roomy hroomy hcount htext ⟨e, by simp [hsplit, he], hannounces⟩
  · rintro hall d text hrepeats ⟨e, he, heraw, hannounces⟩ hblocks
    obtain ⟨text', htext', hcarried⟩ := hall d ((hduplicates d).mpr ⟨text, hrepeats⟩)
    obtain rfl : text = text' := Option.some.inj (hrepeats.dedupText.symm.trans htext')
    obtain ⟨-, -, -, -, -, htext, -⟩ := hrepeats
    exact h.stays_of_carried htext he heraw hannounces hblocks hcarried

def captionedPicture : BuildInput ℚ where
  history := [[("role", .str "user"), ("content", .arr [
    .obj [("type", .str "text"), ("text", .str "door code 42")],
    .obj [("type", .str "image_url"), ("image_url", .obj [("url", .str "p")])]])]]
  currentRequest := [textMessage "user" "Which code?"]
  retrieved := [{ itemType := .memory, id := "m1", conversationId := "c1", kind := "fact", content := "door code 42" }]

def repeatedNotes : BuildInput ℚ :=
  { captionedPicture with retrieved := captionedPicture.retrieved ++
      [{ itemType := .memory, id := "m2", conversationId := "c1", kind := "fact", content := "tea at four" },
        { itemType := .memory, id := "m3", conversationId := "c1", kind := "fact", content := "tea  at four" }] }

/-- With room for the picture and the blocks, two memories are dropped, and their texts are in the request. -/
theorem duplicates_carried_picture : ∃ candidates allocation plan,
    Built (plainEngine 2000 (by decide)) plainRuntime repeatedNotes candidates allocation plan ∧
      (prepare candidates [] none).duplicates.map (·.key) = ["m1", "m3"] ∧
      ∀ d ∈ (prepare candidates [] none).duplicates,
        ∃ text, d.dedupText = some text ∧ ∃ c ∈ allocation.ordered, c.Carries text := by
  have hok : ((plainEngine 2000 (by decide)).build plainRuntime repeatedNotes).isOk = true := by decide +kernel
  obtain ⟨plan, hplan⟩ : ∃ plan, (plainEngine 2000 (by decide)).build plainRuntime repeatedNotes = .ok plan := by
    cases hbuild : (plainEngine 2000 (by decide)).build plainRuntime repeatedNotes with
    | ok plan => exact ⟨plan, rfl⟩
    | error error =>
      rw [hbuild] at hok
      cases hok
  obtain ⟨candidates, allocation, h⟩ := build_eq_ok_iff.mp hplan
  have hpicture : ∃ turn, candidates.filter Candidate.isRecent = [] ++ turn :: [] ∧ turn.Carries "door code 42" ∧
      totalCost Candidate.tokens [turn] ≤ 2000 - repeatedNotes.requiredTokens plainRuntime := by
    obtain rfl := Except.ok.inj h.fused
    exact ⟨_, rfl, by decide +kernel, by decide +kernel⟩
  refine ⟨candidates, allocation, plan, h, ?_, (duplicates_carried h).1 fun d text _ => ?_⟩
  · obtain rfl := Except.ok.inj h.fused
    decide +kernel
  · by_cases htext : text = "door code 42"
    · obtain ⟨turn, hrecent, hcarries, hfits⟩ := hpicture
      exact .inl (.inr ⟨[], turn, [], hrecent, htext ▸ hcarries, hfits⟩)
    · exact .inr ⟨⟨by decide +kernel, by decide +kernel, by decide +kernel⟩, by decide⟩

/-- The memory fits in the budget and the picture does not. The memory is dropped as a duplicate of the picture's caption, then the picture is dropped, and the caption is not in the request. -/
theorem duplicate_evicted : ∃ candidates allocation plan,
    Built (plainEngine 30 (by decide)) plainRuntime captionedPicture candidates allocation plan ∧
      ⟨"m1", .memory, .duplicate⟩ ∈ plan.droppedItems ∧
      plan.messages = [textMessage "user" "Which code?"] ∧
      ∃ d ∈ (prepare candidates [] none).duplicates, d.key = "m1" ∧ d.dedupText = some "door code 42" ∧
        ∀ c ∈ allocation.ordered, ¬c.Carries "door code 42" := by
  refine ⟨_, _, _, ⟨rfl, rfl, rfl⟩, ?_, ?_, _, mem_singleton.mpr rfl, rfl, rfl, ?_⟩
  · decide +kernel
  · decide +kernel
  · decide +kernel

end ContextProxy
