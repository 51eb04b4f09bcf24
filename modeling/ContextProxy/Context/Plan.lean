import ContextProxy.Context.Engine
import Mathlib.Algebra.Field.Rat
import Mathlib.Algebra.Order.Ring.Rat

/-!
# The shape of a plan

What `build` returns, in terms of its inputs alone. It overflows exactly when the instructions, the pinned messages, the request and the tools do not fit. Otherwise it renders the instructions, the pinned messages, some retrieved blocks, the longest suffix of the other units that fits, and the request, and its estimate is the count of that.
-/

namespace ContextProxy

open Json List

variable {F : Type} {rt : Runtime} {input : BuildInput F} {units : List InteractionUnit}
  {fromUnits request pinned retrieved kept : List (Candidate F)}

/-! ### Sources and tiers -/

namespace Candidate

variable {c : Candidate F}

theorem isMandatory_iff :
    c.isMandatory = true ↔ c.source = .system ∨ c.source = .pinned ∨ c.source = .currentRequest := by
  cases hsource : c.source with
  | _ => simp [isMandatory, isTools, tier, CandidateSource.tier, hsource]

theorem isRecent_iff : c.isRecent = true ↔ c.source = .recentTurn := by
  cases hsource : c.source with
  | _ => simp [isRecent, isMandatory, isTools, tier, CandidateSource.tier, hsource]

theorem isOptional_iff : c.isOptional = true ↔ c.source = .memory ∨ c.source = .chunk := by
  cases hsource : c.source with
  | _ => simp [isOptional, isRecent, isMandatory, isTools, tier, CandidateSource.tier, hsource]

theorem isRaw_iff : c.isRaw = true ↔ c.source ≠ .memory ∧ c.source ≠ .chunk := by
  cases hsource : c.source with
  | _ => simp [isRaw, tier, CandidateSource.tier, hsource]

theorem isRaw_of_isMandatory (h : c.isMandatory = true) : c.isRaw = true := by
  rcases isMandatory_iff.mp h with h | h | h <;> simp [isRaw_iff, h]

theorem isRaw_of_isRecent (h : c.isRecent = true) : c.isRaw = true := by
  simp [isRaw_iff, isRecent_iff.mp h]

end Candidate

/-! ### The parts that reach allocation -/

variable {c : Candidate F} {item : RetrievedItem F} {candidates : List (Candidate F)}

theorem candidateFromRetrieved_eq_ok (h : candidateFromRetrieved rt item = .ok c) :
    c.source = item.itemType.source ∧ c.render = [item.block] ∧ c.Counted rt := by
  obtain ⟨text, -, h⟩ := bind_eq_ok.mp h
  obtain ⟨tokens, htokens, h⟩ := bind_eq_ok.mp h
  obtain ⟨digest, -, h⟩ := bind_eq_ok.mp h
  rw [pure_eq_ok] at h
  subst h
  obtain ⟨hreadable, htotal⟩ := messageTokens_eq_ok.mp htokens
  refine ⟨rfl, rfl, messagesTokens_eq_ok.mpr ⟨by simpa using hreadable, ?_⟩⟩
  simp [tokensOfAll, htotal]

theorem candidateFromRetrieved_identity (h : candidateFromRetrieved rt item = .ok c) :
    c.key = item.id ∧ c.source = item.itemType.source ∧ c.conversationId = some item.conversationId := by
  obtain ⟨text, -, h⟩ := bind_eq_ok.mp h
  obtain ⟨tokens, -, h⟩ := bind_eq_ok.mp h
  obtain ⟨digest, -, h⟩ := bind_eq_ok.mp h
  obtain rfl := Except.ok.inj h
  exact ⟨rfl, rfl, rfl⟩

theorem keys_of_forall₂ {α : Type} {f : α → Except PyError (Candidate F)} {name : α → String} {items : List α}
    (h : List.Forall₂ (fun item c => f item = .ok c) items candidates)
    (hname : ∀ item c, f item = .ok c → c.key = name item) : candidates.map (·.key) = items.map name := by
  induction h with
  | nil => rfl
  | cons hc _ ih => rw [map_cons, map_cons, ih, hname _ _ hc]

namespace Fused

variable {c : Candidate F}

theorem source_fromUnits (fused : Fused rt input units fromUnits request pinned retrieved) (hc : c ∈ fromUnits) :
    c.source = .system ∨ c.source = .recentTurn := by
  obtain ⟨unit, -, hunit⟩ := exists_left_of_forall₂ fused.ofUnits hc
  rw [hunit.source]
  split
  · exact .inl rfl
  · exact .inr rfl

theorem source_request (fused : Fused rt input units fromUnits request pinned retrieved) (hc : c ∈ request) :
    c.source = .currentRequest := by
  rcases fused.ofRequest with ⟨rfl, -⟩ | ⟨c', rfl, hsource, -⟩
  · simp at hc
  · rw [mem_singleton.mp hc, hsource]

theorem source_pinned (fused : Fused rt input units fromUnits request pinned retrieved) (hc : c ∈ pinned) :
    c.source = .pinned := by
  obtain ⟨m, -, hsource, -⟩ := exists_left_of_forall₂ fused.ofPinned hc
  exact hsource

theorem source_retrieved (fused : Fused rt input units fromUnits request pinned retrieved) (hc : c ∈ retrieved) :
    c.source = .memory ∨ c.source = .chunk := by
  obtain ⟨item, -, hitem⟩ := exists_left_of_forall₂ fused.ofRetrieved hc
  rw [(candidateFromRetrieved_eq_ok hitem).1]
  cases item.itemType with
  | chunk => exact .inr rfl
  | memory => exact .inl rfl

end Fused

theorem source_toolsCandidates {tools : List Json} (hc : c ∈ toolsCandidates rt tools) : c.source = .toolDefinitions := by
  rw [toolsCandidates] at hc
  split at hc
  · simp at hc
  · rw [mem_singleton.mp hc]

section Allocated

variable (fused : Fused rt input units fromUnits request pinned retrieved)
  (hkept : RemovesRetrieved (fromUnits ++ request ++ toolsCandidates rt input.tools ++ pinned ++ retrieved) kept)
include fused hkept

theorem filter_of_source {p : Candidate F → Bool} (q : CandidateSource → Bool) (hp : ∀ c, p c = q c.source)
    (hmemory : q .memory = false) (hchunk : q .chunk = false) :
    kept.filter p = fromUnits.filter p ++ (if q .currentRequest then request else [])
      ++ (if q .toolDefinitions then toolsCandidates rt input.tools else []) ++ (if q .pinned then pinned else []) := by
  have hpart : ∀ (part : List (Candidate F)) source, (∀ c ∈ part, c.source = source) →
      part.filter p = if q source then part else [] := by
    intro part source hsource
    split
    · rename_i hq
      exact filter_eq_self.mpr fun c hc => by rw [hp, hsource c hc, hq]
    · rename_i hq
      exact filter_eq_nil_iff.mpr fun c hc => by rw [hp, hsource c hc]; exact hq
  have hretrieved : retrieved.filter p = [] := by
    apply filter_eq_nil_iff.mpr
    intro c hc
    rcases fused.source_retrieved hc with h | h
    · simp [hp, h, hmemory]
    · simp [hp, h, hchunk]
  have hraw : ∀ c, p c = true → c.isRaw = true := by
    intro c hc
    rw [Candidate.isRaw_iff]
    constructor
    · intro h
      simp [hp, h, hmemory] at hc
    · intro h
      simp [hp, h, hchunk] at hc
  rw [hkept.filter_eq hraw]
  simp only [filter_append]
  rw [hpart request _ fun c => fused.source_request, hpart pinned _ fun c => fused.source_pinned,
    hpart _ _ fun c => source_toolsCandidates, hretrieved, append_nil]

theorem filter_isMandatory : kept.filter Candidate.isMandatory =
    fromUnits.filter Candidate.isMandatory ++ request ++ pinned := by
  rw [filter_of_source fused hkept (fun s => s = .system || s = .pinned || s = .currentRequest)
    (fun c => Bool.eq_iff_iff.mpr (by simp [Candidate.isMandatory_iff, or_assoc])) rfl rfl]
  simp

theorem filter_isRecent : kept.filter Candidate.isRecent = fromUnits.filter Candidate.isRecent := by
  rw [filter_of_source fused hkept (fun s => s = .recentTurn)
    (fun c => Bool.eq_iff_iff.mpr (by simp [Candidate.isRecent_iff])) rfl rfl]
  simp

theorem toolsCost_eq : toolsCost kept = toolsTokens rt input.tools := by
  have hunits : fromUnits.filter Candidate.isTools = [] := by
    apply filter_eq_nil_iff.mpr
    intro c hc
    rcases fused.source_fromUnits hc with h | h
    · simp [Candidate.isTools, h]
    · simp [Candidate.isTools, h]
  have hfilter := filter_of_source fused hkept (p := Candidate.isTools) (fun s => s = .toolDefinitions) (fun c => rfl)
    rfl rfl
  rw [toolsCost, hfilter, hunits]
  by_cases htools : input.tools = []
  · simp [toolsCandidates, htools, toolsTokens]
  · simp [toolsCandidates, htools]

theorem mem_retrieved_of_isOptional {c : Candidate F} (hc : c ∈ kept.filter Candidate.isOptional) :
    ∃ item ∈ input.retrieved, candidateFromRetrieved rt item = .ok c := by
  obtain ⟨hmem, hoptional⟩ := mem_filter.mp hc
  have hsource := Candidate.isOptional_iff.mp hoptional
  have hall := hkept.sublist.subset hmem
  simp only [mem_append] at hall
  rcases hall with (((h | h) | h) | h) | h
  · rcases fused.source_fromUnits h with h | h <;> simp [h] at hsource
  · simp [fused.source_request h] at hsource
  · simp [source_toolsCandidates h] at hsource
  · simp [fused.source_pinned h] at hsource
  · exact exists_left_of_forall₂ fused.ofRetrieved h

end Allocated

/-! ### Order -/

theorem packKey_lt_of_tier {a b : Candidate F} (h : a.tier < b.tier) : a.packKey < b.packKey :=
  Prod.Lex.toLex_lt_toLex.mpr (.inl h)

theorem packKey_lt_of_position {a b : Candidate F} (htier : a.tier = b.tier) (h : a.position < b.position) :
    a.packKey < b.packKey :=
  Prod.Lex.toLex_lt_toLex.mpr (.inr ⟨htier, Prod.Lex.toLex_lt_toLex.mpr (.inl h)⟩)

theorem pairwise_packKey {part : List (Candidate F)} {source : CandidateSource}
    (hsource : ∀ c ∈ part, c.source = source) (horder : part.Pairwise fun a b => a.position < b.position) :
    part.Pairwise fun a b => a.packKey < b.packKey := by
  refine horder.imp_of_mem ?_
  intro a b ha hb h
  apply packKey_lt_of_position _ h
  rw [Candidate.tier, Candidate.tier, hsource a ha, hsource b hb]

namespace Fused

variable (fused : Fused rt input units fromUnits request pinned retrieved)
include fused

variable {c : Candidate F}

theorem source_instruction (hc : c ∈ fromUnits.filter Candidate.isMandatory) : c.source = .system := by
  obtain ⟨hmem, hmandatory⟩ := mem_filter.mp hc
  rcases fused.source_fromUnits hmem with h | h
  · exact h
  · simp [Candidate.isMandatory_iff, h] at hmandatory

theorem headAndTail_eq : headAndTail (fromUnits.filter Candidate.isMandatory ++ request ++ pinned)
    = (fromUnits.filter Candidate.isMandatory ++ pinned, request.head?) := by
  have hperm : (fromUnits.filter Candidate.isMandatory ++ pinned ++ request).Perm
      (fromUnits.filter Candidate.isMandatory ++ request ++ pinned) := by
    rw [append_assoc, append_assoc]
    exact perm_append_comm.append_left _
  have hrequest : request.Pairwise fun a b => a.packKey < b.packKey := by
    rcases fused.ofRequest with ⟨rfl, -⟩ | ⟨c, rfl, -⟩
    · exact .nil
    · exact pairwise_singleton _ c
  have hstrict : (fromUnits.filter Candidate.isMandatory ++ pinned ++ request).Pairwise
      fun a b => a.packKey < b.packKey := by
    refine pairwise_append.mpr ⟨pairwise_append.mpr ⟨?_, ?_, ?_⟩, hrequest, ?_⟩
    · exact pairwise_packKey (fun c => fused.source_instruction) (fused.unitOrder.sublist filter_sublist)
    · exact pairwise_packKey (fun c => fused.source_pinned) fused.pinnedOrder
    · intro a ha b hb
      apply packKey_lt_of_tier
      simp [Candidate.tier, fused.source_instruction ha, fused.source_pinned hb, CandidateSource.tier]
    · intro a ha b hb
      apply packKey_lt_of_tier
      rcases mem_append.mp ha with ha | ha
      · simp [Candidate.tier, fused.source_instruction ha, fused.source_request hb, CandidateSource.tier]
      · simp [Candidate.tier, fused.source_pinned ha, fused.source_request hb, CandidateSource.tier]
  have hother : ∀ c ∈ fromUnits.filter Candidate.isMandatory ++ pinned, ¬(c.source = .currentRequest) := by
    intro c hc
    rcases mem_append.mp hc with hc | hc
    · simp [fused.source_instruction hc]
    · simp [fused.source_pinned hc]
  rw [headAndTail, insertionSort_eq_of_strict hperm hstrict]
  rw [eraseP_append_right _ (by simpa using hother), find?_append,
    find?_eq_none.mpr (by simpa using hother), Option.none_or]
  rcases fused.ofRequest with ⟨rfl, -⟩ | ⟨c, rfl, hsource, -⟩
  · simp
  · simp [hsource]

theorem toList_request : request.head?.toList = request := by
  rcases fused.ofRequest with ⟨rfl, -⟩ | ⟨c, rfl, -⟩
  · rfl
  · rfl

/-! ### Messages and cost -/

theorem instruction_units : List.Forall₂ Candidate.OfUnit (units.filter (·.isSystem))
    (fromUnits.filter Candidate.isMandatory) := by
  refine rel_filter ?_ fused.ofUnits
  intro unit c hunit
  cases hsystem : unit.isSystem with
  | _ => simp [Candidate.isMandatory_iff, hunit.source, hsystem]

theorem recent_units : List.Forall₂ Candidate.OfUnit (units.filter (!·.isSystem))
    (fromUnits.filter Candidate.isRecent) := by
  refine rel_filter ?_ fused.ofUnits
  intro unit c hunit
  cases hsystem : unit.isSystem with
  | _ => simp [Candidate.isRecent_iff, hunit.source, hsystem]

theorem counted_unit (hc : c ∈ fromUnits) : c.Counted rt := by
  obtain ⟨unit, hmem, hunit⟩ := exists_left_of_forall₂ fused.ofUnits hc
  rw [Candidate.Counted, hunit.tokens, hunit.render]
  exact (segmentMessages_spec fused.segmented).2.2.1 unit hmem

theorem render_instructions :
    (fromUnits.filter Candidate.isMandatory).flatMap (·.render) = input.history.filter isInstruction := by
  rw [← (segmentMessages_spec fused.segmented).1]
  exact (flatMap_eq_of_forall₂ (fun _ _ h => h.render.symm) fused.instruction_units).symm

theorem render_pinned : pinned.flatMap (·.render) = input.pinned := by
  rw [← flatMap_eq_of_forall₂ (f := fun m => [m]) (fun _ _ h => h.2.1.symm) fused.ofPinned]
  exact flatMap_singleton' _

theorem render_request : request.flatMap (·.render) = input.currentRequest := by
  rcases fused.ofRequest with ⟨rfl, hnil⟩ | ⟨c, rfl, -, hrender, -⟩
  · exact hnil.symm
  · simpa using hrender

theorem counted_mandatory (hc : c ∈ fromUnits.filter Candidate.isMandatory ++ request ++ pinned) : c.Counted rt := by
  simp only [mem_append] at hc
  rcases hc with (hc | hc) | hc
  · exact fused.counted_unit (mem_filter.mp hc).1
  · rcases fused.ofRequest with ⟨rfl, -⟩ | ⟨c', rfl, -, -, hcounted⟩
    · simp at hc
    · rwa [mem_singleton.mp hc]
  · obtain ⟨m, -, -, -, hcounted⟩ := exists_left_of_forall₂ fused.ofPinned hc
    exact hcounted

end Fused

theorem messagesTokens_render (h : ∀ c ∈ candidates, c.Counted rt) :
    messagesTokens rt (candidates.flatMap (·.render)) = .ok (totalCost Candidate.tokens candidates) := by
  refine messagesTokens_eq_ok.mpr ⟨?_, ?_⟩
  · intro m hm
    obtain ⟨c, hc, hmc⟩ := mem_flatMap.mp hm
    exact (messagesTokens_eq_ok.mp (h c hc)).1 m hmc
  · rw [tokensOfAll_flatMap, totalCost]
    congr 1
    exact map_congr_left fun c hc => (messagesTokens_eq_ok.mp (h c hc)).2

theorem totalCost_eq (h : ∀ c ∈ candidates, c.Counted rt) :
    totalCost Candidate.tokens candidates = tokensOfAll rt (candidates.flatMap (·.render)) :=
  (messagesTokens_eq_ok.mp (messagesTokens_render h)).2

/-! ### The plan -/

/-- What has to be sent whatever else is dropped. -/
def BuildInput.requiredTokens (rt : Runtime) (input : BuildInput F) : ℕ :=
  tokensOfAll rt (input.history.filter isInstruction) + tokensOfAll rt input.pinned
    + tokensOfAll rt input.currentRequest + toolsTokens rt input.tools

theorem mandatoryCost_eq (fused : Fused rt input units fromUnits request pinned retrieved)
    (hkept : RemovesRetrieved (fromUnits ++ request ++ toolsCandidates rt input.tools ++ pinned ++ retrieved) kept) :
    mandatoryCost kept = input.requiredTokens rt := by
  rw [mandatoryCost, toolsCost_eq fused hkept, filter_isMandatory fused hkept,
    totalCost_eq fun c hc => fused.counted_mandatory hc, flatMap_append, flatMap_append,
    fused.render_instructions, fused.render_request, fused.render_pinned, tokensOfAll_append, tokensOfAll_append,
    BuildInput.requiredTokens]
  omega

/-- The plan in terms of the inputs: the units of the history, those of them that are kept, and the retrieved items whose blocks are sent. -/
structure Assembled (engine : ContextAssemblyEngine F) (rt : Runtime) (input : BuildInput F) (plan : ContextPlan F)
    (units window : List InteractionUnit) (blocks : List (RetrievedItem F)) : Prop where
  segmented : segmentMessages rt input.history = .ok units
  counted : ∀ unit ∈ units, messagesTokens rt unit.messages = .ok unit.tokens
  longest : LongestFitting InteractionUnit.tokens (engine.usable - input.requiredTokens rt)
    (units.filter (!·.isSystem)) window
  suffix : window.flatMap (·.messages) <:+ input.history.filter (!isInstruction ·)
  blocks_retrieved : ∀ item ∈ blocks, item ∈ input.retrieved
  blocks_count : blocks.length ≤ engine.settings.maxRetrievedItems
  blocks_cost : tokensOfAll rt (blocks.map (·.block)) ≤
    min (engine.usable - input.requiredTokens rt - totalCost InteractionUnit.tokens window)
      engine.settings.retrievedBudgetTokens
  messages : plan.messages = input.history.filter isInstruction ++ input.pinned ++ blocks.map (·.block)
    ++ window.flatMap (·.messages) ++ input.currentRequest
  estimate : ∃ n, messagesTokens rt plan.messages = .ok n ∧ plan.tokenEstimate = n + toolsTokens rt input.tools
  within : plan.tokenEstimate ≤ engine.usable

theorem not_isPromoted_of_retrieved (h : candidateFromRetrieved rt item = .ok c) : c.isPromoted = false := by
  rw [Candidate.isPromoted, (candidateFromRetrieved_eq_ok h).2.1]
  exact Bool.and_false _

theorem not_isPromoted_of_isRaw (h : c.isRaw = true) : c.isPromoted = false := by
  cases hsource : c.source with
  | memory | chunk => simp [Candidate.isRaw_iff, hsource] at h
  | system | toolDefinitions | pinned | currentRequest | recentTurn =>
    simp [Candidate.isPromoted, hsource, CandidateSource.classification]

section Build

variable [Score F] {engine : ContextAssemblyEngine F}

theorem build_of_not_readable (engine : ContextAssemblyEngine F) (h : ¬input.Readable rt) :
    ∃ error, engine.build rt input = .error (.python error) := by
  cases hfuse : fuseCandidates rt input with
  | ok candidates => exact absurd (exists_fuseCandidates.mp ⟨candidates, hfuse⟩) h
  | error error =>
    refine ⟨error, ?_⟩
    rw [ContextAssemblyEngine.build, hfuse]
    rfl

theorem build_of_overflow (hreadable : input.Readable rt) (h : engine.usable < input.requiredTokens rt) :
    engine.build rt input = .error (.overflow (input.requiredTokens rt) engine.usable) := by
  obtain ⟨candidates, hfuse⟩ := exists_fuseCandidates.mpr hreadable
  obtain ⟨units, fromUnits, request, pinned, retrieved, fused, rfl⟩ := fuseCandidates_eq_ok hfuse
  have hcost := mandatoryCost_eq fused (prepare_removesRetrieved _ input.supersededMemoryIds input.conversationId)
  rw [← hcost] at h ⊢
  rw [ContextAssemblyEngine.build, hfuse]
  show (engine.allocate _ _ _ >>= _) = _
  rw [ContextAssemblyEngine.allocate_of_overflow _ _ h]
  rfl

section Allocated

variable (fused : Fused rt input units fromUnits request pinned retrieved)
  (hkept : RemovesRetrieved (fromUnits ++ request ++ toolsCandidates rt input.tools ++ pinned ++ retrieved) kept)
include fused hkept

/-- What allocation orders, when the mandatory part fits. -/
theorem allocate_eq_ok (scores : String → F) (dropped : DropTable) (h : input.requiredTokens rt ≤ engine.usable) :
    ∃ allocation, engine.allocate kept scores dropped = .ok allocation ∧
      allocation.ordered = fromUnits.filter Candidate.isMandatory ++ pinned ++ engine.picked scores kept
        ++ engine.keptRecent kept ++ request ∧
      allocation.stats.toolsTokens = toolsTokens rt input.tools := by
  rw [← mandatoryCost_eq fused hkept] at h
  obtain ⟨allocation, hallocate, hordered, htools⟩ :=
    ContextAssemblyEngine.allocate_of_fits scores dropped h
  rw [filter_isMandatory fused hkept, fused.headAndTail_eq, fused.toList_request] at hordered
  exact ⟨allocation, hallocate, hordered, htools.trans (toolsCost_eq fused hkept)⟩

theorem exists_blocks (engine : ContextAssemblyEngine F) (scores : String → F) :
    ∃ blocks, List.Forall₂ (fun item c => candidateFromRetrieved rt item = .ok c) blocks (engine.picked scores kept) ∧
      (∀ item ∈ blocks, item ∈ input.retrieved) ∧
      (engine.picked scores kept).flatMap (·.render) = blocks.map (·.block) := by
  have hitems : ∀ c ∈ engine.picked scores kept,
      ∃ item ∈ input.retrieved, candidateFromRetrieved rt item = .ok c := fun c hc =>
    mem_retrieved_of_isOptional fused hkept ((engine.picked_spec scores kept).1 c hc)
  obtain ⟨blocks, hblocks, hretrieved⟩ := exists_forall₂_of_mem hitems
  refine ⟨blocks, hblocks, hretrieved, ?_⟩
  have hrender : ∀ item (c : Candidate F), candidateFromRetrieved rt item = .ok c → [item.block] = c.render :=
    fun item c h => (candidateFromRetrieved_eq_ok h).2.1.symm
  rw [← flatMap_eq_of_forall₂ hrender hblocks, map_eq_flatMap]

omit [Score F] in
/-- The turns that are kept are the window of the units. -/
theorem keptRecent_units (engine : ContextAssemblyEngine F) : List.Forall₂ Candidate.OfUnit
      (window InteractionUnit.tokens (engine.usable - input.requiredTokens rt) (units.filter (!·.isSystem)))
      (engine.keptRecent kept) := by
  rw [ContextAssemblyEngine.keptRecent, mandatoryCost_eq fused hkept, filter_isRecent fused hkept]
  exact window_forall₂ (fun _ _ h => h.tokens.symm) fused.recent_units _

theorem counted_ordered {engine : ContextAssemblyEngine F} {scores : String → F} {c : Candidate F}
    (hc : c ∈ fromUnits.filter Candidate.isMandatory ++ pinned ++ engine.picked scores kept
      ++ engine.keptRecent kept ++ request) : c.Counted rt ∧ c.isPromoted = false := by
  simp only [mem_append] at hc
  rcases hc with (((hc | hc) | hc) | hc) | hc
  · refine ⟨fused.counted_unit (mem_filter.mp hc).1, not_isPromoted_of_isRaw ?_⟩
    simp [Candidate.isRaw_iff, fused.source_instruction hc]
  · refine ⟨fused.counted_mandatory (by simp [hc]), not_isPromoted_of_isRaw ?_⟩
    simp [Candidate.isRaw_iff, fused.source_pinned hc]
  · obtain ⟨blocks, hblocks, -⟩ := exists_blocks fused hkept engine scores
    obtain ⟨item, -, hitem⟩ := exists_left_of_forall₂ hblocks hc
    exact ⟨(candidateFromRetrieved_eq_ok hitem).2.2, not_isPromoted_of_retrieved hitem⟩
  · have hmem : c ∈ kept.filter Candidate.isRecent := (window_longestFitting _ _ _).suffix.subset hc
    rw [filter_isRecent fused hkept, mem_filter] at hmem
    refine ⟨fused.counted_unit hmem.1, not_isPromoted_of_isRaw ?_⟩
    simp [Candidate.isRaw_iff, Candidate.isRecent_iff.mp hmem.2]
  · refine ⟨fused.counted_mandatory (by simp [hc]), not_isPromoted_of_isRaw ?_⟩
    simp [Candidate.isRaw_iff, fused.source_request hc]

end Allocated

/-- Inputs that can be read and fit are assembled. -/
theorem build_of_fits (hreadable : input.Readable rt) (h : input.requiredTokens rt ≤ engine.usable) :
    ∃ plan units window blocks, engine.build rt input = .ok plan ∧
      Assembled engine rt input plan units window blocks := by
  obtain ⟨candidates, hfuse⟩ := exists_fuseCandidates.mpr hreadable
  obtain ⟨units, fromUnits, request, pinned, retrieved, fused, hcandidates⟩ := fuseCandidates_eq_ok hfuse
  have hkept := prepare_removesRetrieved candidates input.supersededMemoryIds input.conversationId
  generalize hprepared : prepare candidates input.supersededMemoryIds input.conversationId = prepared at hkept
  rw [hcandidates] at hkept
  generalize hscores : engine.scores prepared.kept = scores
  obtain ⟨allocation, hallocate, hordered, htools⟩ := allocate_eq_ok fused hkept scores prepared.dropped h
  have hcounted : ∀ c ∈ allocation.ordered, c.Counted rt ∧ c.isPromoted = false :=
    fun c hc => counted_ordered fused hkept (hordered ▸ hc)
  have hcost := mandatoryCost_eq fused hkept
  have hfits : totalCost Candidate.tokens allocation.ordered + allocation.stats.toolsTokens ≤ engine.usable := by
    rw [hordered, htools, ← toolsCost_eq fused hkept]
    apply ContextAssemblyEngine.totalCost_ordered_le scores _ (hcost.le.trans h)
    rw [filter_isMandatory fused hkept, append_assoc, append_assoc]
    exact perm_append_comm.append_left _
  obtain ⟨plan, hplan, hmessages, hestimate⟩ :=
    ContextAssemblyEngine.makePlan_of_fits scores (fun c hc => (hcounted c hc).2) hfits
  obtain ⟨blocks, hblocks, hretrieved, hrender⟩ := exists_blocks fused hkept engine scores
  have hunits := keptRecent_units fused hkept engine
  refine ⟨plan, units, _, blocks, ?_, fused.segmented, (segmentMessages_spec fused.segmented).2.2.1,
    window_longestFitting _ _ _, ?_, hretrieved, ?_, ?_, ?_, ?_, hestimate ▸ hfits⟩
  · rw [ContextAssemblyEngine.build, hfuse]
    show (engine.allocate (prepare candidates _ _).kept _ _ >>= _) = _
    rw [hprepared, hscores, hallocate]
    exact hplan
  · obtain ⟨older, holder⟩ := (window_longestFitting InteractionUnit.tokens
      (engine.usable - input.requiredTokens rt) (units.filter (!·.isSystem))).suffix
    refine ⟨older.flatMap (·.messages), ?_⟩
    rw [← flatMap_append, holder, (segmentMessages_spec fused.segmented).2.1]
  · rw [hblocks.length_eq]
    exact (engine.picked_spec scores prepared.kept).2.2
  · have hpicked := (engine.picked_spec scores prepared.kept).2.1
    have hpicked_counted : ∀ c ∈ engine.picked scores prepared.kept, c.Counted rt :=
      fun c hc => (hcounted c (by simp [hordered, hc])).1
    rw [← hrender, ← totalCost_eq hpicked_counted, totalCost_of_forall₂ (fun _ _ h => h.tokens.symm) hunits]
    rwa [ContextAssemblyEngine.leftOver, hcost] at hpicked
  · rw [hmessages, hordered]
    simp only [flatMap_append]
    rw [fused.render_instructions, fused.render_pinned, hrender, fused.render_request,
      flatMap_eq_of_forall₂ (fun _ _ h => h.render.symm) hunits]
  · refine ⟨_, hmessages ▸ messagesTokens_render fun c hc => (hcounted c hc).1, ?_⟩
    rw [hestimate, htools]

/-- A plan is returned only for inputs that can be read and fit, and it is assembled. -/
theorem assembled_of_build {plan : ContextPlan F} (h : engine.build rt input = .ok plan) :
    input.Readable rt ∧ input.requiredTokens rt ≤ engine.usable ∧
      ∃ units window blocks, Assembled engine rt input plan units window blocks := by
  have hreadable : input.Readable rt := by
    by_contra hunreadable
    obtain ⟨error, herror⟩ := build_of_not_readable engine hunreadable
    exact absurd (h.symm.trans herror) (by simp)
  have hfits : input.requiredTokens rt ≤ engine.usable := by
    by_contra hover
    exact absurd (h.symm.trans (build_of_overflow hreadable (Nat.lt_of_not_le hover))) (by simp)
  obtain ⟨plan', units, window, blocks, hbuild, hassembled⟩ := build_of_fits hreadable hfits
  obtain rfl := Except.ok.inj (h.symm.trans hbuild)
  exact ⟨hreadable, hfits, units, window, blocks, hassembled⟩

end Build

instance : Score ℚ where
  toLinearOrder := inferInstance
  toZero := inferInstance
  toOne := inferInstance
  toAdd := inferInstance
  toSub := inferInstance
  toMul := inferInstance
  toNeg := inferInstance
  toDiv := inferInstance
  toNatCast := inferInstance

def plainEngine (usable : ℕ) (h : 0 < usable) : ContextAssemblyEngine ℚ where
  usable
  usable_pos := h
  settings := { mmrLambda := 7 / 10, maxRetrievedItems := 8, retrievedBudgetTokens := 4000 }
  weights := { semantic := 2 / 5, lexical := 1 / 4, recency := 3 / 20, importance := 3 / 20, type := 1 / 20 }
  similarity := fun _ _ => 0
  round6 := id

def codeQuestion : BuildInput ℚ where
  history := [textMessage "system" "Be brief.", textMessage "user" "Tell me about the garden door.",
    textMessage "assistant" "It was painted last summer.", textMessage "user" "Thanks.", textMessage "assistant" "Welcome."]
  currentRequest := [textMessage "user" "Which code?"]
  tools := [.obj [("type", .str "function")]]
  pinned := [textMessage "system" "Use metres."]
  retrieved := [{ itemType := .memory, id := "m1", conversationId := "c", kind := "fact", content := "door code 42" }]

end ContextProxy
