import ContextProxy.Context.Fallback
import ContextProxy.Context.Plan

/-!
# What a planner forwards

One statement for both planners. In front of the request stand the instructions of the history in order, and among them other messages: blocks of retrieved items, then a suffix of the rest of the history. The engine puts the instructions first, the window planner leaves them in their places.
-/

namespace ContextProxy

open Json List

/-- A list of messages that may be forwarded for a history and a request: `planned` stands in front of the request, and `window` is what it keeps of the turns. -/
structure Forwards (rt : Runtime) (history currentRequest : List Message) (tools : List Json) (budget : ℕ)
    (blocks planned window forwarded : List Message) : Prop where
  messages : forwarded = planned ++ currentRequest
  instructions : planned.filter isInstruction = history.filter isInstruction
  others : planned.filter (!isInstruction ·) = blocks ++ window
  recent : window <:+ history.filter (!isInstruction ·)
  within : tokensOfAll rt forwarded + toolsTokens rt tools ≤ budget

theorem RetrievedItem.not_isInstruction_block {F : Type} (item : RetrievedItem F) : isInstruction item.block = false := rfl

theorem filter_eq_self_of_suffix {α : Type} {p : α → Bool} {window items : List α} (h : window <:+ items.filter p) :
    window.filter p = window :=
  filter_eq_self.mpr fun _ ha => (mem_filter.mp (h.subset ha)).2

section Engine

variable {F : Type} [Score F] {engine : ContextAssemblyEngine F} {rt : Runtime} {input : BuildInput F}

theorem forwards_of_build {plan : ContextPlan F} (hpinned : input.pinned = []) (h : engine.build rt input = .ok plan) :
    ∃ (items : List (RetrievedItem F)) (planned window : List Message), (∀ item ∈ items, item ∈ input.retrieved) ∧
      Forwards rt input.history input.currentRequest input.tools engine.usable (items.map (·.block)) planned window
        plan.messages := by
  obtain ⟨-, -, units, window, blocks, hplan⟩ := assembled_of_build h
  obtain ⟨tokens, htokens, hestimate⟩ := hplan.estimate
  have hwindow := filter_eq_self_of_suffix hplan.suffix
  have hturns : (window.flatMap (·.messages)).filter isInstruction = [] := by
    rw [← hwindow, filter_filter]
    simp
  have hblocks : (blocks.map (·.block)).filter isInstruction = [] := by
    simp [filter_map, Function.comp_def, RetrievedItem.not_isInstruction_block]
  refine ⟨blocks, input.history.filter isInstruction ++ blocks.map (·.block) ++ window.flatMap (·.messages), _,
    hplan.blocks_retrieved, ?_, ?_, ?_, hplan.suffix, ?_⟩
  · rw [hplan.messages, hpinned, append_nil]
  · rw [filter_append, filter_append, hturns, hblocks, append_nil, append_nil, filter_filter]
    simp
  · rw [filter_append, filter_append, hwindow, filter_filter]
    simp [filter_map, Function.comp_def, RetrievedItem.not_isInstruction_block]
  · have hwithin := hplan.within
    rw [hestimate, (messagesTokens_eq_ok.mp htokens).2] at hwithin
    exact hwithin

end Engine

section Window

variable {rt : Runtime} {history currentRequest : List Message} {tools : List Json} {usable reserved : ℕ}

theorem forwards_of_planContext {plan : WindowPlan}
    (h : planContext rt history currentRequest tools usable reserved = .ok plan) :
    ∃ planned window, Forwards rt history currentRequest tools (usable - reserved) [] planned window plan.messages := by
  obtain ⟨-, hfits, units, kept, hplan⟩ := planContext_eq_ok h
  obtain ⟨hinstructions, hothers, hcounted, -⟩ := segmentMessages_spec hplan.segmented
  have hmem : ∀ unit ∈ kept, unit ∈ units := fun _ => mem_units_of_kept hplan.instructions hplan.longest.suffix
  have hsame : ∀ unit ∈ kept, ∀ m ∈ unit.messages, isInstruction m = unit.isSystem :=
    fun unit hunit m hm => isInstruction_of_mem_unit hplan.segmented (hmem unit hunit) hm
  refine ⟨kept.flatMap (·.messages), (kept.filter (!·.isSystem)).flatMap (·.messages), hplan.messages, ?_, ?_, ?_, ?_⟩
  · rw [filter_flatMap_of_forall hsame, hplan.instructions, hinstructions]
  · exact filter_flatMap_of_forall fun unit hunit m hm => congrArg (!·) (hsame unit hunit m hm)
  · rw [← hothers]
    obtain ⟨front, hfront⟩ := hplan.longest.suffix
    exact ⟨front.flatMap (·.messages), by rw [← hfront, flatMap_append]⟩
  · have hcost : tokensOfAll rt (kept.flatMap (·.messages)) = totalCost InteractionUnit.tokens kept := by
      rw [tokensOfAll_flatMap, totalCost]
      congr 1
      exact map_congr_left fun unit hunit => (messagesTokens_eq_ok.mp (hcounted unit (hmem unit hunit))).2.symm
    have hwindow := hplan.longest.fits
    rw [hplan.messages, tokensOfAll_append, hcost, totalCost_filter, hplan.instructions,
      totalCost_instructions hplan.segmented]
    rw [windowRequired] at hfits hwindow
    omega

end Window

end ContextProxy
