import ContextProxy.Context.Fallback
import ContextProxy.Context.Interactions
import ContextProxy.Context.Plan
import Mathlib.Algebra.Order.BigOperators.Group.List

/-!
# Tool calls and their results under trimming

Both planners forward, of the messages that are no instructions, the last ones: those of the units that fit, and the request. A call and its result are forwarded together or not at all if one unit holds both. That is so unless the conversation has not started at the call and an instruction comes between the two; then some budget keeps the result only.
-/

namespace ContextProxy

open Json
open List hiding get

/-- The occurrence of a message behind `older` is forwarded: the conversation a plan forwards is that of the payload without its first messages, and this one is not among these. -/
def Forwarded (payload conversation older : List Message) : Prop :=
  ∃ dropped, payload.filter (!isInstruction ·) = dropped ++ conversation.filter (!isInstruction ·) ∧
    dropped.length ≤ (older.filter (!isInstruction ·)).length

theorem forwarded_iff {older newer conversation : List Message}
    (h : conversation.filter (!isInstruction ·) <:+ (older ++ newer).filter (!isInstruction ·)) :
    Forwarded (older ++ newer) conversation older ↔
      (newer.filter (!isInstruction ·)).length ≤ (conversation.filter (!isInstruction ·)).length := by
  obtain ⟨dropped, hdropped⟩ := h
  have hlength := congrArg List.length hdropped
  rw [filter_append, length_append, length_append] at hlength
  constructor
  · rintro ⟨dropped', hdropped', hle⟩
    have := congrArg List.length (hdropped.trans hdropped')
    simp only [length_append] at this
    omega
  · intro hle
    exact ⟨dropped, hdropped.symm, by omega⟩

theorem length_flatten_le_of_suffix {groups groups' : List (List Message)} (h : groups <:+ groups') :
    groups.flatten.length ≤ groups'.flatten.length := by
  obtain ⟨before, rfl⟩ := h
  simp

section Groups

variable {older between newer : List Message} {a b : Message}

theorem not_cut_of_together {before behind groups : List (List Message)} {front middle back : List Message}
    (h : groups <:+ before ++ (front ++ a :: middle ++ b :: back) :: behind) :
    (middle ++ b :: (back ++ behind.flatten)).length < groups.flatten.length ↔
      (back ++ behind.flatten).length < groups.flatten.length := by
  have hwhole : ((front ++ a :: middle ++ b :: back) :: behind).flatten.length
      = front.length + middle.length + back.length + behind.flatten.length + 2 := by
    simp only [flatten_cons, length_append, length_cons]
    omega
  simp only [length_append, length_cons]
  rcases suffix_or_suffix_of_suffix h (suffix_append before _) with hshort | hlong
  · rcases suffix_cons_iff.mp hshort with rfl | hbehind
    · omega
    · have := length_flatten_le_of_suffix hbehind
      omega
  · have := length_flatten_le_of_suffix hlong
    omega

end Groups

/-! ### Where the pair stands -/

section Payload

variable {payload history current older between newer : List Message} {a b : Message}

theorem filter_separate (h : separateCurrentRequest payload = .ok (history, current)) :
    payload.filter (!isInstruction ·) = history.filter (!isInstruction ·) ++ current.filter (!isInstruction ·) := by
  rcases separateCurrentRequest_cases h with ⟨-, rfl, rfl⟩ | ⟨front, user, body, trailing, rfl, rfl, rfl, -, htrailing⟩
  · simp
  · have hnone : trailing.filter (!isInstruction ·) = [] :=
      filter_eq_nil_iff.mpr fun m hm => by simp [htrailing m hm]
    rw [filter_append, filter_append, filter_append, hnone, append_nil, append_nil]

/-- Two messages with no user message between them are both in the history, or both in the request. -/
theorem pair_cases (h : separateCurrentRequest payload = .ok (history, current))
    (hpayload : payload = older ++ a :: between ++ b :: newer) (ha : isUser a = false) (hb : isUser b = false)
    (huser : ∀ m ∈ between, isUser m = false) : (∃ newer', history = older ++ a :: between ++ b :: newer' ∧
        newer.filter (!isInstruction ·) = newer'.filter (!isInstruction ·) ++ current.filter (!isInstruction ·)) ∨
      ((∃ m ∈ older, isUser m = true) ∧
        ((a :: between ++ b :: newer).filter (!isInstruction ·)).length ≤ (current.filter (!isInstruction ·)).length) := by
  have hfilter := filter_separate h
  rcases separateCurrentRequest_cases h with ⟨-, rfl, rfl⟩ | ⟨front, user, body, trailing, hcut, rfl, rfl, hlast, htrailing⟩
  · exact .inl ⟨newer, hpayload, by simp⟩
  have hnone : trailing.filter (!isInstruction ·) = [] :=
    filter_eq_nil_iff.mpr fun m hm => by simp [htrailing m hm]
  have houtside : user ∉ a :: between ++ [b] := by
    intro hmem
    rw [mem_append, mem_cons, mem_singleton] at hmem
    rcases hmem with (rfl | hmem) | rfl
    · simp [ha] at hlast
    · simp [huser user hmem] at hlast
    · simp [hb] at hlast
  have hsame : older ++ (a :: between ++ [b]) ++ newer = front ++ (user :: body ++ trailing) := by
    rw [← hcut, hpayload]
    simp
  -- the last user message comes behind the pair or before it
  have hbehind : ∀ x, front = older ++ (a :: between ++ [b]) ++ x → newer = x ++ (user :: body ++ trailing) →
      ∃ newer', front ++ trailing = older ++ a :: between ++ b :: newer' ∧
        newer.filter (!isInstruction ·) = newer'.filter (!isInstruction ·) ++ (user :: body).filter (!isInstruction ·) := by
    rintro x rfl rfl
    exact ⟨x ++ trailing, by simp, by rw [filter_append, filter_append, filter_append, hnone]; simp⟩
  rcases append_eq_append_iff.mp hsame with ⟨x, hfront, hnewer⟩ | ⟨x, hpair, hrest⟩
  · exact .inl (hbehind x hfront hnewer)
  cases x with
  | nil => exact .inl (hbehind [] (by simpa using hpair.symm) (by simpa using hrest.symm))
  | cons first x =>
    obtain ⟨rfl, -⟩ := List.cons.inj hrest
    obtain ⟨y, rfl⟩ : ∃ y, older = front ++ user :: y := by
      rcases append_eq_append_iff.mp hpair with ⟨y, -, hy⟩ | ⟨y, hy, hy'⟩
      · exact absurd (hy ▸ by simp) houtside
      · cases y with
        | nil => exact absurd (hy' ▸ by simp) houtside
        | cons first' y =>
          obtain ⟨rfl, -⟩ := List.cons.inj hy'
          exact ⟨y, hy⟩
    refine .inr ⟨⟨user, by simp, hlast⟩, ?_⟩
    have hlength := congrArg List.length hfilter
    rw [hpayload, append_assoc] at hlength
    simp only [filter_append, hnone, length_append, length_nil] at hlength ⊢
    omega

variable {conversation : List Message} {groups : List (List Message)}

theorem conversation_suffix (h : separateCurrentRequest payload = .ok (history, current))
    (hgroups : groups <:+ interactions history)
    (hconversation : conversation.filter (!isInstruction ·) = groups.flatten ++ current.filter (!isInstruction ·)) :
    conversation.filter (!isInstruction ·) <:+ payload.filter (!isInstruction ·) := by
  obtain ⟨before, hbefore⟩ := hgroups
  refine ⟨before.flatten, ?_⟩
  rw [hconversation, filter_separate h, ← flatten_interactions history, ← hbefore, flatten_append, append_assoc]

theorem forwarded_pair (hpayload : payload = older ++ a :: between ++ b :: newer) (ha : isInstruction a = false)
    (hb : isInstruction b = false)
    (hsuffix : conversation.filter (!isInstruction ·) <:+ payload.filter (!isInstruction ·)) :
    (Forwarded payload conversation older ↔
        (between.filter (!isInstruction ·)).length + (newer.filter (!isInstruction ·)).length + 2
          ≤ (conversation.filter (!isInstruction ·)).length) ∧
      (Forwarded payload conversation (older ++ a :: between) ↔
        (newer.filter (!isInstruction ·)).length + 1 ≤ (conversation.filter (!isInstruction ·)).length) := by
  have hcall : payload = older ++ (a :: between ++ b :: newer) := by rw [hpayload, append_assoc]
  have hresult : ((b :: newer).filter (!isInstruction ·)).length = (newer.filter (!isInstruction ·)).length + 1 := by
    simp [hb]
  have hboth : ((a :: between ++ b :: newer).filter (!isInstruction ·)).length
      = (between.filter (!isInstruction ·)).length + (newer.filter (!isInstruction ·)).length + 2 := by
    simp [filter_append, ha, hb]
    omega
  constructor
  · rw [← hboth]
    rw [hcall] at hsuffix ⊢
    exact forwarded_iff hsuffix
  · rw [← hresult]
    rw [hpayload] at hsuffix ⊢
    exact forwarded_iff hsuffix

/-- One group holds both messages, or the request does: they are forwarded together or not at all. -/
theorem forwarded_together (h : separateCurrentRequest payload = .ok (history, current))
    (hpayload : payload = older ++ a :: between ++ b :: newer) (ha : isInstruction a = false)
    (hb : isInstruction b = false) (hua : isUser a = false) (hub : isUser b = false)
    (huser : ∀ m ∈ between, isUser m = false)
    (hjoined : (∃ m ∈ older, isUser m = true) ∨ ∀ m ∈ between, isInstruction m = false)
    (hgroups : groups <:+ interactions history)
    (hconversation : conversation.filter (!isInstruction ·) = groups.flatten ++ current.filter (!isInstruction ·)) :
    Forwarded payload conversation older ↔ Forwarded payload conversation (older ++ a :: between) := by
  obtain ⟨hcall, hresult⟩ := forwarded_pair hpayload ha hb (conversation_suffix h hgroups hconversation)
  rw [hcall, hresult]
  have hlength := congrArg List.length hconversation
  rw [length_append] at hlength
  rcases pair_cases h hpayload hua hub huser with ⟨newer', rfl, hnewer⟩ | ⟨-, hrequest⟩
  · obtain ⟨before, front, back, behind, hcut, hbehind⟩ := interactions_together ha hb hua hub huser hjoined
    rw [hcut] at hgroups
    have hnocut := not_cut_of_together hgroups
    have hnewer := congrArg List.length hnewer
    rw [hbehind] at hnocut
    simp only [length_append, length_cons] at hnocut hnewer
    omega
  · simp only [cons_append, filter_cons, filter_append, ha, hb, Bool.not_false, if_true, length_cons,
      length_append] at hrequest
    omega

end Payload

/-! ### A budget that separates them -/

section Apart

variable {rt : Runtime} {history : List Message} {units : List InteractionUnit}

theorem messageOverhead_le_tokensOf {message : Message} (h : Readable rt message) : 4 ≤ tokensOf rt message := by
  obtain ⟨n, hn⟩ := h
  obtain ⟨-, rfl⟩ := messageTokens_eq_ok.mp hn
  obtain ⟨calls, -, hn⟩ := bind_eq_ok.mp hn
  obtain ⟨callTokens, -, hn⟩ := bind_eq_ok.mp hn
  obtain ⟨idTokens, -, hn⟩ := bind_eq_ok.mp hn
  obtain ⟨nameTokens, -, hn⟩ := bind_eq_ok.mp hn
  have := Except.ok.inj hn
  simp only [messageOverheadTokens] at this
  omega

theorem flatMap_eq_nil_of_totalCost {kept : List InteractionUnit}
    (hcounted : ∀ unit ∈ kept, messagesTokens rt unit.messages = .ok unit.tokens)
    (h : totalCost InteractionUnit.tokens kept = 0) : kept.flatMap (·.messages) = [] := by
  rw [flatMap_eq_nil_iff]
  intro unit hunit
  obtain ⟨hreadable, htokens⟩ := messagesTokens_eq_ok.mp (hcounted unit hunit)
  have hunit : unit.tokens ≤ 0 := h ▸ le_sum_of_mem (mem_map_of_mem hunit)
  by_contra hmessages
  obtain ⟨m, hm⟩ := exists_mem_of_ne_nil _ hmessages
  have hcost : tokensOf rt m ≤ unit.tokens := htokens ▸ le_sum_of_mem (mem_map_of_mem hm)
  have := messageOverhead_le_tokensOf (hreadable m hm)
  omega

theorem flatMap_window_of_cost {early late kept : List InteractionUnit}
    (hcounted : ∀ unit ∈ early, messagesTokens rt unit.messages = .ok unit.tokens)
    (h : LongestFitting InteractionUnit.tokens (totalCost InteractionUnit.tokens late) (early ++ late) kept) :
    kept.flatMap (·.messages) = late.flatMap (·.messages) := by
  obtain ⟨extra, rfl⟩ := h.longest late (suffix_append _ _) le_rfl
  have hfits := h.fits
  rw [totalCost_append] at hfits
  obtain ⟨before, hbefore⟩ := h.suffix
  rw [← append_assoc] at hbefore
  obtain rfl := append_cancel_right hbefore
  rw [flatMap_append, flatMap_eq_nil_of_totalCost (fun unit hunit => hcounted unit (by simp [hunit])) (by omega),
    nil_append]

/-- Before the conversation has started, an instruction between the two cuts the units: what is behind the cut holds the result and not the call. -/
theorem exists_cut {older between newer : List Message} {a b : Message}
    (hunits : segmentMessages rt (older ++ a :: between ++ b :: newer) = .ok units)
    (ha : isInstruction a = false) (hb : isInstruction b = false) (hua : isUser a = false)
    (huser : ∀ m ∈ between, isUser m = false) (holder : ∀ m ∈ older, isUser m = false)
    (hbetween : ∃ m ∈ between, isInstruction m = true) :
    ∃ early late, units.filter (!·.isSystem) = early ++ late ∧ 0 < totalCost InteractionUnit.tokens late ∧
      (newer.filter (!isInstruction ·)).length < (late.flatMap (·.messages)).length ∧
      (late.flatMap (·.messages)).length
        ≤ ((between ++ b :: newer).filter (!isInstruction ·)).length := by
  obtain ⟨before, behind, front, back, hcut, rfl, hbehind⟩ := interactions_apart holder ha hua huser hbetween
  obtain ⟨early, late, hsplit, -, hlate⟩ := map_eq_append_iff.mp ((segmentMessages_interactions hunits).trans hcut)
  have hmessages : late.flatMap (·.messages) = (back ++ b :: newer).filter (!isInstruction ·) := by
    rw [flatMap_def, hlate, hbehind]
  have hcounted : ∀ unit ∈ late, messagesTokens rt unit.messages = .ok unit.tokens := fun unit hunit =>
    (segmentMessages_spec hunits).2.2.1 unit (mem_filter.mp (hsplit ▸ mem_append_right early hunit)).1
  refine ⟨early, late, hsplit, Nat.pos_of_ne_zero fun hzero => ?_, ?_, ?_⟩
  · have hnil := hmessages.symm.trans (flatMap_eq_nil_of_totalCost hcounted hzero)
    simp [filter_append, hb] at hnil
  · rw [hmessages]
    simp [filter_append, hb]
    omega
  · rw [hmessages]
    simp [filter_append, hb]

end Apart

/-! ### The two planners -/

section Planners

variable {F : Type} {rt : Runtime} {history current : List Message} {units kept : List InteractionUnit}

variable {window : List InteractionUnit}

theorem groups_suffix (hunits : segmentMessages rt history = .ok units) (h : window <:+ units.filter (!·.isSystem)) :
    window.map (·.messages) <:+ interactions history :=
  segmentMessages_interactions hunits ▸ h.map _

theorem filter_flatMap_kept (hunits : segmentMessages rt history = .ok units)
    (hinstructions : kept.filter (·.isSystem) = units.filter (·.isSystem))
    (hsuffix : kept.filter (!·.isSystem) <:+ units.filter (!·.isSystem)) :
    (kept.flatMap (·.messages)).filter (!isInstruction ·) = (kept.filter (!·.isSystem)).flatMap (·.messages) := by
  apply filter_flatMap_of_forall
  intro unit hunit m hm
  rw [isInstruction_of_mem_unit hunits (mem_units_of_kept hinstructions hsuffix hunit) hm]

variable {payload older between newer : List Message} {a b : Message}

/-- Some budget separates two messages that are not in one group, whoever plans with it. -/
theorem exists_separating_budget (h : separateCurrentRequest payload = .ok (history, current))
    (hpayload : payload = older ++ a :: between ++ b :: newer) (ha : isInstruction a = false)
    (hb : isInstruction b = false) (hua : isUser a = false) (hub : isUser b = false)
    (huser : ∀ m ∈ between, isUser m = false) (holder : ∀ m ∈ older, isUser m = false)
    (hbetween : ∃ m ∈ between, isInstruction m = true) (hunits : segmentMessages rt history = .ok units) :
    ∃ budget, 0 < budget ∧ ∀ window conversation,
      LongestFitting InteractionUnit.tokens budget (units.filter (!·.isSystem)) window →
      conversation.filter (!isInstruction ·) = window.flatMap (·.messages) ++ current.filter (!isInstruction ·) →
      ¬(Forwarded payload conversation older ↔ Forwarded payload conversation (older ++ a :: between)) := by
  rcases pair_cases h hpayload hua hub huser with ⟨newer', rfl, hnewer⟩ | ⟨⟨m, hm, huser⟩, -⟩
  · obtain ⟨early, late, hcut, hpos, hmore, hless⟩ := exists_cut hunits ha hb hua huser holder hbetween
    refine ⟨totalCost InteractionUnit.tokens late, hpos, fun window conversation hlongest hconversation => ?_⟩
    have hsuffix := conversation_suffix h (groups_suffix hunits hlongest.suffix)
      (hconversation.trans (by rw [flatMap_def]))
    obtain ⟨hcall, hresult⟩ := forwarded_pair hpayload ha hb hsuffix
    rw [hcut] at hlongest
    have hcounted : ∀ unit ∈ early, messagesTokens rt unit.messages = .ok unit.tokens := fun unit hunit =>
      (segmentMessages_spec hunits).2.2.1 unit (mem_filter.mp (hcut ▸ mem_append_left late hunit)).1
    rw [flatMap_window_of_cost hcounted hlongest] at hconversation
    rw [hcall, hresult, hconversation, hnewer]
    simp only [filter_append, filter_cons, hb, Bool.not_false, if_true, length_append,
      length_cons] at hmore hless ⊢
    omega
  · exact absurd huser (by simp [holder m hm])

theorem Assembled.conversation [Score F] {engine : ContextAssemblyEngine F} {input : BuildInput F} {plan : ContextPlan F}
    {blocks : List (RetrievedItem F)} (h : Assembled engine rt input plan units window blocks) :
    (window.flatMap (·.messages) ++ input.currentRequest).filter (!isInstruction ·)
      = window.flatMap (·.messages) ++ input.currentRequest.filter (!isInstruction ·) := by
  rw [filter_append]
  congr 1
  apply filter_eq_self.mpr
  intro m hm
  exact (mem_filter.mp (h.suffix.subset hm)).2

theorem Windowed.conversation {plan : WindowPlan} {tools : List Json} {usable reserved : ℕ}
    (h : Windowed rt history current tools usable reserved plan units kept) : plan.messages.filter (!isInstruction ·)
      = (kept.filter (!·.isSystem)).flatMap (·.messages) ++ current.filter (!isInstruction ·) := by
  rw [h.messages, filter_append, filter_flatMap_kept h.segmented h.instructions h.longest.suffix]

section Pair

variable (hpayload : payload = older ++ a :: between ++ b :: newer) (ha : isInstruction a = false)
  (hb : isInstruction b = false) (hua : isUser a = false) (hub : isUser b = false)
  (huser : ∀ m ∈ between, isUser m = false)

include hpayload ha hb hua hub huser

theorem build_together_iff [Score F] (engine : ContextAssemblyEngine F) {input : BuildInput F}
    (hsplit : separateCurrentRequest payload = .ok (input.history, input.currentRequest)) :
    (∀ usable (h : 0 < usable) plan,
        ContextAssemblyEngine.build { engine with usable, usable_pos := h } rt input = .ok plan →
        ∃ units window blocks,
          Assembled { engine with usable, usable_pos := h } rt input plan units window blocks ∧
          (Forwarded payload (window.flatMap (·.messages) ++ input.currentRequest) older ↔
            Forwarded payload (window.flatMap (·.messages) ++ input.currentRequest) (older ++ a :: between))) ↔
      ¬input.Readable rt ∨ (∃ m ∈ older, isUser m = true) ∨ ∀ m ∈ between, isInstruction m = false := by
  constructor
  · intro htogether
    by_contra hcontra
    obtain ⟨hreadable, hcontra⟩ := not_or.mp hcontra
    obtain ⟨holder, hbetween⟩ := not_or.mp hcontra
    have hreadable := Classical.not_not.mp hreadable
    obtain ⟨units, hunits⟩ := exists_segmentMessages.mpr hreadable.history
    obtain ⟨budget, hpos, hapart⟩ := exists_separating_budget hsplit hpayload ha hb hua hub huser
      (by simpa using holder) (by simpa using hbetween) hunits
    let wide : ContextAssemblyEngine F :=
      { engine with usable := input.requiredTokens rt + budget, usable_pos := by omega }
    have hfits : input.requiredTokens rt ≤ wide.usable := Nat.le_add_right _ _
    obtain ⟨plan, -, -, -, hbuild, -⟩ := build_of_fits hreadable hfits
    obtain ⟨units', window, blocks, hassembled, hiff⟩ := htogether _ _ _ hbuild
    obtain rfl := Except.ok.inj (hunits.symm.trans hassembled.segmented)
    have hlongest := hassembled.longest
    rw [show wide.usable - input.requiredTokens rt = budget from Nat.add_sub_cancel_left _ _] at hlongest
    exact hapart window _ hlongest hassembled.conversation hiff
  · rintro (hunreadable | hjoined) usable hpos plan hplan
    · exact absurd (assembled_of_build hplan).1 hunreadable
    · obtain ⟨-, -, units, window, blocks, hassembled⟩ := assembled_of_build hplan
      refine ⟨units, window, blocks, hassembled, ?_⟩
      apply forwarded_together hsplit hpayload ha hb hua hub huser hjoined
        (groups_suffix hassembled.segmented hassembled.longest.suffix)
      rw [hassembled.conversation, flatMap_def]

theorem planContext_together_iff {tools : List Json} {reserved : ℕ}
    (hsplit : separateCurrentRequest payload = .ok (history, current)) :
    (∀ usable plan, planContext rt history current tools usable reserved = .ok plan →
        (Forwarded payload plan.messages older ↔ Forwarded payload plan.messages (older ++ a :: between))) ↔
      ¬Plannable rt history current ∨ (∃ m ∈ older, isUser m = true) ∨ ∀ m ∈ between, isInstruction m = false := by
  constructor
  · intro htogether
    by_contra hcontra
    obtain ⟨hplannable, hcontra⟩ := not_or.mp hcontra
    obtain ⟨holder, hbetween⟩ := not_or.mp hcontra
    have hplannable := Classical.not_not.mp hplannable
    obtain ⟨units, hunits⟩ := exists_segmentMessages.mpr hplannable.1
    obtain ⟨budget, -, hapart⟩ := exists_separating_budget hsplit hpayload ha hb hua hub huser
      (by simpa using holder) (by simpa using hbetween) hunits
    obtain ⟨plan, units', kept, hplan, hwindowed⟩ :=
      (planContext_of_plannable hplannable tools (windowRequired rt history current tools reserved + budget) reserved).2
        (Nat.le_add_right _ _)
    obtain rfl := Except.ok.inj (hunits.symm.trans hwindowed.segmented)
    have hlongest := hwindowed.longest
    rw [Nat.add_sub_cancel_left] at hlongest
    exact hapart _ _ hlongest hwindowed.conversation (htogether _ _ hplan)
  · rintro (hunplannable | hjoined) usable plan hplan
    · exact absurd (planContext_eq_ok hplan).1 hunplannable
    · obtain ⟨-, -, units, kept, hwindowed⟩ := planContext_eq_ok hplan
      apply forwarded_together hsplit hpayload ha hb hua hub huser hjoined
        (groups_suffix hwindowed.segmented hwindowed.longest.suffix)
      rw [hwindowed.conversation, flatMap_def]

end Pair

/-- A tool result and its call are forwarded together under every budget exactly when the conversation has started before the call, or no instruction comes between the two. -/
theorem pair_forwarded_together_iff [Score F] (engine : ContextAssemblyEngine F) {input : BuildInput F} (reserved : ℕ)
    (hsplit : separateCurrentRequest payload = .ok (input.history, input.currentRequest))
    (hpayload : payload = older ++ a :: between ++ b :: newer) (hcall : get a "role" = .str "assistant")
    (hresult : get b "role" = .str "tool") (huser : ∀ m ∈ between, isUser m = false) : ((∀ usable (h : 0 < usable) plan,
        ContextAssemblyEngine.build { engine with usable, usable_pos := h } rt input = .ok plan →
        ∃ units window blocks,
          Assembled { engine with usable, usable_pos := h } rt input plan units window blocks ∧
          (Forwarded payload (window.flatMap (·.messages) ++ input.currentRequest) older ↔
            Forwarded payload (window.flatMap (·.messages) ++ input.currentRequest) (older ++ a :: between))) ↔
      ¬input.Readable rt ∨ (∃ m ∈ older, isUser m = true) ∨ ∀ m ∈ between, isInstruction m = false) ∧
    ((∀ usable plan, planContext rt input.history input.currentRequest input.tools usable reserved = .ok plan →
        (Forwarded payload plan.messages older ↔ Forwarded payload plan.messages (older ++ a :: between))) ↔
      ¬Plannable rt input.history input.currentRequest ∨ (∃ m ∈ older, isUser m = true) ∨
        ∀ m ∈ between, isInstruction m = false) := by
  have ha : isInstruction a = false := by simp [isInstruction, hcall]
  have hb : isInstruction b = false := by simp [isInstruction, hresult]
  have hua : isUser a = false := by rw [isUser, hcall]; rfl
  have hub : isUser b = false := by rw [isUser, hresult]; rfl
  exact ⟨build_together_iff hpayload ha hb hua hub huser engine hsplit,
    planContext_together_iff hpayload ha hb hua hub huser hsplit⟩

end Planners

/-! ### A call before the first user message -/

def lookupCall : Message :=
  [("role", .str "assistant"), ("content", .null),
    ("tool_calls", .arr [.obj [("id", .str "c1"), ("type", .str "function"),
      ("function", .obj [("name", .str "lookup"), ("arguments", .str "[]")])]])]

def lookupResult : Message :=
  [("role", .str "tool"), ("tool_call_id", .str "c1"), ("content", .str "42")]

def answeredCall : BuildInput ℚ where
  history := [lookupCall, lookupResult]
  currentRequest := [textMessage "user" "Hello."]

def interruptedCall : BuildInput ℚ where
  history := [lookupCall, textMessage "system" "Be brief.", lookupResult]
  currentRequest := [textMessage "user" "Hello."]

/-- Both planners drop the call and forward its result. -/
theorem interrupted_pair_separated : separateCurrentRequest
        [lookupCall, textMessage "system" "Be brief.", lookupResult, textMessage "user" "Hello."]
      = .ok (interruptedCall.history, interruptedCall.currentRequest) ∧
    ((plainEngine 24 (by decide)).build plainRuntime interruptedCall).map (·.messages)
      = .ok [textMessage "system" "Be brief.", lookupResult, textMessage "user" "Hello."] ∧
    (planContext plainRuntime interruptedCall.history interruptedCall.currentRequest [] 24 0).map (·.messages)
      = .ok [textMessage "system" "Be brief.", lookupResult, textMessage "user" "Hello."] :=
  ⟨rfl, rfl, rfl⟩

/-- A call that is answered at once is never separated from its result. -/
theorem pair_forwarded_together_answered : separateCurrentRequest (answeredCall.history ++ answeredCall.currentRequest)
        = .ok (answeredCall.history, answeredCall.currentRequest) ∧
      ∀ usable plan, planContext plainRuntime answeredCall.history answeredCall.currentRequest [] usable 0 = .ok plan →
        (Forwarded (answeredCall.history ++ answeredCall.currentRequest) plan.messages [] ↔
          Forwarded (answeredCall.history ++ answeredCall.currentRequest) plan.messages [lookupCall]) := by
  have hsplit : separateCurrentRequest (answeredCall.history ++ answeredCall.currentRequest)
      = .ok (answeredCall.history, answeredCall.currentRequest) := rfl
  refine ⟨hsplit, ?_⟩
  have hpayload : answeredCall.history ++ answeredCall.currentRequest
      = [] ++ lookupCall :: [] ++ lookupResult :: [textMessage "user" "Hello."] := rfl
  exact (pair_forwarded_together_iff (plainEngine 24 (by decide)) 0 hsplit hpayload rfl rfl
    (forall_mem_nil _)).2.mpr (.inr (.inr (forall_mem_nil _)))

end ContextProxy
