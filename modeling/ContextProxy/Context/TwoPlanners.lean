import ContextProxy.Context.Fallback
import ContextProxy.Context.Plan

/-!
# The planner and the engine on the same request

Without retrieved or pinned content the planner drops the oldest units until the rest fits, and the engine takes the newest ones as long as they fit. Both end with the longest suffix that fits, and differ in that the engine moves the instructions to the front. Only the engine fingerprints messages, so it raises on an image that cannot be hashed where the planner still plans.
-/

namespace ContextProxy

open Json List

theorem LongestFitting.unique {α : Type} {cost : α → ℕ} {budget : ℕ} {items kept kept' : List α}
    (h : LongestFitting cost budget items kept) (h' : LongestFitting cost budget items kept') : kept = kept' := by
  have hle := (h'.longest kept h.suffix h.fits).sublist
  have hge := (h.longest kept' h'.suffix h'.fits).sublist
  exact hle.eq_of_length (Nat.le_antisymm hle.length_le hge.length_le)

/-! ### What the planner counts -/

theorem dropOldest_sublist (available total : ℕ) (units : List InteractionUnit) :
    (dropOldest available total units).Sublist units := by
  induction units generalizing total with
  | nil => exact List.Sublist.slnil
  | cons unit units ih =>
    rw [dropOldest]
    split
    · exact List.Sublist.refl _
    · split
      · exact (ih total).cons_cons unit
      · exact (ih (total - unit.tokens)).cons unit

theorem planUnits_totals {tools usable reserved : ℕ} {current : Option InteractionUnit} {units : List InteractionUnit}
    {plan : WindowPlan} (h : planUnits tools usable reserved current units = .ok plan) :
    ∃ kept, kept.Sublist units ∧ plan.messages = (kept ++ current.toList).flatMap (·.messages) ∧
      plan.totalTokens = totalCost InteractionUnit.tokens (kept ++ current.toList) ∧ plan.toolsTokens = tools := by
  generalize hkept : (if totalCost InteractionUnit.tokens units
      > usable - tools - reserved - totalCost InteractionUnit.tokens current.toList then
    dropOldest (usable - tools - reserved - totalCost InteractionUnit.tokens current.toList)
      (totalCost InteractionUnit.tokens units) units else units) = kept
  have hsublist : kept.Sublist units := by
    rw [← hkept]
    split
    · exact dropOldest_sublist ..
    · exact List.Sublist.refl _
  simp only [planUnits, hkept] at h
  split at h
  · cases h
  · split at h
    · cases h
    · obtain rfl := Except.ok.inj h
      exact ⟨kept, hsublist, rfl, rfl, rfl⟩

section Planner

variable {rt : Runtime} {history currentRequest : List Message} {tools : List Json} {usable reserved : ℕ}

theorem counted_currentUnit {current : Option InteractionUnit} (h : currentUnit rt currentRequest = .ok current) :
    ∀ unit ∈ current.toList, unit.tokens = tokensOfAll rt unit.messages := by
  intro unit hunit
  obtain rfl := Option.mem_toList.mp hunit
  obtain ⟨-, hcost, hmessages⟩ := currentUnit_eq_ok h
  simp only [Option.toList_some, flatMap_singleton] at hmessages
  rw [hmessages, ← hcost]
  simp [totalCost]

theorem planContext_totals {plan : WindowPlan}
    (h : planContext rt history currentRequest tools usable reserved = .ok plan) :
    plan.totalTokens = tokensOfAll rt plan.messages ∧ plan.toolsTokens = toolsTokens rt tools := by
  obtain ⟨current, hcurrent, h⟩ := bind_eq_ok.mp h
  obtain ⟨units, hunits, h⟩ := bind_eq_ok.mp h
  rw [mapError_eq_ok] at hcurrent hunits
  obtain ⟨kept, hsublist, hmessages, htotal, htools⟩ := planUnits_totals h
  refine ⟨?_, htools⟩
  rw [htotal, hmessages, tokensOfAll_flatMap, totalCost]
  congr 1
  apply map_congr_left
  intro unit hunit
  rcases mem_append.mp hunit with hkept | hrequest
  · have hcounted := (segmentMessages_spec hunits).2.2.1 unit (hsublist.subset hkept)
    exact (messagesTokens_eq_ok.mp hcounted).2
  · exact counted_currentUnit hcurrent unit hrequest

theorem planContext_of_not_plannable (h : ¬Plannable rt history currentRequest) :
    ∃ error, planContext rt history currentRequest tools usable reserved = .error (.python error) := by
  rw [planContext]
  cases hcurrent : currentUnit rt currentRequest with
  | error error => exact ⟨error, rfl⟩
  | ok current =>
    cases hunits : segmentMessages rt history with
    | error error => exact ⟨error, rfl⟩
    | ok units => exact absurd ⟨exists_segmentMessages.mp ⟨units, hunits⟩, (currentUnit_eq_ok hcurrent).1⟩ h

end Planner

/-! ### The same guarantee -/

variable {F : Type} {rt : Runtime} {history currentRequest : List Message}

/-- Two plans for one request keep the same units of the history: all instructions, and a suffix of the rest. The engine puts the instructions first. -/
structure SameUnits (rt : Runtime) (history currentRequest : List Message) (window : WindowPlan) (plan : ContextPlan F)
    (units kept : List InteractionUnit) : Prop where
  segmented : segmentMessages rt history = .ok units
  instructions : kept.filter (·.isSystem) = units.filter (·.isSystem)
  suffix : kept.filter (!·.isSystem) <:+ units.filter (!·.isSystem)
  window_messages : window.messages = kept.flatMap (·.messages) ++ currentRequest
  plan_messages : plan.messages = (kept.filter (·.isSystem)).flatMap (·.messages)
    ++ (kept.filter (!·.isSystem)).flatMap (·.messages) ++ currentRequest

namespace SameUnits

variable {window : WindowPlan} {plan : ContextPlan F} {units kept : List InteractionUnit}

theorem perm (h : SameUnits rt history currentRequest window plan units kept) : window.messages.Perm plan.messages := by
  rw [h.window_messages, h.plan_messages, ← flatMap_append]
  exact ((filter_append_perm (·.isSystem) kept).symm.flatMap_right _).append_right _

theorem filter_eq (h : SameUnits rt history currentRequest window plan units kept) :
    ∃ fromWindow fromPlan, window.messages = fromWindow ++ currentRequest ∧ plan.messages = fromPlan ++ currentRequest ∧
      fromWindow.filter isInstruction = fromPlan.filter isInstruction ∧
      fromWindow.filter (!isInstruction ·) = fromPlan.filter (!isInstruction ·) := by
  have hsort : ∀ unit ∈ kept, ∀ m ∈ unit.messages, isInstruction m = unit.isSystem := fun unit hunit m hm =>
    isInstruction_of_mem_unit h.segmented (mem_units_of_kept h.instructions h.suffix hunit) hm
  have hothers : ∀ unit ∈ kept, ∀ m ∈ unit.messages, (!isInstruction m) = !unit.isSystem := fun unit hunit m hm =>
    congrArg (!·) (hsort unit hunit m hm)
  refine ⟨kept.flatMap (·.messages), _, h.window_messages, h.plan_messages, ?_, ?_⟩
  · rw [filter_append, ← filter_flatMap_of_forall hsort, ← filter_flatMap_of_forall hothers, filter_filter,
      filter_filter]
    simp
  · rw [filter_append, ← filter_flatMap_of_forall hsort, ← filter_flatMap_of_forall hothers, filter_filter,
      filter_filter]
    simp

end SameUnits

section Together

variable {tools : List Json} {superseded : List String} {conversationId : Option String}

/-- What the engine gets when there is neither retrieved nor pinned content. -/
def BuildInput.plain (history currentRequest : List Message) (tools : List Json) (superseded : List String)
    (conversationId : Option String) : BuildInput F :=
  { history, currentRequest, tools, supersededMemoryIds := superseded, conversationId }

theorem readable_plain_iff :
    (BuildInput.plain history currentRequest tools superseded conversationId : BuildInput F).Readable rt ↔
      Plannable rt history currentRequest ∧ ∀ m ∈ history ++ currentRequest, Fingerprintable rt m := by
  constructor
  · intro h
    exact ⟨⟨h.history, h.currentRequest⟩, by simpa [BuildInput.plain] using h.fingerprintable⟩
  · intro h
    exact ⟨h.1.1, h.1.2, forall_mem_nil _, by simpa [BuildInput.plain] using h.2, forall_mem_nil _⟩

theorem requiredTokens_plain :
    (BuildInput.plain history currentRequest tools superseded conversationId : BuildInput F).requiredTokens rt
      = windowRequired rt history currentRequest tools 0 := by
  simp only [BuildInput.requiredTokens, BuildInput.plain, windowRequired, tokensOfAll, map_nil, sum_nil]
  omega

variable [Score F] {engine : ContextAssemblyEngine F}

/-- The plan of the engine in terms of the units that the planner keeps. -/
theorem sameUnits_of_plans {window : WindowPlan} {plan : ContextPlan F}
    (hwindow : planContext rt history currentRequest tools engine.usable 0 = .ok window)
    (hplan : engine.build rt (.plain history currentRequest tools superseded conversationId) = .ok plan) :
    ∃ units kept, SameUnits rt history currentRequest window plan units kept := by
  obtain ⟨-, -, units, kept, windowed⟩ := planContext_eq_ok hwindow
  obtain ⟨-, -, units', recent, blocks, assembled⟩ := assembled_of_build hplan
  obtain rfl : units = units' := Except.ok.inj (windowed.segmented.symm.trans assembled.segmented)
  have hrecent : recent = kept.filter (!·.isSystem) := by
    have hlongest := assembled.longest
    rw [requiredTokens_plain] at hlongest
    exact hlongest.unique windowed.longest
  have hblocks : blocks = [] := eq_nil_iff_forall_not_mem.mpr fun item hitem =>
    not_mem_nil (assembled.blocks_retrieved item hitem)
  refine ⟨units, kept, windowed.segmented, windowed.instructions, windowed.longest.suffix, windowed.messages, ?_⟩
  rw [assembled.messages, hblocks, hrecent, windowed.instructions, (segmentMessages_spec windowed.segmented).1]
  simp [BuildInput.plain]

/-- Both cannot read the request, or both find that it does not fit, or both plan. -/
theorem planContext_build_cases (engine : ContextAssemblyEngine F) (tools : List Json) (superseded : List String)
    (conversationId : Option String)
    (h : Plannable rt history currentRequest → ∀ m ∈ history ++ currentRequest, Fingerprintable rt m) :
    (∃ error error', planContext rt history currentRequest tools engine.usable 0 = .error (.python error) ∧
        engine.build rt (.plain history currentRequest tools superseded conversationId) = .error (.python error')) ∨
      (∃ required budget, planContext rt history currentRequest tools engine.usable 0 = .error (.overflow required budget) ∧
        engine.build rt (.plain history currentRequest tools superseded conversationId)
          = .error (.overflow required budget)) ∨
      ∃ window plan, planContext rt history currentRequest tools engine.usable 0 = .ok window ∧
        engine.build rt (.plain history currentRequest tools superseded conversationId) = .ok plan := by
  have hcost : (BuildInput.plain history currentRequest tools superseded conversationId : BuildInput F).requiredTokens rt
      = windowRequired rt history currentRequest tools 0 := requiredTokens_plain
  by_cases hplannable : Plannable rt history currentRequest
  · have hreadable : (BuildInput.plain history currentRequest tools superseded conversationId : BuildInput F).Readable rt :=
      readable_plain_iff.mpr ⟨hplannable, h hplannable⟩
    obtain ⟨hoverflow, hfits⟩ := planContext_of_plannable hplannable tools engine.usable 0
    rcases Nat.lt_or_ge engine.usable (windowRequired rt history currentRequest tools 0) with hover | hle
    · refine .inr (.inl ⟨_, _, hoverflow hover, ?_⟩)
      rw [← hcost] at hover ⊢
      exact build_of_overflow hreadable hover
    · obtain ⟨window, -, -, hwindow, -⟩ := hfits hle
      obtain ⟨plan, -, -, -, hplan, -⟩ := build_of_fits hreadable (hcost.trans_le hle)
      exact .inr (.inr ⟨window, plan, hwindow, hplan⟩)
  · obtain ⟨error, herror⟩ := planContext_of_not_plannable hplannable
    obtain ⟨error', herror'⟩ := build_of_not_readable engine fun hreadable => hplannable (readable_plain_iff.mp hreadable).1
    exact .inl ⟨error, error', herror, herror'⟩

/-- The planner and the engine overflow together, with the same count, and otherwise they keep the same units and count the same tokens. -/
structure PlannersAgree (engine : ContextAssemblyEngine F) (rt : Runtime) (history currentRequest : List Message)
    (tools : List Json) (superseded : List String) (conversationId : Option String) : Prop where
  overflow : ∀ required budget,
    planContext rt history currentRequest tools engine.usable 0 = .error (.overflow required budget) ↔
      engine.build rt (.plain history currentRequest tools superseded conversationId) = .error (.overflow required budget)
  plans : (∃ window, planContext rt history currentRequest tools engine.usable 0 = .ok window) ↔
    ∃ plan, engine.build rt (.plain history currentRequest tools superseded conversationId) = .ok plan
  same : ∀ window plan, planContext rt history currentRequest tools engine.usable 0 = .ok window →
    engine.build rt (.plain history currentRequest tools superseded conversationId) = .ok plan →
    (∃ units kept, SameUnits rt history currentRequest window plan units kept) ∧
      window.messages.Perm plan.messages ∧
      (∃ fromWindow fromPlan, window.messages = fromWindow ++ currentRequest ∧
        plan.messages = fromPlan ++ currentRequest ∧
        fromWindow.filter isInstruction = fromPlan.filter isInstruction ∧
        fromWindow.filter (!isInstruction ·) = fromPlan.filter (!isInstruction ·)) ∧
      window.totalTokens + window.toolsTokens = plan.tokenEstimate

theorem plannersAgree_of_fingerprintable (engine : ContextAssemblyEngine F) (tools : List Json) (superseded : List String)
    (conversationId : Option String)
    (h : Plannable rt history currentRequest → ∀ m ∈ history ++ currentRequest, Fingerprintable rt m) :
    PlannersAgree engine rt history currentRequest tools superseded conversationId := by
  refine ⟨?_, ?_, ?_⟩
  · intro required budget
    rcases planContext_build_cases engine tools superseded conversationId h with
      ⟨error, error', hwindow, hplan⟩ | ⟨required', budget', hwindow, hplan⟩ | ⟨window, plan, hwindow, hplan⟩
    · simp [hwindow, hplan]
    · simp [hwindow, hplan]
    · simp [hwindow, hplan]
  · rcases planContext_build_cases engine tools superseded conversationId h with
      ⟨error, error', hwindow, hplan⟩ | ⟨required', budget', hwindow, hplan⟩ | ⟨window, plan, hwindow, hplan⟩
    · simp [hwindow, hplan]
    · simp [hwindow, hplan]
    · exact iff_of_true ⟨window, hwindow⟩ ⟨plan, hplan⟩
  · intro window plan hwindow hplan
    obtain ⟨units, kept, hsame⟩ := sameUnits_of_plans hwindow hplan
    refine ⟨⟨units, kept, hsame⟩, hsame.perm, hsame.filter_eq, ?_⟩
    obtain ⟨htotal, htools⟩ := planContext_totals hwindow
    obtain ⟨-, -, _, _, _, assembled⟩ := assembled_of_build hplan
    obtain ⟨n, hn, hestimate⟩ := assembled.estimate
    have hcount : tokensOfAll rt window.messages = tokensOfAll rt plan.messages := (hsame.perm.map _).sum_eq
    rw [hestimate, (messagesTokens_eq_ok.mp hn).2, htotal, htools, hcount]
    rfl

/-- The planner and the engine agree unless the messages can be counted and something in them cannot be hashed. -/
theorem planContext_build_agree_iff (engine : ContextAssemblyEngine F) (rt : Runtime)
    (history currentRequest : List Message) (tools : List Json) (superseded : List String) (conversationId : Option String) :
    PlannersAgree engine rt history currentRequest tools superseded conversationId ↔
      (Plannable rt history currentRequest → ∀ m ∈ history ++ currentRequest, Fingerprintable rt m) := by
  constructor
  · intro hagree hplannable
    by_contra hhashed
    -- the planner counts the messages and comes to a decision; the engine raises before it
    obtain ⟨error, herror⟩ := build_of_not_readable engine fun hreadable :
      (BuildInput.plain history currentRequest tools superseded conversationId : BuildInput F).Readable rt =>
        hhashed (readable_plain_iff.mp hreadable).2
    obtain ⟨hoverflow, hfits⟩ := planContext_of_plannable hplannable tools engine.usable 0
    rcases Nat.lt_or_ge engine.usable (windowRequired rt history currentRequest tools 0) with hover | hle
    · have hbuild := (hagree.overflow _ _).mp (hoverflow hover)
      exact absurd (herror.symm.trans hbuild) (by simp)
    · obtain ⟨window, -, -, hwindow, -⟩ := hfits hle
      obtain ⟨plan, hplan⟩ := hagree.plans.mp ⟨window, hwindow⟩
      exact absurd (herror.symm.trans hplan) (by simp)
  · exact plannersAgree_of_fingerprintable engine tools superseded conversationId

end Together

/-- A request with an image whose URL cannot be encoded: the planner plans it, and the engine raises. -/
theorem unencodable_image_planned :
    (planContext surrogateRuntime [] [surrogateImage] [] 2000 0).map (·.messages) = .ok [surrogateImage] ∧
      ((plainEngine 2000 (by decide)).build surrogateRuntime (.plain [] [surrogateImage] [] [] none)).map (·.messages)
        = .error (.python .unicodeEncodeError) :=
  ⟨rfl, rfl⟩

end ContextProxy
