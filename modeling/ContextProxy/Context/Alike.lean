import ContextProxy.Context.TwoPlanners
import ContextProxy.Lib.Align

/-!
# Planning sees roles and costs

Messages are grouped by their roles and weighed by their token counts, and nothing else decides what is kept: if two payloads have the same roles and costs, position by position, and can be fingerprinted alike, `plan_context` and `build` overflow together and keep the same units. Only the retrieved blocks that `build` drops as duplicates can differ.
-/

namespace ContextProxy

open Json List

/-- A relation between messages that budgeting cannot tell apart. -/
structure KeepsBudget (rt : Runtime) (R : Message → Message → Prop) : Prop where
  role : ∀ m m', R m m' → Json.get m' "role" = Json.get m "role"
  cost : ∀ m m', R m m' → messageTokens rt m' = messageTokens rt m
  fingerprintable : ∀ m m', R m m' → (Fingerprintable rt m ↔ Fingerprintable rt m')

/-- Two units of one kind and cost, with related messages. -/
structure SameUnit (R : Message → Message → Prop) (unit unit' : InteractionUnit) : Prop where
  kind : unit.kind = unit'.kind
  messages : List.Forall₂ R unit.messages unit'.messages
  tokens : unit.tokens = unit'.tokens

structure SameSegmentation (R : Message → Message → Prop) (st st' : Segmentation) : Prop where
  units : List.Forall₂ (SameUnit R) st.units st'.units
  prefill : List.Forall₂ R st.prefill st'.prefill
  turn : Option.Rel (List.Forall₂ R) st.turn st'.turn

structure SameWindow (R : Message → Message → Prop) (plan plan' : WindowPlan) : Prop where
  messages : List.Forall₂ R plan.messages plan'.messages
  totalTokens : plan.totalTokens = plan'.totalTokens
  toolsTokens : plan.toolsTokens = plan'.toolsTokens
  usableBudget : plan.usableBudget = plan'.usableBudget
  droppedUnits : plan.droppedUnits = plan'.droppedUnits
  droppedTokens : plan.droppedTokens = plan'.droppedTokens
  details : plan.details = plan'.details

variable {R S : Message → Message → Prop}

theorem SameUnit.imp (hRS : ∀ m m', R m m' → S m m') {unit unit' : InteractionUnit} (h : SameUnit R unit unit') :
    SameUnit S unit unit' := ⟨h.kind, h.messages.imp hRS, h.tokens⟩

theorem SameWindow.imp (hRS : ∀ m m', R m m' → S m m') {plan plan' : WindowPlan} (h : SameWindow R plan plan') :
    SameWindow S plan plan' :=
  ⟨h.messages.imp hRS, h.totalTokens, h.toolsTokens, h.usableBudget, h.droppedUnits, h.droppedTokens, h.details⟩

section Counting

variable {rt : Runtime} {R : Message → Message → Prop} (h : KeepsBudget rt R) {m m' : Message} {messages messages' : List Message}

theorem forall₂_concat {α β : Type} {r : α → β → Prop} {as : List α} {bs : List β} (h : List.Forall₂ r as bs) {a : α} {b : β}
    (hab : r a b) : List.Forall₂ r (as ++ [a]) (bs ++ [b]) := rel_append h (.cons hab .nil)

include h

theorem KeepsBudget.isInstruction_eq (hm : R m m') : isInstruction m = isInstruction m' := by
  rw [isInstruction, isInstruction, h.role m m' hm]

theorem KeepsBudget.readable_iff (hm : R m m') : Readable rt m ↔ Readable rt m' := by
  rw [Readable, Readable, h.cost m m' hm]

theorem KeepsBudget.segmentable_iff (hm : R m m') : Segmentable rt m ↔ Segmentable rt m' := by
  rw [Segmentable, Segmentable, h.role m m' hm, h.readable_iff hm]

theorem KeepsBudget.messagesTokens_eq (hms : List.Forall₂ R messages messages') :
    messagesTokens rt messages = messagesTokens rt messages' :=
  sumM_congr_forall₂ (hms.imp fun m m' hm => (h.cost m m' hm).symm)

theorem KeepsBudget.tokensOfAll_eq (hms : List.Forall₂ R messages messages') :
    tokensOfAll rt messages = tokensOfAll rt messages' := by
  rw [tokensOfAll, tokensOfAll]
  congr 1
  induction hms with
  | nil => rfl
  | cons hm _ ih => rw [map_cons, map_cons, ih, tokensOf, tokensOf, h.cost _ _ hm]

theorem KeepsBudget.filter_instructions (hms : List.Forall₂ R messages messages') :
    List.Forall₂ R (messages.filter isInstruction) (messages'.filter isInstruction) :=
  rel_filter (fun _ _ hm => iff_of_eq (congrArg (· = true) (h.isInstruction_eq hm))) hms

omit h in
theorem forall_mem_iff_of_forall₂ {p : Message → Prop} (hp : ∀ m m', R m m' → (p m ↔ p m'))
    (hms : List.Forall₂ R messages messages') : (∀ m ∈ messages, p m) ↔ ∀ m ∈ messages', p m := by
  induction hms with
  | nil => simp
  | cons hm _ ih => rw [forall_mem_cons, forall_mem_cons, hp _ _ hm, ih]

end Counting

/-! ### Segmentation -/

section Segmentation

variable {rt : Runtime} {R : Message → Message → Prop} (h : KeepsBudget rt R) {st st' : Segmentation}
include h

theorem SameSegmentation.emit (hst : SameSegmentation R st st') (kind : UnitKind) {messages messages' : List Message}
    (hms : List.Forall₂ R messages messages') :
    SameOutcome (List.Forall₂ (SameUnit R)) (st.emit rt kind messages) (st'.emit rt kind messages') := by
  rw [Segmentation.emit, Segmentation.emit, h.messagesTokens_eq hms]
  cases messagesTokens rt messages' with
  | error e => exact .error e
  | ok tokens => exact .ok (forall₂_concat hst.units ⟨rfl, hms, rfl⟩)

theorem SameSegmentation.closeTurn (hst : SameSegmentation R st st') :
    SameOutcome (SameSegmentation R) (st.closeTurn rt) (st'.closeTurn rt) := by
  have hturn := hst.turn
  rw [Segmentation.closeTurn, Segmentation.closeTurn]
  generalize st.turn = turn at hturn
  generalize st'.turn = turn' at hturn
  cases hturn with
  | none => exact .ok hst
  | some hms =>
    cases hms with
    | nil => exact .ok hst
    | cons hm hms =>
      exact (hst.emit h .turn (.cons hm hms)).bind fun units units' hunits => .ok ⟨hunits, hst.prefill, .none⟩

theorem SameSegmentation.closePrefill (hst : SameSegmentation R st st') :
    SameOutcome (SameSegmentation R) (st.closePrefill rt) (st'.closePrefill rt) := by
  have hnil : st.prefill = [] ↔ st'.prefill = [] := by
    rw [← length_eq_zero_iff, ← length_eq_zero_iff, hst.prefill.length_eq]
  rw [Segmentation.closePrefill, Segmentation.closePrefill]
  by_cases hprefill : st.prefill = []
  · rw [if_pos hprefill, if_pos (hnil.mp hprefill)]
    exact .ok hst
  · rw [if_neg hprefill, if_neg (mt hnil.mpr hprefill)]
    exact (hst.emit h .prefill hst.prefill).bind fun units units' hunits => .ok ⟨hunits, .nil, hst.turn⟩

theorem SameSegmentation.step (hst : SameSegmentation R st st') {m m' : Message} (hm : R m m') :
    SameOutcome (SameSegmentation R) (segmentStep rt st m) (segmentStep rt st' m') := by
  rw [segmentStep, segmentStep, h.role m m' hm]
  cases instructionRole (Json.get m "role") with
  | error e => exact .error e
  | ok b =>
    show SameOutcome _ (if b = true then _ else _) (if b = true then _ else _)
    cases b with
    | true =>
      refine (hst.closePrefill h).bind fun st₁ st₁' hst₁ => ?_
      exact (hst₁.emit h .system (.cons hm .nil)).bind fun units units' hunits => .ok ⟨hunits, hst₁.prefill, hst₁.turn⟩
    | false =>
      simp only [Bool.false_eq_true, if_false]
      split
      · refine (hst.closeTurn h).bind fun st₁ st₁' hst₁ => ?_
        refine (hst₁.closePrefill h).bind fun st₂ st₂' hst₂ => ?_
        exact .ok ⟨hst₂.units, hst₂.prefill, .some (.cons hm .nil)⟩
      · have hturn := hst.turn
        generalize st.turn = turn at hturn
        generalize st'.turn = turn' at hturn
        cases hturn with
        | none => exact .ok ⟨hst.units, forall₂_concat hst.prefill hm, .none⟩
        | some hms => exact .ok ⟨hst.units, hst.prefill, .some (forall₂_concat hms hm)⟩

theorem KeepsBudget.segmentMessages {messages messages' : List Message} (hms : List.Forall₂ R messages messages') :
    SameOutcome (List.Forall₂ (SameUnit R)) (segmentMessages rt messages) (segmentMessages rt messages') := by
  have hinit : SameSegmentation R {} {} := ⟨.nil, .nil, .none⟩
  refine (SameOutcome.foldlM (fun _ _ _ _ hst hm => hst.step h hm) hms hinit).bind fun st st' hst => ?_
  refine (hst.closeTurn h).bind fun st₁ st₁' hst₁ => ?_
  exact (hst₁.closePrefill h).bind fun st₂ st₂' hst₂ => .ok hst₂.units

end Segmentation

/-! ### The current request -/

section Request

variable {rt : Runtime} {R : Message → Message → Prop} (h : KeepsBudget rt R) {messages messages' : List Message}
  (hms : List.Forall₂ R messages messages')
include h hms

theorem KeepsBudget.lastUserIndex_eq : lastUserIndex messages = lastUserIndex messages' := by
  rw [lastUserIndex, lastUserIndex, hms.length_eq]
  congr 1
  funext index
  rcases getElem?_alike hms index with ⟨hnone, hnone'⟩ | ⟨m, m', hm, hm', hr⟩
  · rw [hnone, hnone']
  · rw [hm, hm']
    exact congrArg (pyEq · _) (h.role m m' hr).symm

theorem KeepsBudget.requestEnd_eq (lastUser stop : ℕ) : requestEnd messages lastUser stop = requestEnd messages' lastUser stop := by
  induction stop with
  | zero => rfl
  | succ before ih =>
    have hrole : Json.get (messages[before]?.getD []) "role" = Json.get (messages'[before]?.getD []) "role" := by
      rcases getElem?_alike hms before with ⟨hnone, hnone'⟩ | ⟨m, m', hm, hm', hr⟩
      · rw [hnone, hnone']
      · rw [hm, hm']
        exact (h.role m m' hr).symm
    rw [requestEnd, requestEnd, hrole, ih]

theorem KeepsBudget.separateCurrentRequest :
    SameOutcome (fun parts parts' => List.Forall₂ R parts.1 parts'.1 ∧ List.Forall₂ R parts.2 parts'.2)
      (separateCurrentRequest messages) (separateCurrentRequest messages') := by
  rw [ContextProxy.separateCurrentRequest, ContextProxy.separateCurrentRequest, h.lastUserIndex_eq hms]
  cases lastUserIndex messages' with
  | none => exact .ok ⟨hms, .nil⟩
  | some lastUser =>
    show SameOutcome _ (requestEnd messages lastUser messages.length >>= _) (requestEnd messages' lastUser messages'.length >>= _)
    rw [h.requestEnd_eq hms, hms.length_eq]
    cases requestEnd messages' lastUser messages'.length with
    | error e => exact .error e
    | ok stop =>
      refine .ok ⟨rel_append (forall₂_take lastUser hms) (forall₂_drop stop hms), ?_⟩
      exact forall₂_drop lastUser (forall₂_take stop hms)

end Request

/-! ### The planner -/

section Planner

variable {rt : Runtime} {R : Message → Message → Prop} {units units' : List InteractionUnit}

theorem SameUnit.isSystem_eq {unit unit' : InteractionUnit} (h : SameUnit R unit unit') : unit.isSystem = unit'.isSystem := by
  rw [InteractionUnit.isSystem, InteractionUnit.isSystem, h.kind]

section

variable (hunits : List.Forall₂ (SameUnit R) units units')
include hunits

theorem filter_isSystem_alike : List.Forall₂ (SameUnit R) (units.filter (·.isSystem)) (units'.filter (·.isSystem)) :=
  rel_filter (fun _ _ hunit => iff_of_eq (congrArg (· = true) hunit.isSystem_eq)) hunits

theorem filter_not_isSystem_alike :
    List.Forall₂ (SameUnit R) (units.filter (!·.isSystem)) (units'.filter (!·.isSystem)) :=
  rel_filter (fun _ _ hunit => iff_of_eq (congrArg (fun b => (!b) = true) hunit.isSystem_eq)) hunits

theorem totalCost_alike : totalCost InteractionUnit.tokens units = totalCost InteractionUnit.tokens units' :=
  totalCost_of_forall₂ (fun _ _ hunit => hunit.tokens) hunits

theorem flatMap_messages_alike : List.Forall₂ R (units.flatMap (·.messages)) (units'.flatMap (·.messages)) :=
  rel_flatMap hunits fun _ _ hunit => hunit.messages

theorem dropOldest_alike (available total : ℕ) :
    List.Forall₂ (SameUnit R) (dropOldest available total units) (dropOldest available total units') := by
  induction hunits generalizing total with
  | nil => exact .nil
  | @cons unit unit' units units' hunit hunits ih =>
    rw [dropOldest, dropOldest, hunit.isSystem_eq, hunit.tokens]
    split
    · exact .cons hunit hunits
    · split
      · exact .cons hunit (ih total)
      · exact ih (total - unit'.tokens)

end

theorem planUnits_alike (tools usable reserved : ℕ) {current current' : Option InteractionUnit}
    (hcurrent : List.Forall₂ (SameUnit R) current.toList current'.toList) (hunits : List.Forall₂ (SameUnit R) units units') :
    SameOutcome (SameWindow R) (planUnits tools usable reserved current units) (planUnits tools usable reserved current' units') := by
  rw [planUnits, planUnits]
  simp only [totalCost_alike hcurrent, totalCost_alike (filter_isSystem_alike hunits), totalCost_alike hunits]
  split
  · exact .error _
  · generalize usable - tools - reserved - totalCost InteractionUnit.tokens current'.toList = available
    have hkept : List.Forall₂ (SameUnit R)
        (if totalCost InteractionUnit.tokens units' > available then
          dropOldest available (totalCost InteractionUnit.tokens units') units else units)
        (if totalCost InteractionUnit.tokens units' > available then
          dropOldest available (totalCost InteractionUnit.tokens units') units' else units') := by
      split
      · exact dropOldest_alike hunits _ _
      · exact hunits
    generalize (if totalCost InteractionUnit.tokens units' > available then
      dropOldest available (totalCost InteractionUnit.tokens units') units else units) = kept at hkept ⊢
    generalize (if totalCost InteractionUnit.tokens units' > available then
      dropOldest available (totalCost InteractionUnit.tokens units') units' else units') = kept' at hkept ⊢
    have hfinal := rel_append hkept hcurrent
    rw [totalCost_alike hfinal]
    split
    · exact .error _
    · refine .ok ⟨flatMap_messages_alike hfinal, rfl, rfl, rfl, ?_, rfl, ?_⟩
      · show units.length - (_ - current.toList.length) = units'.length - (_ - current'.toList.length)
        rw [hunits.length_eq, hfinal.length_eq, hcurrent.length_eq]
      · show PlanDetails.mk _ _ _ _ = PlanDetails.mk _ _ _ _
        rw [hunits.length_eq, hfinal.length_eq, totalCost_alike (filter_isSystem_alike hfinal)]

variable (h : KeepsBudget rt R) {history history' request request' : List Message}
include h

theorem KeepsBudget.currentUnit (hrequest : List.Forall₂ R request request') :
    SameOutcome (fun current current' => List.Forall₂ (SameUnit R) current.toList current'.toList)
      (currentUnit rt request) (currentUnit rt request') := by
  cases hrequest with
  | nil => exact .ok .nil
  | cons hm hms =>
    have htokens := h.messagesTokens_eq (.cons hm hms)
    rw [ContextProxy.currentUnit, ContextProxy.currentUnit, if_neg (cons_ne_nil _ _), if_neg (cons_ne_nil _ _), htokens]
    cases messagesTokens rt _ with
    | error e => exact .error e
    | ok tokens => exact .ok (.cons ⟨rfl, .cons hm hms, rfl⟩ .nil)

/-- `plan_context` raises the same on both sides, or keeps the same units. -/
theorem KeepsBudget.planContext (hhistory : List.Forall₂ R history history') (hrequest : List.Forall₂ R request request')
    (tools : List Json) (usable reserved : ℕ) :
    SameOutcome (SameWindow R) (planContext rt history request tools usable reserved)
      (planContext rt history' request' tools usable reserved) := by
  refine ((h.currentUnit hrequest).mapError _).bind fun current current' hcurrent => ?_
  refine ((h.segmentMessages hhistory).mapError _).bind fun units units' hunits => ?_
  exact planUnits_alike _ usable reserved hcurrent hunits

end Planner

/-! ### The engine -/

structure SameBuild {F : Type} [Score F] (engine : ContextAssemblyEngine F) (rt : Runtime) (R : Message → Message → Prop)
    (input input' : BuildInput F) : Prop where
  overflow_iff : ∀ required usable, engine.build rt input = .error (.overflow required usable) ↔
    engine.build rt input' = .error (.overflow required usable)
  plan_iff : (∃ plan, engine.build rt input = .ok plan) ↔ ∃ plan, engine.build rt input' = .ok plan
  units : ∀ plan plan', engine.build rt input = .ok plan → engine.build rt input' = .ok plan' →
    ∃ units window blocks units' window' blocks', Assembled engine rt input plan units window blocks
      ∧ Assembled engine rt input' plan' units' window' blocks'
      ∧ List.Forall₂ (SameUnit R) units units' ∧ List.Forall₂ (SameUnit R) window window'

theorem SameBuild.imp {F : Type} [Score F] {engine : ContextAssemblyEngine F} {rt : Runtime}
    (hRS : ∀ m m', R m m' → S m m') {input input' : BuildInput F} (h : SameBuild engine rt R input input') :
    SameBuild engine rt S input input' := by
  refine ⟨h.overflow_iff, h.plan_iff, ?_⟩
  intro plan plan' hplan hplan'
  obtain ⟨units, window, blocks, units', window', blocks', hassembled, hassembled', hunits, hwindow⟩ :=
    h.units plan plan' hplan hplan'
  exact ⟨units, window, blocks, units', window', blocks', hassembled, hassembled',
    hunits.imp fun _ _ => SameUnit.imp hRS, hwindow.imp fun _ _ => SameUnit.imp hRS⟩

section Engine

variable {F : Type} {rt : Runtime} {R : Message → Message → Prop} (h : KeepsBudget rt R) {input : BuildInput F}
  {history request : List Message} (hhistory : List.Forall₂ R input.history history)
  (hrequest : List.Forall₂ R input.currentRequest request)
include h hhistory hrequest

theorem KeepsBudget.input_readable_iff :
    input.Readable rt ↔ { input with history, currentRequest := request : BuildInput F }.Readable rt := by
  have hsegmentable := forall_mem_iff_of_forall₂ (fun _ _ hm => h.segmentable_iff hm) hhistory
  have hreadable := forall_mem_iff_of_forall₂ (fun _ _ hm => h.readable_iff hm) hrequest
  have hhashed : (∀ m ∈ input.history ++ input.currentRequest ++ input.pinned, Fingerprintable rt m) ↔
      ∀ m ∈ history ++ request ++ input.pinned, Fingerprintable rt m := by
    simp only [forall_mem_append, forall_mem_iff_of_forall₂ h.fingerprintable hhistory,
      forall_mem_iff_of_forall₂ h.fingerprintable hrequest]
  constructor
  · rintro ⟨hold, hcurrent, hpinned, hold', hretrieved⟩
    exact ⟨hsegmentable.mp hold, hreadable.mp hcurrent, hpinned, hhashed.mp hold', hretrieved⟩
  · rintro ⟨hnew, hcurrent, hpinned, hnew', hretrieved⟩
    exact ⟨hsegmentable.mpr hnew, hreadable.mpr hcurrent, hpinned, hhashed.mpr hnew', hretrieved⟩

theorem KeepsBudget.requiredTokens_eq :
    input.requiredTokens rt = { input with history, currentRequest := request : BuildInput F }.requiredTokens rt := by
  rw [BuildInput.requiredTokens, BuildInput.requiredTokens, h.tokensOfAll_eq (h.filter_instructions hhistory),
    h.tokensOfAll_eq hrequest]

/-- `build` overflows on both sides or on none, and keeps the same units. -/
theorem KeepsBudget.build [Score F] (engine : ContextAssemblyEngine F) :
    SameBuild engine rt R input { input with history, currentRequest := request } := by
  have hreadable := h.input_readable_iff hhistory hrequest
  have hrequired := h.requiredTokens_eq hhistory hrequest
  generalize hinput : { input with history, currentRequest := request : BuildInput F } = input' at hreadable hrequired
  by_cases hinputs : input.Readable rt
  · rcases Nat.lt_or_ge engine.usable (input.requiredTokens rt) with hover | hfits
    · have hover' : engine.usable < input'.requiredTokens rt := hrequired ▸ hover
      have hbuild := build_of_overflow hinputs hover
      have hbuild' := build_of_overflow (hreadable.mp hinputs) hover'
      rw [← hrequired] at hbuild'
      refine ⟨fun required usable => by rw [hbuild, hbuild'], by rw [hbuild, hbuild'], ?_⟩
      intro plan plan' hplan
      exact absurd (hbuild.symm.trans hplan) (by simp)
    · have hfits' : input'.requiredTokens rt ≤ engine.usable := hrequired ▸ hfits
      obtain ⟨plan, -, -, -, hbuild, -⟩ := build_of_fits hinputs hfits
      obtain ⟨plan', -, -, -, hbuild', -⟩ := build_of_fits (hreadable.mp hinputs) hfits'
      refine ⟨fun required usable => by simp [hbuild, hbuild'], iff_of_true ⟨plan, hbuild⟩ ⟨plan', hbuild'⟩, ?_⟩
      intro plan plan' hplan hplan'
      obtain ⟨-, -, units, window, blocks, hassembled⟩ := assembled_of_build hplan
      obtain ⟨-, -, units', window', blocks', hassembled'⟩ := assembled_of_build hplan'
      have hhistory' : List.Forall₂ R input.history input'.history := hinput ▸ hhistory
      obtain ⟨others, hothers, hunits⟩ := (h.segmentMessages hhistory').exists_ok hassembled.segmented
      obtain rfl : others = units' := Except.ok.inj (hothers.symm.trans hassembled'.segmented)
      refine ⟨units, window, blocks, others, window', blocks', hassembled, hassembled', hunits, ?_⟩
      rw [hassembled.longest.unique (window_longestFitting _ _ _), hassembled'.longest.unique (window_longestFitting _ _ _),
        hrequired]
      exact window_forall₂ (fun _ _ hunit => hunit.tokens) (filter_not_isSystem_alike hunits) _
  · obtain ⟨error, hbuild⟩ := build_of_not_readable engine hinputs
    obtain ⟨error', hbuild'⟩ := build_of_not_readable engine (mt hreadable.mpr hinputs)
    refine ⟨fun required usable => by simp [hbuild, hbuild'], by simp [hbuild, hbuild'], ?_⟩
    intro plan plan' hplan
    exact absurd (hbuild.symm.trans hplan) (by simp)

end Engine

end ContextProxy
