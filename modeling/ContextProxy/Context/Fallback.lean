import ContextProxy.Context.Planner
import ContextProxy.Lib.Packing

/-!
# The window planner

`plan_context`, which plans without retrieval when there is no engine. As long as the history is too large, the oldest unit that is no instruction is dropped. What is left is the longest suffix that fits (`dropOldest_longestFitting`), which the engine finds by counting back. A plan exists exactly when the instructions, the request, the tools and the reserve fit (`planContext_eq_ok`).
-/

namespace ContextProxy

open Json List

inductive PlanError where
  | python (error : PyError)
  | overflow (requiredTokens usableBudget : ℕ)
  deriving DecidableEq, Repr

structure PlanDetails where
  unitsTotal : ℕ
  unitsKept : ℕ
  systemTokens : ℕ
  currentRequestTokens : ℕ
  deriving DecidableEq, Repr

/-- `ContextPlan` of the planner. -/
structure WindowPlan where
  messages : List Message
  totalTokens : ℕ
  toolsTokens : ℕ
  usableBudget : ℕ
  droppedUnits : ℕ
  droppedTokens : ℕ
  details : PlanDetails

/-- The loop that drops the oldest units until the total is within what is available. -/
def dropOldest (available : ℕ) : ℕ → List InteractionUnit → List InteractionUnit
  | _, [] => []
  | total, unit :: units =>
    if total ≤ available then unit :: units
    else if unit.isSystem then unit :: dropOldest available total units
    else dropOldest available (total - unit.tokens) units

def currentUnit (rt : Runtime) (currentRequest : List Message) : Except PyError (Option InteractionUnit) :=
  if currentRequest = [] then return none
  else do
    let tokens ← messagesTokens rt currentRequest
    return some { kind := .turn, messages := currentRequest, tokens }

/-- `plan_context`, once the units are counted. -/
def planUnits (tools usableBudget reservedTokens : ℕ) (current : Option InteractionUnit) (original : List InteractionUnit) :
    Except PlanError WindowPlan :=
  let currentTokens := totalCost InteractionUnit.tokens current.toList
  let mandatory := totalCost InteractionUnit.tokens (original.filter (·.isSystem)) + tools + reservedTokens + currentTokens
  if mandatory > usableBudget then .error (.overflow mandatory usableBudget)
  else
    let available := usableBudget - tools - reservedTokens - currentTokens
    let total := totalCost InteractionUnit.tokens original
    let kept := if total > available then dropOldest available total original else original
    let finalUnits := kept ++ current.toList
    let finalTotal := totalCost InteractionUnit.tokens finalUnits
    if finalTotal + tools > usableBudget then .error (.overflow (finalTotal + tools) usableBudget)
    else
      .ok {
        messages := finalUnits.flatMap (·.messages)
        totalTokens := finalTotal
        toolsTokens := tools
        usableBudget
        droppedUnits := original.length - (finalUnits.length - current.toList.length)
        droppedTokens := total - (finalTotal - currentTokens)
        details := {
          unitsTotal := original.length
          unitsKept := finalUnits.length
          systemTokens := totalCost InteractionUnit.tokens (finalUnits.filter (·.isSystem))
          currentRequestTokens := currentTokens } }

def planContext (rt : Runtime) (history currentRequest : List Message) (tools : List Json)
    (usableBudget reservedTokens : ℕ) : Except PlanError WindowPlan := do
  let current ← (currentUnit rt currentRequest).mapError PlanError.python
  let original ← (segmentMessages rt history).mapError PlanError.python
  planUnits (toolsTokens rt tools) usableBudget reservedTokens current original

/-! ### What is dropped -/

theorem filter_isSystem_dropOldest (available total : ℕ) (units : List InteractionUnit) :
    (dropOldest available total units).filter (·.isSystem) = units.filter (·.isSystem) := by
  induction units generalizing total with
  | nil => rfl
  | cons unit units ih =>
    rw [dropOldest]
    split
    · rfl
    · split
      · rename_i hsystem
        rw [filter_cons_of_pos hsystem, filter_cons_of_pos hsystem, ih]
      · rename_i hsystem
        rw [filter_cons_of_neg hsystem, ih]

theorem totalCost_filter (units : List InteractionUnit) :
    totalCost InteractionUnit.tokens units = totalCost InteractionUnit.tokens (units.filter (·.isSystem))
      + totalCost InteractionUnit.tokens (units.filter (!·.isSystem)) := by
  rw [← totalCost_append]
  exact (totalCost_perm _ (filter_append_perm (·.isSystem) units)).symm

variable {units : List InteractionUnit}

/-- Dropping from the front leaves the longest suffix that fits beside the instructions. The total the loop carries is what it has passed and kept, plus everything still ahead of it. -/
theorem dropOldest_longestFitting {available passed total : ℕ}
    (htotal : total = passed + totalCost InteractionUnit.tokens units)
    (hsystem : passed + totalCost InteractionUnit.tokens (units.filter (·.isSystem)) ≤ available) :
    LongestFitting InteractionUnit.tokens
      (available - (passed + totalCost InteractionUnit.tokens (units.filter (·.isSystem))))
      (units.filter (!·.isSystem)) ((dropOldest available total units).filter (!·.isSystem)) := by
  induction units generalizing passed total with
  | nil => exact ⟨suffix_refl _, Nat.zero_le _, fun _ h _ => h⟩
  | cons unit units ih =>
    have hcost := totalCost_filter (unit :: units)
    rw [dropOldest]
    by_cases hfits : total ≤ available
    · rw [if_pos hfits]
      exact ⟨suffix_refl _, by omega, fun _ h _ => h⟩
    rw [if_neg hfits]
    by_cases hunit : unit.isSystem = true
    · have hrest : passed + totalCost InteractionUnit.tokens ((unit :: units).filter (·.isSystem))
          = passed + unit.tokens + totalCost InteractionUnit.tokens (units.filter (·.isSystem)) := by
        rw [filter_cons_of_pos hunit, totalCost_cons, Nat.add_assoc]
      have hskip : ∀ rest, (unit :: rest).filter (!·.isSystem) = rest.filter (!·.isSystem) := by simp [hunit]
      rw [hrest, if_pos hunit, hskip, hskip]
      apply ih
      · rw [htotal, totalCost_cons, Nat.add_assoc]
      · omega
    · have hnext : total - unit.tokens = passed + totalCost InteractionUnit.tokens units := by
        rw [htotal, totalCost_cons]
        omega
      rw [filter_cons_of_neg hunit] at hsystem hcost
      rw [if_neg hunit, filter_cons_of_neg hunit, filter_cons_of_pos (by simp [hunit])]
      rw [filter_cons_of_pos (by simp [hunit])] at hcost
      obtain ⟨hsuffix, hrest, hlongest⟩ := ih hnext hsystem
      refine ⟨hsuffix.trans (suffix_cons _ _), hrest, fun other hother hcap => ?_⟩
      rcases suffix_cons_iff.mp hother with rfl | hother
      · omega
      · exact hlongest other hother hcap

/-- A plan exists exactly when the instructions, the request, the tools and the reserve fit. It keeps the instructions and the longest suffix of the other units that fits beside all that. -/
theorem planUnits_cases (tools usable reserved : ℕ) (current : Option InteractionUnit) (units : List InteractionUnit)
    {required : ℕ} (hrequired : required = totalCost InteractionUnit.tokens (units.filter (·.isSystem)) + tools + reserved
      + totalCost InteractionUnit.tokens current.toList) :
    (usable < required → planUnits tools usable reserved current units = .error (.overflow required usable)) ∧
      (required ≤ usable → ∃ (plan : WindowPlan) (kept : List InteractionUnit),
        planUnits tools usable reserved current units = .ok plan ∧
        kept.filter (·.isSystem) = units.filter (·.isSystem) ∧
        LongestFitting InteractionUnit.tokens (usable - required) (units.filter (!·.isSystem))
          (kept.filter (!·.isSystem)) ∧
        plan.messages = kept.flatMap (·.messages) ++ current.toList.flatMap (·.messages)) := by
  subst hrequired
  refine ⟨fun hover => if_pos hover, fun hfits => ?_⟩
  generalize havailable : usable - tools - reserved - totalCost InteractionUnit.tokens current.toList = available
  generalize hkept : dropOldest available (totalCost InteractionUnit.tokens units) units = kept
  have hlongest := dropOldest_longestFitting (Nat.zero_add (totalCost InteractionUnit.tokens units)).symm
    (show 0 + totalCost InteractionUnit.tokens (units.filter (·.isSystem)) ≤ available by omega)
  have hinstructions := filter_isSystem_dropOldest available (totalCost InteractionUnit.tokens units) units
  rw [hkept] at hlongest hinstructions
  have hchoice : (if totalCost InteractionUnit.tokens units > available then
      dropOldest available (totalCost InteractionUnit.tokens units) units else units) = kept := by
    split
    · exact hkept
    · cases units with
      | nil => exact hkept
      | cons unit units => rw [← hkept, dropOldest, if_pos (by omega)]
  -- instructions and window together stay within what is available, so the last check passes
  have hwithin : totalCost InteractionUnit.tokens (kept ++ current.toList) + tools ≤ usable := by
    have hwindow := hlongest.fits
    rw [totalCost_append, totalCost_filter kept, hinstructions]
    omega
  obtain ⟨plan, hplan, hmessages⟩ : ∃ plan, planUnits tools usable reserved current units = .ok plan ∧
      plan.messages = (kept ++ current.toList).flatMap (·.messages) := by
    rw [planUnits]
    simp only [havailable, hchoice]
    rw [if_neg (Nat.not_lt.mpr hfits), if_neg (Nat.not_lt.mpr hwithin)]
    exact ⟨_, rfl, rfl⟩
  refine ⟨plan, kept, hplan, hinstructions, ?_, hmessages.trans flatMap_append⟩
  rw [show usable - (totalCost InteractionUnit.tokens (units.filter (·.isSystem)) + tools + reserved
    + totalCost InteractionUnit.tokens current.toList)
    = available - (0 + totalCost InteractionUnit.tokens (units.filter (·.isSystem))) by omega]
  exact hlongest

/-! ### When there is a plan -/

variable {rt : Runtime} {history currentRequest : List Message} {tools : List Json} {usable reserved : ℕ}

def windowRequired (rt : Runtime) (history currentRequest : List Message) (tools : List Json) (reserved : ℕ) : ℕ :=
  tokensOfAll rt (history.filter isInstruction) + toolsTokens rt tools + reserved + tokensOfAll rt currentRequest

def Plannable (rt : Runtime) (history currentRequest : List Message) : Prop :=
  (∀ m ∈ history, Segmentable rt m) ∧ ∀ m ∈ currentRequest, Readable rt m

/-- What a plan is: the units of the history, the ones that are kept, and the forwarded list. -/
structure Windowed (rt : Runtime) (history currentRequest : List Message) (tools : List Json) (usable reserved : ℕ)
    (plan : WindowPlan) (units kept : List InteractionUnit) : Prop where
  segmented : segmentMessages rt history = .ok units
  instructions : kept.filter (·.isSystem) = units.filter (·.isSystem)
  longest : LongestFitting InteractionUnit.tokens (usable - windowRequired rt history currentRequest tools reserved)
    (units.filter (!·.isSystem)) (kept.filter (!·.isSystem))
  messages : plan.messages = kept.flatMap (·.messages) ++ currentRequest

theorem currentUnit_eq_ok {current : Option InteractionUnit} (h : currentUnit rt currentRequest = .ok current) :
    (∀ m ∈ currentRequest, Readable rt m) ∧
      totalCost InteractionUnit.tokens current.toList = tokensOfAll rt currentRequest ∧
      current.toList.flatMap (·.messages) = currentRequest := by
  rw [currentUnit] at h
  split at h
  · rename_i hnil
    obtain rfl := Except.ok.inj h
    subst hnil
    exact ⟨by simp, rfl, rfl⟩
  · obtain ⟨tokens, htokens, h⟩ := bind_eq_ok.mp h
    obtain rfl := Except.ok.inj h
    obtain ⟨hreadable, rfl⟩ := messagesTokens_eq_ok.mp htokens
    exact ⟨hreadable, by simp [totalCost], by simp⟩

theorem exists_currentUnit (h : ∀ m ∈ currentRequest, Readable rt m) :
    ∃ current, currentUnit rt currentRequest = .ok current := by
  rw [currentUnit]
  split
  · exact ⟨none, rfl⟩
  · exact ⟨_, bind_eq_ok.mpr ⟨_, messagesTokens_eq_ok.mpr ⟨h, rfl⟩, rfl⟩⟩

theorem totalCost_instructions (h : segmentMessages rt history = .ok units) :
    totalCost InteractionUnit.tokens (units.filter (·.isSystem)) = tokensOfAll rt (history.filter isInstruction) := by
  obtain ⟨hinstructions, -, hcounted, -⟩ := segmentMessages_spec h
  rw [← hinstructions, tokensOfAll_flatMap, totalCost]
  congr 1
  apply map_congr_left
  intro unit hunit
  exact (messagesTokens_eq_ok.mp (hcounted unit (mem_filter.mp hunit).1)).2

theorem planContext_of_plannable (h : Plannable rt history currentRequest) (tools : List Json) (usable reserved : ℕ) :
    (usable < windowRequired rt history currentRequest tools reserved →
      planContext rt history currentRequest tools usable reserved
        = .error (.overflow (windowRequired rt history currentRequest tools reserved) usable)) ∧
    (windowRequired rt history currentRequest tools reserved ≤ usable →
      ∃ plan units kept, planContext rt history currentRequest tools usable reserved = .ok plan ∧
        Windowed rt history currentRequest tools usable reserved plan units kept) := by
  obtain ⟨current, hcurrent⟩ := exists_currentUnit h.2
  obtain ⟨units, hunits⟩ := exists_segmentMessages.mpr h.1
  obtain ⟨-, hcost, hmessages⟩ := currentUnit_eq_ok hcurrent
  have hplan : planContext rt history currentRequest tools usable reserved
      = planUnits (toolsTokens rt tools) usable reserved current units := by
    rw [planContext, hcurrent, hunits]
    rfl
  have hrequired : windowRequired rt history currentRequest tools reserved
      = totalCost InteractionUnit.tokens (units.filter (·.isSystem)) + toolsTokens rt tools + reserved
        + totalCost InteractionUnit.tokens current.toList := by
    rw [windowRequired, totalCost_instructions hunits, hcost]
  obtain ⟨hoverflow, hfits⟩ := planUnits_cases (toolsTokens rt tools) usable reserved current units hrequired
  rw [hplan]
  refine ⟨hoverflow, fun hle => ?_⟩
  obtain ⟨plan, kept, hok, hinstructions, hlongest, hforwarded⟩ := hfits hle
  exact ⟨plan, units, kept, hok, hunits, hinstructions, hlongest, hmessages ▸ hforwarded⟩

theorem planContext_eq_ok {plan : WindowPlan}
    (h : planContext rt history currentRequest tools usable reserved = .ok plan) :
    Plannable rt history currentRequest ∧ windowRequired rt history currentRequest tools reserved ≤ usable ∧
      ∃ units kept, Windowed rt history currentRequest tools usable reserved plan units kept := by
  obtain ⟨current, hcurrent, hrest⟩ := bind_eq_ok.mp h
  obtain ⟨units, hunits, -⟩ := bind_eq_ok.mp hrest
  rw [mapError_eq_ok] at hcurrent hunits
  have hplannable : Plannable rt history currentRequest :=
    ⟨exists_segmentMessages.mp ⟨units, hunits⟩, (currentUnit_eq_ok hcurrent).1⟩
  obtain ⟨hoverflow, hplan⟩ := planContext_of_plannable hplannable tools usable reserved
  have hfits : windowRequired rt history currentRequest tools reserved ≤ usable := by
    by_contra hover
    exact absurd (h.symm.trans (hoverflow (Nat.lt_of_not_le hover))) (by simp)
  obtain ⟨plan', units, kept, hplan', hwindowed⟩ := hplan hfits
  obtain rfl := Except.ok.inj (h.symm.trans hplan')
  exact ⟨hplannable, hfits, units, kept, hwindowed⟩

end ContextProxy
