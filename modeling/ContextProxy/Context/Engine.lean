import ContextProxy.Context.Deduplication
import ContextProxy.Context.Fusion
import ContextProxy.Context.Mmr
import ContextProxy.Lib.Packing

/-!
# The context assembly engine

`ContextAssemblyEngine.build`: the candidates that the filters leave are scored, allocated tier by tier under the budget, and rendered as a plan. The engine is generic in the type of scores, whose arithmetic has no law.
-/

namespace ContextProxy

open Json
open List hiding get

structure Weights (F : Type) where
  semantic : F
  lexical : F
  recency : F
  importance : F
  type : F

structure AssemblySettings (F : Type) where
  mmrLambda : F
  maxRetrievedItems : ℕ
  retrievedBudgetTokens : ℕ

/-- An engine; its constructor refuses a budget that is not positive. `round6` is `round(_, 6)`. -/
structure ContextAssemblyEngine (F : Type) where
  usable : ℕ
  usable_pos : 0 < usable
  settings : AssemblySettings F
  weights : Weights F
  similarity : String → String → F
  round6 : F → F

inductive BuildError where
  | python (error : PyError)
  | overflow (requiredTokens usableBudget : ℕ)
  | promoted (key : String)
  deriving DecidableEq, Repr

variable {F : Type}

/-! ### Scores -/

/-- `BASE_SCORE_BY_SOURCE`. -/
def baseScore [Score F] : CandidateSource → F
  | .system | .toolDefinitions | .currentRequest => 1
  | .pinned => (95 : ℕ) / (100 : ℕ)
  | .recentTurn => (9 : ℕ) / (10 : ℕ)
  | .memory | .chunk => 0

def ContextAssemblyEngine.relevanceScore [Score F] (engine : ContextAssemblyEngine F) (candidate : Candidate F) : F :=
  let component := fun name => (candidate.components.lookup name).getD 0
  if 0 < baseScore (F := F) candidate.source then engine.round6 (baseScore candidate.source)
  else engine.round6
    (engine.weights.semantic * component "semantic" + engine.weights.lexical * component "lexical"
      + engine.weights.recency * component "recency" + engine.weights.importance * component "importance"
      + engine.weights.type * component "type_priority")

/-- What `{c.key: c for c in candidates}` holds under a key: the last one of them. -/
def byKey (candidates : List (Candidate F)) (key : String) : Option (Candidate F) :=
  candidates.reverse.find? (·.key = key)

variable {candidates : List (Candidate F)}

theorem mem_of_byKey {key : String} {candidate : Candidate F} (h : byKey candidates key = some candidate) :
    candidate ∈ candidates :=
  mem_reverse.mp (mem_of_find?_eq_some h)

theorem key_of_byKey {key : String} {c : Candidate F} (h : byKey candidates key = some c) : c.key = key := by
  have hkey := find?_some h
  exact of_decide_eq_true hkey

theorem keys_filterMap_byKey_sublist (candidates : List (Candidate F)) (keys : List String) :
    ((keys.filterMap (byKey candidates)).map (·.key)).Sublist keys := by
  induction keys with
  | nil => exact List.Sublist.slnil
  | cons key keys ih =>
    cases hfound : byKey candidates key with
    | none =>
      rw [filterMap_cons_none hfound]
      exact ih.cons key
    | some c =>
      rw [filterMap_cons_some hfound, map_cons, key_of_byKey hfound]
      exact ih.cons_cons key

theorem byKey_of_mem (hkeys : (candidates.map (·.key)).Nodup) {c : Candidate F} (hc : c ∈ candidates) :
    byKey candidates c.key = some c := by
  obtain ⟨d, hd⟩ : ∃ d, byKey candidates c.key = some d := by
    rw [byKey, ← Option.isSome_iff_exists, find?_isSome]
    exact ⟨c, mem_reverse.mpr hc, by simp⟩
  rw [hd, inj_on_of_nodup_map hkeys (mem_of_byKey hd) hc (key_of_byKey hd)]

/-- The dictionary of scores, read with `get(key, 0.0)`. -/
def ContextAssemblyEngine.scores [Score F] (engine : ContextAssemblyEngine F) (candidates : List (Candidate F))
    (key : String) : F := ((byKey candidates key).map engine.relevanceScore).getD 0

/-! ### Allocation -/

namespace Candidate

def isTools (candidate : Candidate F) : Bool := candidate.source = .toolDefinitions

def isMandatory (candidate : Candidate F) : Bool :=
  !candidate.isTools && (candidate.tier ≤ CandidateSource.pinned.tier || candidate.source = .currentRequest)

def isRecent (candidate : Candidate F) : Bool :=
  !candidate.isTools && !candidate.isMandatory && candidate.source = .recentTurn

/-- What the loop of `_allocate` leaves to its last branch. -/
def isOptional (candidate : Candidate F) : Bool :=
  !candidate.isTools && !candidate.isMandatory && !candidate.isRecent

/-- The key of the sort: `(tier, position, key)`. -/
def packKey (candidate : Candidate F) : ℕ ×ₗ ℕ ×ₗ String :=
  toLex (candidate.tier, toLex (candidate.position, candidate.key))

end Candidate

structure AllocationStats where
  recentTokens : ℕ
  retrievedTokens : ℕ
  mandatoryTokens : ℕ
  toolsTokens : ℕ
  deriving DecidableEq, Repr

structure Allocation (F : Type) where
  ordered : List (Candidate F)
  stats : AllocationStats
  dropped : DropTable

/-- The tokens of the tool definitions; a later candidate replaces an earlier one. -/
def toolsCost (candidates : List (Candidate F)) : ℕ :=
  match (candidates.filter Candidate.isTools).getLast? with
  | some candidate => candidate.tokens
  | none => 0

/-- The render order of the mandatory part: everything but the request, and the request. -/
def headAndTail (mandatory : List (Candidate F)) : List (Candidate F) × Option (Candidate F) :=
  let head := mandatory.insertionSort fun a b => a.packKey ≤ b.packKey
  (head.eraseP (·.source = .currentRequest), head.find? (·.source = .currentRequest))

namespace ContextAssemblyEngine

def ranked [Score F] (engine : ContextAssemblyEngine F) (scores : String → F) (retrieval : List (Candidate F)) :
    List (Candidate F) :=
  (mmrSelect (retrieval.map fun c => (scores c.key, c.key)) engine.similarity
    (min engine.settings.maxRetrievedItems retrieval.length : ℕ) engine.settings.mmrLambda).filterMap (byKey retrieval)

/-- Tier 5: the candidates that are packed whole under the cap, and those that do not fit. -/
def pickRetrieved [Score F] (engine : ContextAssemblyEngine F) (scores : String → F) (remaining : ℕ)
    (retrieval : List (Candidate F)) : List (Candidate F) × List (Candidate F) :=
  if retrieval ≠ [] ∧ 0 < remaining ∧ 0 < engine.settings.maxRetrievedItems then
    packUnder Candidate.tokens (min remaining engine.settings.retrievedBudgetTokens) 0 (engine.ranked scores retrieval)
  else ([], [])

def allocate [Score F] (engine : ContextAssemblyEngine F) (candidates : List (Candidate F)) (scores : String → F)
    (dropped : DropTable) : Except BuildError (Allocation F) :=
  let mandatory := candidates.filter Candidate.isMandatory
  let recent := candidates.filter Candidate.isRecent
  let retrieval := candidates.filter Candidate.isOptional
  let toolsTokens := toolsCost candidates
  let mandatoryTokens := totalCost Candidate.tokens mandatory
  if mandatoryTokens + toolsTokens > engine.usable then
    .error (.overflow (mandatoryTokens + toolsTokens) engine.usable)
  else
    let remaining := engine.usable - mandatoryTokens - toolsTokens
    -- tier 4: one window of whole units, from the newest back
    let keptRecent := window Candidate.tokens remaining recent
    let recentTokens := totalCost Candidate.tokens keptRecent
    let dropped := dropped.dropAll (recent.filter fun c => c.key ∉ keptRecent.map (·.key)) .budget
    let (picked, skipped) := engine.pickRetrieved scores (remaining - recentTokens) retrieval
    let dropped := dropped.dropAll skipped .budget
    let dropped := retrieval.foldl (fun table c =>
      if c.key ∉ picked.map (·.key) ∧ c.key ∉ table.map (·.key) then table.dropAll [c] .notSelected else table) dropped
    let (head, tail) := headAndTail mandatory
    .ok {
      ordered := head ++ picked ++ keptRecent ++ tail.toList
      stats := {
        recentTokens
        retrievedTokens := totalCost Candidate.tokens picked
        mandatoryTokens
        toolsTokens }
      dropped }

end ContextAssemblyEngine

/-! ### The plan -/

structure SelectedItem (F : Type) where
  key : String
  source : CandidateSource
  tokens : ℕ
  score : F

structure Diagnostics (F : Type) where
  stats : AllocationStats
  settings : AssemblySettings F
  weights : Weights F
  dropReasons : List String

structure ContextPlan (F : Type) where
  messages : List Message
  selectedItems : List (SelectedItem F)
  droppedItems : List DroppedCandidate
  tokenEstimate : ℕ
  toolsTokens : ℕ
  budget : ℕ
  rationale : String
  diagnostics : Diagnostics F

/-- A derived candidate that would be sent as a trusted instruction. -/
def Candidate.isPromoted (candidate : Candidate F) : Bool :=
  candidate.source.classification = .derivedContext &&
    match candidate.render with
    | [] => false
    | first :: _ => pyEq (get first "role") (.str "system")

def rationale (selected : ℕ) (stats : AllocationStats) (dropped : ℕ) : String :=
  "selected " ++ toString selected ++ " items (recent=" ++ toString stats.recentTokens
    ++ "tok, retrieved=" ++ toString stats.retrievedTokens ++ "tok, mandatory=" ++ toString stats.mandatoryTokens
    ++ "tok, tools=" ++ toString stats.toolsTokens ++ "tok); dropped " ++ toString dropped

namespace ContextAssemblyEngine

def makePlan (engine : ContextAssemblyEngine F) (allocation : Allocation F) (scores : String → F) :
    Except BuildError (ContextPlan F) :=
  match allocation.ordered.find? Candidate.isPromoted with
  | some candidate => .error (.promoted candidate.key)
  | none =>
    let selectedItems := (allocation.ordered.filter (!·.isTools)).map fun c =>
      SelectedItem.mk c.key c.source c.tokens (scores c.key)
    let tokenEstimate := totalCost Candidate.tokens allocation.ordered + allocation.stats.toolsTokens
    if tokenEstimate > engine.usable then .error (.overflow tokenEstimate engine.usable)
    else
      .ok {
        messages := allocation.ordered.flatMap (·.render)
        selectedItems
        droppedItems := allocation.dropped.insertionSort fun a b => a.key ≤ b.key
        tokenEstimate
        toolsTokens := allocation.stats.toolsTokens
        budget := engine.usable
        rationale := rationale selectedItems.length allocation.stats allocation.dropped.length
        diagnostics := {
          stats := allocation.stats
          settings := engine.settings
          weights := engine.weights
          dropReasons := (allocation.dropped.map (·.reason.name)).dedup.insertionSort (· ≤ ·) } }

def build [Score F] (engine : ContextAssemblyEngine F) (rt : Runtime) (input : BuildInput F) :
    Except BuildError (ContextPlan F) := do
  let candidates ← (fuseCandidates rt input).mapError BuildError.python
  let prepared := prepare candidates input.supersededMemoryIds input.conversationId
  let scores := engine.scores prepared.kept
  let allocation ← engine.allocate prepared.kept scores prepared.dropped
  engine.makePlan allocation scores

end ContextAssemblyEngine

/-! ### What the stages return -/

def mandatoryCost (candidates : List (Candidate F)) : ℕ :=
  totalCost Candidate.tokens (candidates.filter Candidate.isMandatory) + toolsCost candidates

namespace ContextAssemblyEngine

def keptRecent (engine : ContextAssemblyEngine F) (candidates : List (Candidate F)) : List (Candidate F) :=
  window Candidate.tokens (engine.usable - mandatoryCost candidates) (candidates.filter Candidate.isRecent)

def leftOver (engine : ContextAssemblyEngine F) (candidates : List (Candidate F)) : ℕ :=
  engine.usable - mandatoryCost candidates - totalCost Candidate.tokens (engine.keptRecent candidates)

theorem makePlan_of_fits {engine : ContextAssemblyEngine F} {allocation : Allocation F} (scores : String → F)
    (hguard : ∀ c ∈ allocation.ordered, c.isPromoted = false)
    (hfits : totalCost Candidate.tokens allocation.ordered + allocation.stats.toolsTokens ≤ engine.usable) :
    ∃ plan, engine.makePlan allocation scores = .ok plan ∧ plan.messages = allocation.ordered.flatMap (·.render) ∧
      plan.tokenEstimate = totalCost Candidate.tokens allocation.ordered + allocation.stats.toolsTokens := by
  have hnone : allocation.ordered.find? Candidate.isPromoted = none :=
    find?_eq_none.mpr fun c hc => by simp [hguard c hc]
  rw [makePlan, hnone]
  exact ⟨_, if_neg (Nat.not_lt.mpr hfits), rfl, rfl⟩

variable [Score F] {engine : ContextAssemblyEngine F} {candidates : List (Candidate F)}

def picked (engine : ContextAssemblyEngine F) (scores : String → F) (candidates : List (Candidate F)) :
    List (Candidate F) :=
  (engine.pickRetrieved scores (engine.leftOver candidates) (candidates.filter Candidate.isOptional)).1

theorem allocate_of_overflow (scores : String → F) (dropped : DropTable) (h : engine.usable < mandatoryCost candidates) :
    engine.allocate candidates scores dropped = .error (.overflow (mandatoryCost candidates) engine.usable) := if_pos h

theorem allocate_of_fits (scores : String → F) (dropped : DropTable) (h : mandatoryCost candidates ≤ engine.usable) :
    ∃ allocation, engine.allocate candidates scores dropped = .ok allocation ∧
      allocation.ordered = (headAndTail (candidates.filter Candidate.isMandatory)).1 ++ engine.picked scores candidates
        ++ engine.keptRecent candidates ++ (headAndTail (candidates.filter Candidate.isMandatory)).2.toList ∧
      allocation.stats.toolsTokens = toolsCost candidates := by
  refine ⟨_, if_neg (Nat.not_lt.mpr h), ?_, rfl⟩
  rw [picked, leftOver, keptRecent, mandatoryCost, ← Nat.sub_sub]
  rfl

variable {retrieval : List (Candidate F)}

theorem exists_byKey_of_mem_mmrSelect {similarity : String → String → F} {limit : ℤ} {lam : F} {scores : String → F}
    {key : String} (h : key ∈ mmrSelect (retrieval.map fun c => (scores c.key, c.key)) similarity limit lam) :
    ∃ c, byKey retrieval key = some c := by
  have hmem := mem_of_mem_mmrSelect h
  rw [map_map, mem_map] at hmem
  obtain ⟨c, hc, rfl⟩ := hmem
  rw [byKey, ← Option.isSome_iff_exists, find?_isSome]
  exact ⟨c, mem_reverse.mpr hc, by simp⟩

/-- Under different keys, the ranking takes every candidate at most once. -/
theorem ranked_subperm (engine : ContextAssemblyEngine F) (scores : String → F) (hkeys : (retrieval.map (·.key)).Nodup) :
    (engine.ranked scores retrieval).Subperm retrieval := by
  have hselected : (mmrSelect (retrieval.map fun c => (scores c.key, c.key)) engine.similarity
      (min engine.settings.maxRetrievedItems retrieval.length : ℕ) engine.settings.mmrLambda).Nodup :=
    nodup_mmrSelect (by simpa [Function.comp_def] using hkeys)
  have hnodup : (engine.ranked scores retrieval).Nodup :=
    .of_map (·.key) (hselected.sublist (keys_filterMap_byKey_sublist _ _))
  refine subperm_of_subset hnodup fun c hc => ?_
  obtain ⟨key, -, hkey⟩ := mem_filterMap.mp hc
  exact mem_of_byKey hkey

theorem mem_ranked_of_room {scores : String → F} (hkeys : (retrieval.map (·.key)).Nodup)
    (hroom : retrieval.length ≤ engine.settings.maxRetrievedItems) {c : Candidate F} (hc : c ∈ retrieval) :
    c ∈ engine.ranked scores retrieval := by
  refine mem_filterMap.mpr ⟨c.key, ?_, byKey_of_mem hkeys hc⟩
  apply mem_mmrSelect_of_room
  · rw [length_map]
    omega
  · rw [map_map]
    exact mem_map.mpr ⟨c, hc, rfl⟩

/-- Only candidates that are left are packed, within the cap and not too many of them. -/
theorem picked_spec (engine : ContextAssemblyEngine F) (scores : String → F) (candidates : List (Candidate F)) :
    (∀ c ∈ engine.picked scores candidates, c ∈ candidates.filter Candidate.isOptional) ∧
      totalCost Candidate.tokens (engine.picked scores candidates)
        ≤ min (engine.leftOver candidates) engine.settings.retrievedBudgetTokens ∧
      (engine.picked scores candidates).length ≤ engine.settings.maxRetrievedItems := by
  rw [picked, pickRetrieved]
  split
  · refine ⟨?_, ?_, ?_⟩
    · intro c hc
      obtain ⟨key, -, hkey⟩ := mem_filterMap.mp (packUnder_sublist.subset hc)
      exact mem_of_byKey hkey
    · have hfits := packUnder_fits Candidate.tokens (engine.ranked scores (candidates.filter Candidate.isOptional))
        (Nat.zero_le (min (engine.leftOver candidates) engine.settings.retrievedBudgetTokens))
      rwa [Nat.zero_add] at hfits
    · calc _ ≤ (engine.ranked scores (candidates.filter Candidate.isOptional)).length := packUnder_sublist.length_le
        _ ≤ _ := length_filterMap_le _ _
        _ ≤ _ := length_mmrSelect_le
        _ ≤ _ := Nat.min_le_left _ _
  · exact ⟨by simp, by simp [totalCost], Nat.zero_le _⟩

theorem totalCost_ordered_le (scores : String → F) {head tail : List (Candidate F)}
    (hmandatory : (head ++ tail).Perm (candidates.filter Candidate.isMandatory))
    (h : mandatoryCost candidates ≤ engine.usable) :
    totalCost Candidate.tokens (head ++ engine.picked scores candidates ++ engine.keptRecent candidates ++ tail)
      + toolsCost candidates ≤ engine.usable := by
  have hpicked := (picked_spec engine scores candidates).2.1
  have hrecent : totalCost Candidate.tokens (engine.keptRecent candidates)
      ≤ engine.usable - mandatoryCost candidates := (window_longestFitting _ _ _).fits
  have hperm := totalCost_perm Candidate.tokens hmandatory
  rw [leftOver] at hpicked
  rw [mandatoryCost] at h hrecent hpicked
  simp only [totalCost_append] at hperm ⊢
  omega

end ContextAssemblyEngine

end ContextProxy
