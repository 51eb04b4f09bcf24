import ContextProxy.Context.Accounts

/-!
# What diversity is measured on

`_allocate` hands MMR a similarity function and the keys of the candidates, so similarity is measured on identifiers where it was meant for texts. The order is the intended one for every similarity function only where similarity has no influence: if `mmr_lambda` is one, or at most one candidate is ranked.

Identifiers count in one more way: the blocks show them, so a longer one costs more. Under a renaming the same items are packed if the blocks cost the same, or if all of them fit.
-/

namespace ContextProxy

open List

/-! ### Renamed keys -/

section Rename

variable {F : Type} [Score F] {naming : String → String}

def renameRank (naming : String → String) (rank : Rank F) : Rank F :=
  toLex ((ofLex rank).1, toLex ((ofLex (ofLex rank).2).1, naming (ofLex (ofLex rank).2).2))

theorem renameRank_lt_iff (hmono : StrictMono naming) (a b : Rank F) : renameRank naming a < renameRank naming b ↔ a < b := by
  simp only [renameRank, Prod.Lex.lt_iff, ofLex_toLex, hmono.lt_iff_lt]

variable {rank rank' : F × String → Rank F}

theorem betterRank_rename (hmono : StrictMono naming)
    (hrank : ∀ pair, rank' (pair.1, naming pair.2) = renameRank naming (rank pair)) (best : Option (Rank F × String))
    (pair : F × String) : betterRank rank' (best.map fun b => (renameRank naming b.1, naming b.2)) (pair.1, naming pair.2)
      = (betterRank rank best pair).map fun b => (renameRank naming b.1, naming b.2) := by
  cases best with
  | none => simp [betterRank, hrank]
  | some b =>
    simp only [betterRank, Option.map_some, hrank, renameRank_lt_iff hmono]
    split
    · rfl
    · rfl

theorem bestRank_rename (hmono : StrictMono naming)
    (hrank : ∀ pair, rank' (pair.1, naming pair.2) = renameRank naming (rank pair)) (remaining : List (F × String)) :
    bestRank rank' (remaining.map fun pair => (pair.1, naming pair.2))
      = (bestRank rank remaining).map fun b => (renameRank naming b.1, naming b.2) := by
  have hfold : ∀ best, (remaining.map fun pair => (pair.1, naming pair.2)).foldl (betterRank rank')
      (Option.map (fun b => (renameRank naming b.1, naming b.2)) best)
        = (remaining.foldl (betterRank rank) best).map fun b => (renameRank naming b.1, naming b.2) := by
    induction remaining with
    | nil => exact fun _ => rfl
    | cons pair remaining ih =>
      intro best
      rw [map_cons, foldl_cons, foldl_cons, betterRank_rename hmono hrank, ih]
  exact hfold none

theorem mmrLoop_rename (hmono : StrictMono naming) {similarity similarity' : String → String → F} {lam : F}
    (hrank : ∀ selected pair, mmrRank similarity' lam (selected.map naming) (pair.1, naming pair.2)
      = renameRank naming (mmrRank similarity lam selected pair))
    (limit : ℤ) (fuel : ℕ) (remaining : List (F × String)) (selected : List String) :
    mmrLoop similarity' limit lam fuel (remaining.map fun pair => (pair.1, naming pair.2)) (selected.map naming)
      = (mmrLoop similarity limit lam fuel remaining selected).map naming := by
  induction fuel generalizing remaining selected with
  | zero => rfl
  | succ fuel ih =>
    simp only [mmrLoop, ne_eq, map_eq_nil_iff, length_map]
    split
    · rw [bestRank_rename hmono (hrank selected)]
      cases bestRank (mmrRank similarity lam selected) remaining with
      | none => rfl
      | some best =>
        have hfilter : (remaining.map fun pair => (pair.1, naming pair.2)).filter (·.2 ≠ naming best.2)
            = (remaining.filter (·.2 ≠ best.2)).map fun pair => (pair.1, naming pair.2) := by
          rw [filter_map]
          congr 1
          apply filter_congr
          intro pair _
          simp [hmono.injective.eq_iff]
        have hnext := ih (remaining.filter (·.2 ≠ best.2)) (selected ++ [best.2])
        rw [map_append, map_singleton] at hnext
        simp only [Option.map_some]
        rw [hfilter, hnext]
    · rfl

theorem sort_rename (hmono : StrictMono naming) (scored : List (F × String)) :
    ((scored.map fun pair => (pair.1, naming pair.2)).insertionSort fun a b => relevanceRank a ≤ relevanceRank b)
      = (scored.insertionSort fun a b => relevanceRank a ≤ relevanceRank b).map fun pair => (pair.1, naming pair.2) := by
  symm
  apply map_insertionSort
  intro a _ b _
  simp only [relevanceRank, Prod.Lex.toLex_le_toLex, hmono.le_iff_le]

end Rename

/-! ### Where similarity has no influence -/

theorem mmrLoop_of_full {F : Type} [Score F] {similarity : String → String → F} {limit : ℤ} {lam : F} {fuel : ℕ}
    {remaining : List (F × String)} {selected : List String} (h : limit ≤ selected.length) :
    mmrLoop similarity limit lam fuel remaining selected = selected := by
  cases fuel with
  | zero => rfl
  | succ fuel => exact if_neg fun hmore => absurd hmore.2 (Int.not_lt.mpr h)

theorem mmrRank_one (similarity : String → String → ℚ) (selected : List String) (pair : ℚ × String) :
    mmrRank similarity 1 selected pair = toLex (-pair.1, toLex (-pair.1, pair.2)) := by
  rw [mmrRank]
  congr 2
  rw [one_mul, sub_self, zero_mul, sub_zero]

/-- With a weight of one, or for a single place, the selection depends on the scores and the order of the keys alone. -/
theorem mmrSelect_rename {naming : String → String} (hmono : StrictMono naming) {lam : ℚ} {limit : ℤ}
    (h : lam = 1 ∨ limit ≤ 1) (similarity similarity' : String → String → ℚ) (scored : List (ℚ × String)) :
    mmrSelect (scored.map fun pair => (pair.1, naming pair.2)) similarity' limit lam
      = (mmrSelect scored similarity limit lam).map naming := by
  rw [mmrSelect, mmrSelect, sort_rename hmono]
  split
  · rfl
  · cases scored.insertionSort fun a b => relevanceRank a ≤ relevanceRank b with
    | nil => rfl
    | cons first remaining =>
      simp only [map_cons, length_map]
      rcases h with rfl | hlimit
      · apply mmrLoop_rename hmono _ limit remaining.length remaining [first.2]
        intro selected pair
        rw [mmrRank_one, mmrRank_one]
        rfl
      · rw [mmrLoop_of_full (by simpa using hlimit), mmrLoop_of_full (by simpa using hlimit)]
        rfl

/-! ### The order in which candidates are considered -/

section Order

variable {F : Type}

def textUnder (retrieval : List (Candidate F)) (key : String) : String := ((byKey retrieval key).map (·.text)).getD ""

namespace ContextAssemblyEngine

def onTexts (engine : ContextAssemblyEngine F) (retrieval : List (Candidate F)) : ContextAssemblyEngine F :=
  { engine with similarity := fun a b => engine.similarity (textUnder retrieval a) (textUnder retrieval b) }

/-- The candidates in the order in which the packing loop goes through them. -/
def considered [Score F] (engine : ContextAssemblyEngine F) (kept : List (Candidate F)) : List (Candidate F) :=
  engine.ranked (engine.scores kept) (kept.filter Candidate.isOptional)

def MeasuresTexts [Score F] (engine : ContextAssemblyEngine F) (rt : Runtime) (input : BuildInput F) : Prop :=
  ∀ candidates, fuseCandidates rt input = .ok candidates →
    let kept := (prepare candidates input.supersededMemoryIds input.conversationId).kept
    0 < engine.leftOver kept → engine.considered kept = (engine.onTexts (kept.filter Candidate.isOptional)).considered kept

end ContextAssemblyEngine

def BuildInput.rename (naming : String → String) (input : BuildInput F) : BuildInput F :=
  { input with
    retrieved := input.retrieved.map fun item => { item with id := naming item.id }
    supersededMemoryIds := input.supersededMemoryIds.map naming }

/-- The blocks cost the same under the other identifiers. -/
def BuildInput.SameCosts (rt : Runtime) (naming : String → String) (input : BuildInput F) : Prop :=
  ∀ item ∈ input.retrieved,
    messageTokens rt ({ item with id := naming item.id } : RetrievedItem F).block = messageTokens rt item.block

/-- Under other identifiers the same candidates are considered in the same order. -/
def ContextAssemblyEngine.ConsidersRenamed [Score F] (engine : ContextAssemblyEngine F) (rt : Runtime) (input : BuildInput F)
    (naming : String → String) : Prop :=
  ∀ candidates candidates', fuseCandidates rt input = .ok candidates →
    fuseCandidates rt (input.rename naming) = .ok candidates' →
    let kept := (prepare candidates input.supersededMemoryIds input.conversationId).kept
    let kept' := (prepare candidates' (input.supersededMemoryIds.map naming) input.conversationId).kept
    0 < engine.leftOver kept → (engine.considered kept').map (·.key) = ((engine.considered kept).map (·.key)).map naming

/-- Under other identifiers the same items are selected in the same order. -/
def ContextAssemblyEngine.FollowsRenaming [Score F] (engine : ContextAssemblyEngine F) (rt : Runtime) (input : BuildInput F)
    (naming : String → String) : Prop :=
  ∀ candidates candidates', fuseCandidates rt input = .ok candidates →
    fuseCandidates rt (input.rename naming) = .ok candidates' →
    let kept := (prepare candidates input.supersededMemoryIds input.conversationId).kept
    let kept' := (prepare candidates' (input.supersededMemoryIds.map naming) input.conversationId).kept
    (engine.picked (engine.scores kept') kept').map (·.key) = ((engine.picked (engine.scores kept) kept).map (·.key)).map naming

/-! ### Renaming through the stages -/

structure Candidate.Renamed (naming : String → String) (c c' : Candidate F) : Prop where
  retrieval : c.isOptional = true
  source : c'.source = c.source
  key : c'.key = naming c.key
  components : c'.components = c.components
  dedupText : c'.dedupText = c.dedupText
  conversationId : c'.conversationId = c.conversationId

variable {naming : String → String} {R : Candidate F → Candidate F → Prop} {raw ret ret' : List (Candidate F)}

/-- Raw candidates, followed by retrieved ones that correspond to each other. -/
def Corresponds (R : Candidate F → Candidate F → Prop) (raw cs cs' : List (Candidate F)) : Prop :=
  ∃ ret ret', cs = raw ++ ret ∧ cs' = raw ++ ret' ∧ List.Forall₂ R ret ret'

namespace Candidate.Renamed

variable {c c' : Candidate F}

theorem isOptional (h : c.Renamed naming c') : c'.isOptional = true := by
  rw [isOptional_iff, h.source]
  exact isOptional_iff.mp h.retrieval

theorem not_isRaw (h : c.Renamed naming c') : c.isRaw = false := by
  rw [← Bool.not_eq_true, isRaw_iff]
  intro hraw
  rcases isOptional_iff.mp h.retrieval with hsource | hsource
  · exact hraw.1 hsource
  · exact hraw.2 hsource

theorem isSuperseded_eq (h : c.Renamed naming c') (hinj : Function.Injective naming) (ids : List String) :
    isSuperseded (ids.map naming) c' = isSuperseded ids c := by
  rw [isSuperseded, isSuperseded, h.source, h.key]
  congr 1
  rw [Bool.eq_iff_iff, contains_iff_mem, contains_iff_mem, mem_map_of_injective hinj]

theorem isForeign_eq (h : c.Renamed naming c') (conversationId : Option String) :
    isForeign conversationId c' = isForeign conversationId c := by
  rw [isForeign, isForeign, isRetrieval, isRetrieval, h.source, h.conversationId]

theorem relevanceScore_eq [Score F] (h : c.Renamed naming c') (engine : ContextAssemblyEngine F) :
    engine.relevanceScore c' = engine.relevanceScore c := by
  rw [ContextAssemblyEngine.relevanceScore, ContextAssemblyEngine.relevanceScore, h.source, h.components]

end Candidate.Renamed

variable {cs cs' : List (Candidate F)} {c c' : Candidate F} {input : BuildInput F} {rt : Runtime}

theorem Corresponds.filter (h : Corresponds R raw cs cs') {p q : Candidate F → Bool} (hp : ∀ c ∈ raw, p c = true)
    (hq : ∀ c ∈ raw, q c = true) (hpq : ∀ c c', R c c' → q c' = p c) :
    Corresponds R raw (cs.filter p) (cs'.filter q) := by
  obtain ⟨ret, ret', rfl, rfl, hret⟩ := h
  refine ⟨ret.filter p, ret'.filter q, ?_, ?_, ?_⟩
  · rw [filter_append, filter_eq_self.mpr hp]
  · rw [filter_append, filter_eq_self.mpr hq]
  · apply rel_filter _ hret
    intro c c' hc
    show p c = true ↔ q c' = true
    rw [hpq c c' hc]

structure Deduplication.Corresponds (R : Candidate F → Candidate F → Prop) (raw : List (Candidate F))
    (st st' : Deduplication F) : Prop where
  seenRaw : st'.seenRaw = st.seenRaw
  seenRetrieval : st'.seenRetrieval = st.seenRetrieval
  kept : ContextProxy.Corresponds R raw st.kept st'.kept

theorem Corresponds.concat (h : Corresponds R raw cs cs') (hc : R c c') : Corresponds R raw (cs ++ [c]) (cs' ++ [c']) := by
  obtain ⟨ret, ret', rfl, rfl, hret⟩ := h
  exact ⟨ret ++ [c], ret' ++ [c'], append_assoc .., append_assoc ..,
    rel_append hret (.cons hc .nil)⟩

theorem dedupStep_corresponds (hR : ∀ c c', R c c' → c.Renamed naming c') {st st' : Deduplication F}
    (h : st.Corresponds R raw st') (hc : R c c') : (dedupStep st c).Corresponds R raw (dedupStep st' c') := by
  have hrenamed := hR c c' hc
  have hraw : c'.isRaw = c.isRaw := by rw [Candidate.isRaw, Candidate.isRaw, Candidate.tier, Candidate.tier, hrenamed.source]
  rw [dedupStep, dedupStep, hraw, hrenamed.not_isRaw, hrenamed.dedupText, h.seenRaw, h.seenRetrieval,
    if_neg Bool.false_ne_true, if_neg Bool.false_ne_true]
  cases c.dedupText with
  | none => exact ⟨rfl, rfl, h.kept.concat hc⟩
  | some text =>
    by_cases hempty : text = ""
    · simp only [if_pos hempty]
      exact ⟨rfl, rfl, h.kept.concat hc⟩
    · simp only [if_neg hempty]
      split
      · exact ⟨rfl, rfl, h.kept⟩
      · exact ⟨rfl, rfl, h.kept.concat hc⟩

theorem deduplicate_of_raw (hraw : ∀ c ∈ raw, c.isRaw = true) : (deduplicate raw).kept = raw := by
  have hremoves := deduplicate_removesRetrieved raw
  have hall : (deduplicate raw).kept.filter Candidate.isRaw = raw := by
    rw [hremoves.raw, filter_eq_self.mpr hraw]
  apply hremoves.sublist.eq_of_length_le
  calc raw.length = ((deduplicate raw).kept.filter Candidate.isRaw).length := by rw [hall]
    _ ≤ (deduplicate raw).kept.length := length_filter_le _ _

theorem deduplicate_corresponds (hR : ∀ c c', R c c' → c.Renamed naming c') (hraw : ∀ c ∈ raw, c.isRaw = true)
    (h : Corresponds R raw cs cs') : Corresponds R raw (deduplicate cs).kept (deduplicate cs').kept := by
  obtain ⟨ret, ret', rfl, rfl, hret⟩ := h
  have hstart : (deduplicate raw).Corresponds R raw (deduplicate raw) :=
    ⟨rfl, rfl, [], [], by simp [deduplicate_of_raw hraw], by simp [deduplicate_of_raw hraw], .nil⟩
  rw [deduplicate, deduplicate, foldl_append, foldl_append]
  -- the loop meets the same raw candidates first, and is then in corresponding states
  have hfold := rel_foldl (P := Deduplication.Corresponds R raw) (R := R)
    (fun _ _ hst _ _ hc => dedupStep_corresponds hR hst hc) hstart hret
  exact hfold.kept

theorem prepare_corresponds (hinj : Function.Injective naming) (hR : ∀ c c', R c c' → c.Renamed naming c')
    (hraw : ∀ c ∈ raw, c.isRaw = true) (h : Corresponds R raw cs cs') (ids : List String) (conversationId : Option String) :
    Corresponds R raw (prepare cs ids conversationId).kept (prepare cs' (ids.map naming) conversationId).kept := by
  have hsuperseded : ∀ ids', ∀ c ∈ raw, (!isSuperseded ids' c) = true := by
    intro ids' c hc
    have hsource := (Candidate.isRaw_iff.mp (hraw c hc)).1
    simp [isSuperseded, hsource]
  have hforeign : ∀ c ∈ raw, (!isForeign conversationId c) = true := by
    intro c hc
    obtain ⟨hmemory, hchunk⟩ := Candidate.isRaw_iff.mp (hraw c hc)
    simp [isForeign, Candidate.isRetrieval, hmemory, hchunk]
  apply deduplicate_corresponds hR hraw
  apply Corresponds.filter _ hforeign hforeign
  · intro c c' hc
    rw [(hR c c' hc).isForeign_eq]
  · apply h.filter (hsuperseded ids) (hsuperseded _)
    intro c c' hc
    rw [(hR c c' hc).isSuperseded_eq hinj]

/-! ### Renaming in allocation -/

theorem byKey_append (cs ds : List (Candidate F)) (key : String) :
    byKey (cs ++ ds) key = (byKey ds key).or (byKey cs key) := by
  rw [byKey, reverse_append, find?_append, byKey, byKey]

theorem byKey_renamed (hinj : Function.Injective naming) (hR : ∀ c c', R c c' → c.Renamed naming c')
    (hret : List.Forall₂ R ret ret') (key : String) : Option.Rel R (byKey ret key) (byKey ret' (naming key)) := by
  rw [byKey, byKey]
  have hreverse := rel_reverse hret
  generalize ret.reverse = cs, ret'.reverse = cs' at hreverse
  induction hreverse with
  | nil => exact .none
  | cons hc _ ih =>
    rename_i c c' _ _ _
    rw [find?_cons, find?_cons, (hR c c' hc).key]
    by_cases hkey : c.key = key
    · simpa [hkey] using Option.Rel.some hc
    · simpa [hkey, hinj.eq_iff] using ih

theorem filter_isOptional_append (hraw : ∀ c ∈ raw, c.isRaw = true) (hret : ∀ c ∈ ret, c.isOptional = true) :
    (raw ++ ret).filter Candidate.isOptional = ret := by
  have hnone : raw.filter Candidate.isOptional = [] := by
    rw [filter_eq_nil_iff]
    intro c hc hoptional
    obtain ⟨hmemory, hchunk⟩ := Candidate.isRaw_iff.mp (hraw c hc)
    exact (Candidate.isOptional_iff.mp hoptional).elim hmemory hchunk
  rw [filter_append, hnone, filter_eq_self.mpr hret, nil_append]

theorem leftOver_append (engine : ContextAssemblyEngine F) (hret : ∀ c ∈ ret, c.isOptional = true) :
    engine.leftOver (raw ++ ret) = engine.leftOver raw := by
  have hnone : ∀ p : Candidate F → Bool, (∀ c, p c = true → c.isOptional = false) →
      (raw ++ ret).filter p = raw.filter p := by
    intro p hp
    have hempty : ret.filter p = [] := by
      rw [filter_eq_nil_iff]
      intro c hc hpc
      exact absurd (hret c hc) (by rw [hp c hpc]; exact Bool.false_ne_true)
    rw [filter_append, hempty, append_nil]
  have htools := hnone Candidate.isTools fun c h => by simp [Candidate.isOptional, h]
  have hmandatory := hnone Candidate.isMandatory fun c h => by simp [Candidate.isOptional, h]
  have hrecent := hnone Candidate.isRecent fun c h => by simp [Candidate.isOptional, h]
  rw [ContextAssemblyEngine.leftOver, ContextAssemblyEngine.leftOver, ContextAssemblyEngine.keptRecent,
    ContextAssemblyEngine.keptRecent, mandatoryCost, mandatoryCost, toolsCost, toolsCost, htools, hmandatory, hrecent]

theorem isOptional_left (hR : ∀ c c', R c c' → c.Renamed naming c') (hret : List.Forall₂ R ret ret') :
    ∀ c ∈ ret, c.isOptional = true := by
  intro c hc
  obtain ⟨c', -, h⟩ := exists_right_of_forall₂ hret hc
  exact (hR c c' h).retrieval

theorem isOptional_right (hR : ∀ c c', R c c' → c.Renamed naming c') (hret : List.Forall₂ R ret ret') :
    ∀ c' ∈ ret', c'.isOptional = true := by
  intro c' hc'
  obtain ⟨c, -, h⟩ := exists_left_of_forall₂ hret hc'
  exact (hR c c' h).isOptional

theorem scores_renamed [Score F] (engine : ContextAssemblyEngine F) (hinj : Function.Injective naming)
    (hR : ∀ c c', R c c' → c.Renamed naming c') (hret : List.Forall₂ R ret ret') (hc : c ∈ ret) :
    engine.scores (raw ++ ret') (naming c.key) = engine.scores (raw ++ ret) c.key := by
  have hfound : (byKey ret c.key).isSome := by
    rw [byKey, find?_isSome]
    exact ⟨c, mem_reverse.mpr hc, by simp⟩
  obtain ⟨d, hd⟩ := Option.isSome_iff_exists.mp hfound
  have hrel := byKey_renamed hinj hR hret c.key
  rw [hd] at hrel
  rw [ContextAssemblyEngine.scores, ContextAssemblyEngine.scores, byKey_append, byKey_append, hd]
  generalize hd' : byKey ret' (naming c.key) = found at hrel ⊢
  cases hrel with
  | some h => simp [(hR _ _ h).relevanceScore_eq engine]

theorem scored_renamed [Score F] (engine : ContextAssemblyEngine F) (hinj : Function.Injective naming)
    (hR : ∀ c c', R c c' → c.Renamed naming c') (hret : List.Forall₂ R ret ret') :
    ret'.map (fun c => (engine.scores (raw ++ ret') c.key, c.key))
      = (ret.map fun c => (engine.scores (raw ++ ret) c.key, c.key)).map fun pair => (pair.1, naming pair.2) := by
  have hscores : ∀ c ∈ ret, engine.scores (raw ++ ret') (naming c.key) = engine.scores (raw ++ ret) c.key :=
    fun c hc => scores_renamed engine hinj hR hret hc
  generalize engine.scores (raw ++ ret') = scores' at hscores ⊢
  generalize engine.scores (raw ++ ret) = scores at hscores ⊢
  induction hret with
  | nil => rfl
  | cons hc _ ih =>
    obtain ⟨hscore, hrest⟩ := forall_mem_cons.mp hscores
    rw [map_cons, map_cons, map_cons, ih hrest, (hR _ _ hc).key, hscore]

def RenamedIn (rt : Runtime) (input : BuildInput F) (naming : String → String) (c c' : Candidate F) : Prop :=
  c.Renamed naming c' ∧ (input.SameCosts rt naming → c'.tokens = c.tokens)

theorem candidateFromRetrieved_renamed {item : RetrievedItem F} (hitem : item ∈ input.retrieved)
    (h : candidateFromRetrieved rt item = .ok c)
    (h' : candidateFromRetrieved rt { item with id := naming item.id } = .ok c') : RenamedIn rt input naming c c' := by
  obtain ⟨text, htext, h⟩ := bind_eq_ok.mp h
  obtain ⟨tokens, htokens, h⟩ := bind_eq_ok.mp h
  obtain ⟨_, -, h⟩ := bind_eq_ok.mp h
  obtain ⟨text', htext', h'⟩ := bind_eq_ok.mp h'
  obtain ⟨tokens', htokens', h'⟩ := bind_eq_ok.mp h'
  obtain ⟨_, -, h'⟩ := bind_eq_ok.mp h'
  rw [pure_eq_ok] at h h'
  subst h h'
  obtain rfl : text' = text := Except.ok.inj (htext'.symm.trans htext)
  refine ⟨⟨?_, rfl, rfl, rfl, rfl, rfl⟩, ?_⟩
  · rw [Candidate.isOptional_iff]
    cases item.itemType with
    | chunk => exact .inr rfl
    | memory => exact .inl rfl
  · intro hcosts
    exact Except.ok.inj (htokens'.symm.trans ((hcosts item hitem).trans htokens))

variable {candidates : List (Candidate F)}

theorem fuseCandidates_split (h : fuseCandidates rt input = .ok candidates) :
    ∃ raw retrieved, fuseCandidates rt { input with retrieved := [] } = .ok raw ∧
      List.Forall₂ (fun item c => candidateFromRetrieved rt item = .ok c) input.retrieved retrieved ∧
      candidates = raw ++ retrieved := by
  obtain ⟨units, hunits, h⟩ := bind_eq_ok.mp h
  obtain ⟨fromUnits, hfrom, h⟩ := bind_eq_ok.mp h
  obtain ⟨request, hrequest, h⟩ := bind_eq_ok.mp h
  obtain ⟨pinned, hpinned, h⟩ := bind_eq_ok.mp h
  obtain ⟨retrieved, hretrieved, h⟩ := bind_eq_ok.mp h
  rw [pure_eq_ok] at h
  refine ⟨fromUnits ++ request ++ toolsCandidates rt input.tools ++ pinned, retrieved, ?_, mapM_eq_ok.mp hretrieved,
    h.symm⟩
  refine bind_eq_ok.mpr ⟨units, hunits, bind_eq_ok.mpr ⟨fromUnits, hfrom, bind_eq_ok.mpr ⟨request, hrequest,
    bind_eq_ok.mpr ⟨pinned, hpinned, bind_eq_ok.mpr ⟨[], rfl, ?_⟩⟩⟩⟩⟩
  rw [append_nil]
  rfl

theorem isRaw_of_fused {raw : List (Candidate F)} (h : fuseCandidates rt { input with retrieved := [] } = .ok raw)
    (hc : c ∈ raw) : c.isRaw = true := by
  obtain ⟨units, fromUnits, request, pinned, retrieved, fused, rfl⟩ := fuseCandidates_eq_ok h
  rw [forall₂_nil_left_iff.mp fused.ofRetrieved, append_nil] at hc
  exact fused.isRaw hc

theorem fuseCandidates_renamed {candidates' : List (Candidate F)} (h : fuseCandidates rt input = .ok candidates)
    (h' : fuseCandidates rt (input.rename naming) = .ok candidates') :
    ∃ raw, (∀ c ∈ raw, c.isRaw = true) ∧ Corresponds (RenamedIn rt input naming) raw candidates candidates' := by
  obtain ⟨raw, ret, hfused, hret, rfl⟩ := fuseCandidates_split h
  obtain ⟨raw', ret', hfused', hret', rfl⟩ := fuseCandidates_split h'
  -- fusion does not read the identifiers that are superseded, so the two raw parts come from one computation
  obtain rfl : raw' = raw := Except.ok.inj (hfused'.symm.trans hfused)
  refine ⟨raw', fun c hc => isRaw_of_fused hfused hc, ret, ret', rfl, rfl, ?_⟩
  rw [BuildInput.rename, forall₂_map_left_iff] at hret'
  exact forall₂_of_common hret hret' fun item hitem c c' h h' => candidateFromRetrieved_renamed hitem h h'

end Order

section Exact

variable {naming : String → String} {R : Candidate ℚ → Candidate ℚ → Prop} {raw ret ret' : List (Candidate ℚ)}

theorem considered_renamed (engine : ContextAssemblyEngine ℚ) (hmono : StrictMono naming)
    (h : engine.settings.mmrLambda = 1 ∨ engine.settings.maxRetrievedItems ≤ 1)
    (hR : ∀ c c', R c c' → c.Renamed naming c') (hraw : ∀ c ∈ raw, c.isRaw = true) (hret : List.Forall₂ R ret ret') :
    List.Forall₂ R (engine.considered (raw ++ ret)) (engine.considered (raw ++ ret')) := by
  have hlimit : engine.settings.mmrLambda = 1 ∨
      ((min engine.settings.maxRetrievedItems ret.length : ℕ) : ℤ) ≤ 1 := h.imp_right fun h => by omega
  rw [ContextAssemblyEngine.considered, ContextAssemblyEngine.considered,
    filter_isOptional_append hraw (isOptional_left hR hret), filter_isOptional_append hraw (isOptional_right hR hret),
    ContextAssemblyEngine.ranked, ContextAssemblyEngine.ranked, ← hret.length_eq,
    scored_renamed engine hmono.injective hR hret, mmrSelect_rename hmono hlimit engine.similarity]
  refine rel_filterMap (R := fun key key' => key' = naming key) ?_ ?_
  · rintro key key' rfl
    exact byKey_renamed hmono.injective hR hret key
  · rw [forall₂_map_right_iff]
    exact forall₂_same.mpr fun _ _ => rfl

/-- Without influence of the similarity, the packed candidates follow a renaming that leaves their costs alone. -/
theorem picked_renamed (engine : ContextAssemblyEngine ℚ) (hmono : StrictMono naming)
    (h : engine.settings.mmrLambda = 1 ∨ engine.settings.maxRetrievedItems ≤ 1)
    (hR : ∀ c c', R c c' → c.Renamed naming c') (hcost : ∀ c c', R c c' → c'.tokens = c.tokens)
    (hraw : ∀ c ∈ raw, c.isRaw = true) (hret : List.Forall₂ R ret ret') :
    List.Forall₂ R (engine.picked (engine.scores (raw ++ ret)) (raw ++ ret))
      (engine.picked (engine.scores (raw ++ ret')) (raw ++ ret')) := by
  have hleft := isOptional_left hR hret
  have hright := isOptional_right hR hret
  have hconsidered := considered_renamed engine hmono h hR hraw hret
  rw [ContextAssemblyEngine.considered, ContextAssemblyEngine.considered, filter_isOptional_append hraw hleft,
    filter_isOptional_append hraw hright] at hconsidered
  have hnil : ret ≠ [] ↔ ret' ≠ [] := by
    rw [← length_pos_iff, ← length_pos_iff, hret.length_eq]
  rw [ContextAssemblyEngine.picked, ContextAssemblyEngine.picked, filter_isOptional_append hraw hleft,
    filter_isOptional_append hraw hright, leftOver_append engine hleft, leftOver_append engine hright,
    ContextAssemblyEngine.pickRetrieved, ContextAssemblyEngine.pickRetrieved]
  simp only [hnil]
  split
  · exact packUnder_forall₂ hcost _ 0 hconsidered
  · exact .nil

theorem keys_renamed (hR : ∀ c c', R c c' → c.Renamed naming c') {cs cs' : List (Candidate ℚ)}
    (h : List.Forall₂ R cs cs') : cs'.map (·.key) = (cs.map (·.key)).map naming := by
  induction h with
  | nil => rfl
  | cons hc _ ih => rw [map_cons, map_cons, map_cons, ih, (hR _ _ hc).key]

theorem measuresTexts_of_indifferent (engine : ContextAssemblyEngine ℚ) (rt : Runtime) (input : BuildInput ℚ)
    (h : engine.settings.mmrLambda = 1 ∨ engine.settings.maxRetrievedItems ≤ 1) : engine.MeasuresTexts rt input := by
  intro candidates _ kept _
  have hlimit : engine.settings.mmrLambda = 1 ∨
      ((min engine.settings.maxRetrievedItems (kept.filter Candidate.isOptional).length : ℕ) : ℤ) ≤ 1 :=
    h.imp_right fun h => by omega
  have hselect := mmrSelect_rename strictMono_id hlimit engine.similarity
    (engine.onTexts (kept.filter Candidate.isOptional)).similarity
    ((kept.filter Candidate.isOptional).map fun c => (engine.scores kept c.key, c.key))
  simp only [id_eq, Prod.mk.eta, map_id', map_id] at hselect
  exact congrArg (List.filterMap (byKey (kept.filter Candidate.isOptional))) hselect.symm

variable {candidates : List (Candidate ℚ)} {engine : ContextAssemblyEngine ℚ} {lam : ℚ}

theorem exists_renamed {rt : Runtime} {input : BuildInput ℚ} {candidates' : List (Candidate ℚ)}
    (hmono : StrictMono naming) (h : fuseCandidates rt input = .ok candidates)
    (h' : fuseCandidates rt (input.rename naming) = .ok candidates') :
    ∃ raw, (∀ c ∈ raw, c.isRaw = true) ∧ Corresponds (RenamedIn rt input naming) raw
      (prepare candidates input.supersededMemoryIds input.conversationId).kept
      (prepare candidates' (input.supersededMemoryIds.map naming) input.conversationId).kept := by
  obtain ⟨raw, hraw, hcorresponds⟩ := fuseCandidates_renamed h h'
  exact ⟨raw, hraw, prepare_corresponds hmono.injective (fun _ _ hc => hc.1) hraw hcorresponds _ _⟩

theorem considersRenamed_of_indifferent (engine : ContextAssemblyEngine ℚ) (rt : Runtime) (input : BuildInput ℚ)
    (h : engine.settings.mmrLambda = 1 ∨ engine.settings.maxRetrievedItems ≤ 1) (hmono : StrictMono naming) :
    engine.ConsidersRenamed rt input naming := by
  intro candidates candidates' hfused hfused'
  obtain ⟨raw, hraw, ret, ret', hkept, hkept', hret⟩ := exists_renamed hmono hfused hfused'
  dsimp only
  rw [hkept, hkept']
  exact fun _ => keys_renamed (fun _ _ hc => hc.1) (considered_renamed engine hmono h (fun _ _ hc => hc.1) hraw hret)

/-- If everything retrieved fits, what is considered is selected. -/
theorem picked_of_roomy {rt : Runtime} {input : BuildInput ℚ} (h : engine.Roomy rt input)
    (hfused : fuseCandidates rt input = .ok candidates) (ids : List String) (conversationId : Option String) :
    engine.picked (engine.scores (prepare candidates ids conversationId).kept) (prepare candidates ids conversationId).kept
      = engine.considered (prepare candidates ids conversationId).kept := by
  obtain ⟨units, fromUnits, request, pinned, retrieved, fused, rfl⟩ := fuseCandidates_eq_ok hfused
  exact h.picked_eq fused (prepare_removesRetrieved _ _ _) _

theorem followsRenaming_of_indifferent (engine : ContextAssemblyEngine ℚ) (rt : Runtime) (input : BuildInput ℚ)
    (h : engine.settings.mmrLambda = 1 ∨ engine.settings.maxRetrievedItems ≤ 1) (hmono : StrictMono naming)
    (hcosts : input.SameCosts rt naming ∨ engine.Roomy rt input ∧ engine.Roomy rt (input.rename naming)) :
    engine.FollowsRenaming rt input naming := by
  intro candidates candidates' hfused hfused'
  obtain ⟨raw, hraw, ret, ret', hkept, hkept', hret⟩ := exists_renamed hmono hfused hfused'
  dsimp only
  rcases hcosts with hcosts | ⟨hroomy, hroomy'⟩
  · rw [hkept, hkept']
    exact keys_renamed (fun _ _ hc => hc.1)
      (picked_renamed engine hmono h (fun _ _ hc => hc.1) (fun _ _ hc => hc.2 hcosts) hraw hret)
  · rw [picked_of_roomy hroomy hfused, picked_of_roomy hroomy' hfused', hkept, hkept']
    exact keys_renamed (fun _ _ hc => hc.1) (considered_renamed engine hmono h (fun _ _ hc => hc.1) hraw hret)

/-! ### A similarity that tells identifiers from texts -/

theorem isPrefix_mmrLoop {similarity : String → String → ℚ} {limit : ℤ} {fuel : ℕ} {remaining : List (ℚ × String)}
    {selected : List String} : selected <+: mmrLoop similarity limit lam fuel remaining selected := by
  induction fuel generalizing remaining selected with
  | zero => exact prefix_rfl
  | succ fuel ih =>
    rw [mmrLoop]
    split
    · split
      · exact prefix_rfl
      · exact (prefix_append _ _).trans ih
    · exact prefix_rfl

theorem mmrSelect_three {a b c : String} (hab : a < b) (hbc : b < c) (similarity : String → String → ℚ) {limit : ℤ}
    (hlimit : 2 ≤ limit) (lam : ℚ) : [a, if (1 - lam) * similarity c a < (1 - lam) * similarity b a then c else b]
      <+: mmrSelect [(0, a), (0, b), (0, c)] similarity limit lam := by
  have hsorted : [((0 : ℚ), a), (0, b), (0, c)].insertionSort (fun p q => relevanceRank p ≤ relevanceRank q)
      = [(0, a), (0, b), (0, c)] := by
    apply List.Pairwise.insertionSort_eq
    simp [relevanceRank, Prod.Lex.toLex_le_toLex, hab.le, hbc.le, (hab.trans hbc).le]
  have hless : mmrRank similarity lam [a] (0, c) < mmrRank similarity lam [a] (0, b) ↔
      (1 - lam) * similarity c a < (1 - lam) * similarity b a := by
    have hkeys : ¬(toLex (-(0 : ℚ), c) < toLex (-(0 : ℚ), b)) := by
      rw [Prod.Lex.toLex_lt_toLex]
      exact fun h => h.elim (lt_irrefl _) fun h => lt_asymm hbc h.2
    rw [mmrRank, mmrRank, Prod.Lex.toLex_lt_toLex]
    simp only [hkeys, and_false, or_false]
    simp [maxOrZero]
  have hbest : (bestRank (mmrRank similarity lam [a]) [(0, b), (0, c)]).map Prod.snd
      = some (if (1 - lam) * similarity c a < (1 - lam) * similarity b a then c else b) := by
    simp only [bestRank, foldl_cons, foldl_nil, betterRank, hless]
    split <;> rfl
  obtain ⟨best, hsome, hkey⟩ := Option.map_eq_some_iff.mp hbest
  have hmore : (([a] : List String).length : ℤ) < limit := by
    rw [length_singleton]
    omega
  rw [← hkey, mmrSelect, if_neg (by omega), hsorted]
  show _ <+: mmrLoop similarity limit lam 2 [(0, b), (0, c)] [a]
  rw [mmrLoop, if_pos ⟨cons_ne_nil _ _, hmore⟩, hsome]
  exact isPrefix_mmrLoop

/-- An engine without weights. Its similarity tells the memory `b` from the memory `a` by their identifiers. -/
def byIdentifier (lam : ℚ) (maxItems : ℕ) : ContextAssemblyEngine ℚ where
  usable := 4096
  usable_pos := by decide
  settings := { mmrLambda := lam, maxRetrievedItems := maxItems, retrievedBudgetTokens := 4000 }
  weights := { semantic := 0, lexical := 0, recency := 0, importance := 0, type := 0 }
  similarity := fun x y => if x = "b" ∧ y = "a" then 1 - lam else 0
  round6 := id

def memoryItem (id content : String) : RetrievedItem ℚ :=
  { itemType := .memory, id, conversationId := "c1", kind := "fact", content }

def threeMemories : BuildInput ℚ where
  history := []
  currentRequest := []
  retrieved := [memoryItem "a" "tea", memoryItem "b" "milk", memoryItem "c" "sugar"]

theorem keys_considered (engine : ContextAssemblyEngine ℚ) (kept : List (Candidate ℚ)) :
    (engine.considered kept).map (·.key) = mmrSelect
      ((kept.filter Candidate.isOptional).map fun c => (engine.scores kept c.key, c.key)) engine.similarity
      (min engine.settings.maxRetrievedItems (kept.filter Candidate.isOptional).length : ℕ) engine.settings.mmrLambda := by
  rw [ContextAssemblyEngine.considered, ContextAssemblyEngine.ranked]
  generalize hselected : mmrSelect ((kept.filter Candidate.isOptional).map fun c => (engine.scores kept c.key, c.key))
    engine.similarity (min engine.settings.maxRetrievedItems (kept.filter Candidate.isOptional).length : ℕ)
    engine.settings.mmrLambda = selected
  have hfound : ∀ key ∈ selected, ∃ c, byKey (kept.filter Candidate.isOptional) key = some c := by
    intro key hkey
    rw [← hselected] at hkey
    exact ContextAssemblyEngine.exists_byKey_of_mem_mmrSelect hkey
  clear hselected
  induction selected with
  | nil => rfl
  | cons key selected ih =>
    obtain ⟨⟨c, hc⟩, hrest⟩ := forall_mem_cons.mp hfound
    rw [filterMap_cons_some hc, map_cons, key_of_byKey hc, ih hrest]

variable {kept : List (Candidate ℚ)} {maxItems : ℕ}

theorem scores_eq_zero (hweights : engine.weights = (byIdentifier 0 0).weights) (hround : engine.round6 = id)
    (h : ∀ c ∈ kept, c.source = .memory) (key : String) : engine.scores kept key = 0 := by
  rw [ContextAssemblyEngine.scores]
  cases hfound : byKey kept key with
  | none => rfl
  | some c =>
    have hsource := h c (mem_of_byKey hfound)
    simp [ContextAssemblyEngine.relevanceScore, hsource, baseScore, hround, hweights, byIdentifier]

theorem considered_three (engine : ContextAssemblyEngine ℚ) (hweights : engine.weights = (byIdentifier 0 0).weights)
    (hround : engine.round6 = id) (hmax : 2 ≤ engine.settings.maxRetrievedItems) (h : ∀ c ∈ kept, c.source = .memory)
    {a b c : String} (hkeys : kept.map (·.key) = [a, b, c]) (hab : a < b) (hbc : b < c) :
    [a, if (1 - engine.settings.mmrLambda) * engine.similarity c a
        < (1 - engine.settings.mmrLambda) * engine.similarity b a then c else b]
      <+: (engine.considered kept).map (·.key) := by
  have hoptional : kept.filter Candidate.isOptional = kept :=
    filter_eq_self.mpr fun c hc => Candidate.isOptional_iff.mpr (.inl (h c hc))
  have hscored : kept.map (fun c => (engine.scores kept c.key, c.key)) = [(0, a), (0, b), (0, c)] := by
    simp only [scores_eq_zero hweights hround h]
    calc kept.map (fun c => ((0 : ℚ), c.key)) = (kept.map (·.key)).map fun key => ((0 : ℚ), key) := by
          rw [map_map]
          rfl
      _ = _ := by rw [hkeys, map_cons, map_cons, map_cons, map_nil]
  have hlength : kept.length = 3 := by rw [← length_map, hkeys]; rfl
  rw [keys_considered, hoptional, hscored]
  apply mmrSelect_three hab hbc
  omega

theorem kept_threeMemories : ∃ candidates kept, fuseCandidates plainRuntime threeMemories = .ok candidates ∧
    (prepare candidates threeMemories.supersededMemoryIds threeMemories.conversationId).kept = kept ∧
    kept.map (·.key) = ["a", "b", "c"] ∧ (∀ c ∈ kept, c.source = .memory) ∧ textUnder kept "b" ≠ "b" := by
  refine ⟨_, _, rfl, rfl, ?_, ?_, ?_⟩
  · decide +kernel
  · decide +kernel
  · decide +kernel

theorem leftOver_of_memories (engine : ContextAssemblyEngine ℚ) (h : ∀ c ∈ kept, c.source = .memory) :
    0 < engine.leftOver kept := by
  have hoptional : ∀ c ∈ kept, c.isOptional = true := fun c hc => Candidate.isOptional_iff.mpr (.inl (h c hc))
  have hleft : engine.leftOver ([] ++ kept) = engine.leftOver [] := leftOver_append engine hoptional
  rw [← nil_append kept, hleft]
  exact engine.usable_pos

theorem considered_byIdentifier (hlam : lam ≠ 1) (hmax : 2 ≤ maxItems) (h : ∀ c ∈ kept, c.source = .memory)
    (hkeys : kept.map (·.key) = ["a", "b", "c"]) :
    ["a", "c"] <+: ((byIdentifier lam maxItems).considered kept).map (·.key) := by
  have hpos : 0 < (1 - lam) * (1 - lam) := mul_self_pos.mpr (sub_ne_zero.mpr hlam.symm)
  have hfirst := considered_three (byIdentifier lam maxItems) rfl rfl hmax h hkeys (by decide) (by decide)
  rwa [if_pos (by simpa [byIdentifier] using hpos)] at hfirst

/-- If the similarity counts, it is the identifiers that it is measured on. -/
theorem not_measuresTexts (hlam : lam ≠ 1) (hmax : 2 ≤ maxItems) :
    ¬(byIdentifier lam maxItems).MeasuresTexts plainRuntime threeMemories := by
  intro hmeasures
  obtain ⟨candidates, kept, hfused, hkept, hkeys, hsource, htext⟩ := kept_threeMemories
  have hsame := hmeasures candidates hfused
  dsimp only at hsame
  rw [hkept, filter_eq_self.mpr fun c hc => Candidate.isOptional_iff.mpr (.inl (hsource c hc))] at hsame
  have hids := considered_byIdentifier hlam hmax hsource hkeys
  rw [hsame (leftOver_of_memories _ hsource)] at hids
  have htexts := considered_three ((byIdentifier lam maxItems).onTexts kept) rfl rfl hmax hsource hkeys (by decide)
    (by decide)
  -- the text of `b` is not `b`, so that nothing is less similar to `a`
  have hzero : ((byIdentifier lam maxItems).onTexts kept).similarity "b" "a" = 0 := if_neg fun h => htext h.1
  have hnonneg : 0 ≤ (1 - lam) * ((byIdentifier lam maxItems).onTexts kept).similarity "c" "a" := by
    show 0 ≤ (1 - lam) * ite _ (1 - lam) 0
    split
    · exact mul_self_nonneg _
    · rw [mul_zero]
  rw [show ((byIdentifier lam maxItems).onTexts kept).settings.mmrLambda = lam from rfl, hzero, mul_zero,
    if_neg (not_lt.mpr hnonneg)] at htexts
  exact absurd (prefix_of_prefix_length_le hids htexts (by decide)) (by decide)

/-! ### A longer identifier -/

theorem strictMono_append (front : String) : StrictMono fun id : String => front ++ id := by
  intro x y h
  rw [String.lt_iff_toList_lt, String.toList_append, String.toList_append]
  exact append_left_lt (String.lt_iff_toList_lt.mp h)

def oneMemory : BuildInput ℚ where
  history := []
  currentRequest := []
  retrieved := [memoryItem "a" "tea"]

def exactRoom (lam : ℚ) (maxItems : ℕ) : ContextAssemblyEngine ℚ :=
  { byIdentifier lam maxItems with
    settings := {
      mmrLambda := lam
      maxRetrievedItems := maxItems
      retrievedBudgetTokens := tokensOf plainRuntime (memoryItem "a" "tea").block } }

theorem picked_singleton (engine : ContextAssemblyEngine ℚ) {c : Candidate ℚ} (hc : c.source = .memory)
    (hmax : 0 < engine.settings.maxRetrievedItems) : engine.picked (engine.scores [c]) [c]
      = if min (engine.leftOver [c]) engine.settings.retrievedBudgetTokens < c.tokens then [] else [c] := by
  have hoptional : [c].filter Candidate.isOptional = [c] := by simp [Candidate.isOptional_iff, hc]
  have hranked : engine.ranked (engine.scores [c]) [c] = [c] := by
    rw [ContextAssemblyEngine.ranked, length_singleton, Nat.min_eq_right hmax]
    simp [mmrSelect, mmrLoop, byKey]
  have hleft : 0 < engine.leftOver [c] := leftOver_of_memories engine (by simpa using hc)
  rw [ContextAssemblyEngine.picked, ContextAssemblyEngine.pickRetrieved, hoptional,
    if_pos ⟨cons_ne_nil _ _, hleft, hmax⟩, hranked]
  simp only [packUnder, Nat.zero_add, gt_iff_lt]
  split <;> rfl

/-- Where something can be retrieved, a longer identifier can cost it its place. -/
theorem not_followsRenaming (lam : ℚ) (hmax : 0 < maxItems) :
    ¬(exactRoom lam maxItems).FollowsRenaming plainRuntime oneMemory fun id => "aaaa" ++ id := by
  intro hfollows
  obtain ⟨candidates, c, hfused, hkept, hsource, htokens⟩ : ∃ candidates c,
      fuseCandidates plainRuntime oneMemory = .ok candidates ∧ (prepare candidates [] none).kept = [c] ∧
        c.source = .memory ∧ c.tokens = tokensOf plainRuntime (memoryItem "a" "tea").block :=
    ⟨_, _, rfl, rfl, rfl, rfl⟩
  obtain ⟨candidates', c', hfused', hkept', hsource', htokens'⟩ : ∃ candidates c,
      fuseCandidates plainRuntime (oneMemory.rename fun id => "aaaa" ++ id) = .ok candidates ∧
        (prepare candidates [] none).kept = [c] ∧ c.source = .memory ∧
        tokensOf plainRuntime (memoryItem "a" "tea").block < c.tokens :=
    ⟨_, _, rfl, rfl, rfl, by decide +kernel⟩
  have hleft : (exactRoom lam maxItems).leftOver ([] ++ [c]) = (exactRoom lam maxItems).leftOver [] :=
    leftOver_append _ (by simpa [Candidate.isOptional_iff] using .inl hsource)
  have hfits : (exactRoom lam maxItems).picked ((exactRoom lam maxItems).scores [c]) [c] = [c] := by
    rw [picked_singleton _ hsource hmax, ← nil_append [c], hleft, htokens]
    exact if_neg (show ¬min 4096 (tokensOf plainRuntime (memoryItem "a" "tea").block) < _ by decide +kernel)
  have hover : (exactRoom lam maxItems).picked ((exactRoom lam maxItems).scores [c']) [c'] = [] := by
    rw [picked_singleton _ hsource' hmax]
    exact if_pos (lt_of_le_of_lt (Nat.min_le_right _ _) htokens')
  have hsame := hfollows candidates candidates' hfused hfused'
  change List.map _ ((exactRoom lam maxItems).picked
    ((exactRoom lam maxItems).scores (prepare candidates' [] none).kept) (prepare candidates' [] none).kept)
      = List.map _ (List.map _ ((exactRoom lam maxItems).picked
        ((exactRoom lam maxItems).scores (prepare candidates [] none).kept) (prepare candidates [] none).kept)) at hsame
  rw [hkept, hkept', hfits, hover] at hsame
  cases hsame

/-- Diversity is measured on the texts, for every similarity, budget and set of items, exactly if similarity has no weight or at most one item can be retrieved. Then a renaming leaves the order alone, and the selection if the renamed blocks cost the same or all fit. Without a condition on the costs no renaming clause holds, unless nothing can be retrieved. -/
theorem measured_on_texts_iff (lam : ℚ) (maxItems : ℕ) :
    ((∀ (engine : ContextAssemblyEngine ℚ) (rt : Runtime) (input : BuildInput ℚ), engine.settings.mmrLambda = lam →
        engine.settings.maxRetrievedItems = maxItems → engine.MeasuresTexts rt input ∧
          ∀ naming, StrictMono naming → engine.ConsidersRenamed rt input naming ∧
            (input.SameCosts rt naming ∨ engine.Roomy rt input ∧ engine.Roomy rt (input.rename naming) →
              engine.FollowsRenaming rt input naming)) ↔
      lam = 1 ∨ maxItems ≤ 1) ∧
    ((∀ (engine : ContextAssemblyEngine ℚ) (rt : Runtime) (input : BuildInput ℚ), engine.settings.mmrLambda = lam →
        engine.settings.maxRetrievedItems = maxItems →
          ∀ naming, StrictMono naming → engine.FollowsRenaming rt input naming) ↔ maxItems = 0) := by
  refine ⟨⟨fun h => ?_, ?_⟩, fun h => ?_, ?_⟩
  · by_contra hnot
    obtain ⟨hlam, hmax⟩ := not_or.mp hnot
    exact not_measuresTexts hlam (by omega) (h (byIdentifier lam maxItems) plainRuntime threeMemories rfl rfl).1
  · rintro h engine rt input rfl rfl
    exact ⟨measuresTexts_of_indifferent engine rt input h, fun naming hmono =>
      ⟨considersRenamed_of_indifferent engine rt input h hmono, followsRenaming_of_indifferent engine rt input h hmono⟩⟩
  · by_contra hmax
    exact not_followsRenaming lam (Nat.pos_of_ne_zero hmax)
      (h (exactRoom lam maxItems) plainRuntime oneMemory rfl rfl _ (strictMono_append "aaaa"))
  · rintro rfl engine rt input - hmax naming - candidates candidates' - -
    have hnone : ∀ scores kept, engine.picked scores kept = [] := by
      intro scores kept
      have hlength := (engine.picked_spec scores kept).2.2
      rw [hmax] at hlength
      exact length_eq_zero_iff.mp (Nat.le_zero.mp hlength)
    simp [hnone]

/-- With the default settings: the identifier `b` counts as similar to `a`, so `c` is considered before it; under other identifiers in the same order it is not, and the selection is another one although everything fits. -/
theorem identifiers_decide : ¬(byIdentifier (7 / 10) 8).MeasuresTexts plainRuntime threeMemories ∧
      StrictMono (fun id : String => "m" ++ id) ∧
      (byIdentifier (7 / 10) 8).Roomy plainRuntime threeMemories ∧
      (byIdentifier (7 / 10) 8).Roomy plainRuntime (threeMemories.rename fun id => "m" ++ id) ∧
      ¬(byIdentifier (7 / 10) 8).FollowsRenaming plainRuntime threeMemories fun id => "m" ++ id := by
  have hlam : (7 / 10 : ℚ) ≠ 1 := by decide +kernel
  have hroomy : (byIdentifier (7 / 10) 8).Roomy plainRuntime threeMemories :=
    ⟨by decide +kernel, by decide +kernel, by decide +kernel⟩
  have hroomy' : (byIdentifier (7 / 10) 8).Roomy plainRuntime (threeMemories.rename fun id => "m" ++ id) :=
    ⟨by decide +kernel, by decide +kernel, by decide +kernel⟩
  refine ⟨not_measuresTexts hlam (by decide), strictMono_append "m", hroomy, hroomy', ?_⟩
  intro hfollows
  obtain ⟨candidates, kept, hfused, hkept, hkeys, hsource, -⟩ := kept_threeMemories
  obtain ⟨candidates', kept', hfused', hkept', hkeys', hsource'⟩ : ∃ candidates kept,
      fuseCandidates plainRuntime (threeMemories.rename fun id => "m" ++ id) = .ok candidates ∧
      (prepare candidates (threeMemories.supersededMemoryIds.map fun id => "m" ++ id) threeMemories.conversationId).kept
        = kept ∧
      kept.map (·.key) = ["ma", "mb", "mc"] ∧ ∀ c ∈ kept, c.source = .memory := by
    refine ⟨_, _, rfl, rfl, ?_, ?_⟩
    · decide +kernel
    · decide +kernel
  have hsame := hfollows candidates candidates' hfused hfused'
  dsimp only at hsame
  rw [picked_of_roomy hroomy hfused, picked_of_roomy hroomy' hfused', hkept, hkept'] at hsame
  obtain ⟨rest, hids⟩ := considered_byIdentifier hlam (show 2 ≤ 8 by decide) hsource hkeys
  have hrenamed := considered_three (byIdentifier (7 / 10) 8) rfl rfl (by decide) hsource' hkeys' (by decide) (by decide)
  rw [hsame, ← hids, if_neg (by decide +kernel)] at hrenamed
  simp at hrenamed

end Exact

end ContextProxy
