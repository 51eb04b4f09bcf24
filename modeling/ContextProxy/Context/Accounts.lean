import ContextProxy.Context.Duplicates

/-!
# Every candidate is selected or dropped

The stages of `build` write to one drop table. With distinct keys, a stage adds exactly the candidates it takes away, so that the selected and the dropped are together all candidates but the tool definitions.
-/

namespace ContextProxy

open List

variable {F : Type}

/-! ### The drop table -/

namespace DropTable

variable {table : DropTable}

theorem keys_dropAll {candidates : List (Candidate F)} {reason : DropReason} (hnodup : (candidates.map (·.key)).Nodup)
    (hnew : ∀ c ∈ candidates, c.key ∉ table.map (·.key)) :
    (table.dropAll candidates reason).map (·.key) = table.map (·.key) ++ candidates.map (·.key) := by
  induction candidates generalizing table with
  | nil => exact (append_nil _).symm
  | cons c candidates ih =>
    obtain ⟨hc, hcandidates⟩ := nodup_cons.mp hnodup
    obtain ⟨hfresh, hrest⟩ := forall_mem_cons.mp hnew
    have hkept : table.filter (·.key ≠ c.key) = table := by
      apply filter_eq_self.mpr
      intro entry hentry
      exact decide_eq_true fun hkey => hfresh (hkey ▸ mem_map_of_mem hentry)
    rw [dropAll, foldl_cons, hkept, ← dropAll, ih hcandidates]
    · simp
    · intro d hd
      have hne : d.key ≠ c.key := fun hkey => hc (mem_map.mpr ⟨d, hd, hkey⟩)
      simpa [hne] using hrest d hd

theorem keys_dropAll_of_nodup {candidates : List (Candidate F)} (reason : DropReason) {keys : List String}
    (htable : table.map (·.key) = keys) (h : (keys ++ candidates.map (·.key)).Nodup) :
    (table.dropAll candidates reason).map (·.key) = keys ++ candidates.map (·.key) := by
  obtain ⟨-, hcandidates, hapart⟩ := nodup_append'.mp h
  rw [← htable] at hapart ⊢
  exact keys_dropAll hcandidates fun c hc hmem => hapart hmem (mem_map_of_mem hc)

/-- The last loop of `_allocate`. -/
def dropUnselected (picked : List (Candidate F)) (retrieval : List (Candidate F)) (table : DropTable) : DropTable :=
  retrieval.foldl (fun table c =>
    if c.key ∉ picked.map (·.key) ∧ c.key ∉ table.map (·.key) then table.dropAll [c] .notSelected else table) table

theorem keys_dropUnselected (picked : List (Candidate F)) {retrieval : List (Candidate F)} (table : DropTable)
    (h : (retrieval.map (·.key)).Nodup) : (table.dropUnselected picked retrieval).map (·.key) = table.map (·.key)
      ++ (retrieval.filter fun c => c.key ∉ picked.map (·.key) ++ table.map (·.key)).map (·.key) := by
  induction retrieval generalizing table with
  | nil => exact (append_nil _).symm
  | cons c retrieval ih =>
    obtain ⟨hc, hretrieval⟩ := nodup_cons.mp h
    rw [dropUnselected, foldl_cons, ← dropUnselected]
    by_cases hnew : c.key ∉ picked.map (·.key) ∧ c.key ∉ table.map (·.key)
    · have hkeys : (table.dropAll [c] .notSelected).map (·.key) = table.map (·.key) ++ [c.key] :=
         keys_dropAll (nodup_singleton _) (forall_mem_singleton.mpr hnew.2)
      rw [if_pos hnew, ih _ hretrieval, hkeys, filter_cons_of_pos (by simpa using hnew), map_cons,
        append_assoc, singleton_append]
      congr 3
      apply filter_congr
      intro d hd
      have hne : d.key ≠ c.key := fun hkey => hc (mem_map.mpr ⟨d, hd, hkey⟩)
      simp [hne]
    · rw [if_neg hnew, ih _ hretrieval, filter_cons_of_neg (by simpa using hnew)]

end DropTable

/-! ### The filters -/

theorem dedupStep_perm (st : Deduplication F) (candidate : Candidate F) :
    ((dedupStep st candidate).kept ++ (dedupStep st candidate).duplicates).Perm
      (st.kept ++ st.duplicates ++ [candidate]) := by
  have hkept : (st.kept ++ [candidate] ++ st.duplicates).Perm (st.kept ++ st.duplicates ++ [candidate]) := by
    rw [append_assoc, append_assoc]
    exact perm_append_comm.append_left _
  rw [dedupStep]
  split
  · exact hkept
  · split
    · exact hkept
    · split
      · exact hkept
      · split
        · rw [append_assoc]
        · exact hkept

theorem deduplicate_perm (candidates : List (Candidate F)) :
    ((deduplicate candidates).kept ++ (deduplicate candidates).duplicates).Perm candidates := by
  induction candidates using List.reverseRecOn with
  | nil => exact List.Perm.refl _
  | append_singleton candidates last ih =>
    rw [deduplicate_concat]
    exact (dedupStep_perm _ _).trans (ih.append_right [last])

theorem nodup_keys_of_perm {a b : List (Candidate F)} (h : a.Perm b) (hnodup : (b.map (·.key)).Nodup) :
    (a.map (·.key)).Nodup := (h.map _).nodup_iff.mpr hnodup

/-- What the filters take out is what they write to the drop table. -/
theorem prepare_accounts (candidates : List (Candidate F)) (superseded : List String) (conversationId : Option String)
    (hnodup : (candidates.map (·.key)).Nodup) :
    ∃ removed, ((prepare candidates superseded conversationId).kept ++ removed).Perm candidates ∧
      (prepare candidates superseded conversationId).dropped.map (·.key) = removed.map (·.key) := by
  generalize hold : candidates.filter (isSuperseded superseded) = old
  generalize hcurrent : candidates.filter (!isSuperseded superseded ·) = current
  generalize hforeign : current.filter (isForeign conversationId) = foreign
  generalize hown : current.filter (!isForeign conversationId ·) = own
  have hperm : ((deduplicate own).kept ++ (old ++ foreign ++ (deduplicate own).duplicates)).Perm candidates := by
    have hfirst : (old ++ current).Perm candidates := by
      rw [← hold, ← hcurrent]
      exact filter_append_perm _ _
    have hsecond : (foreign ++ own).Perm current := by
      rw [← hforeign, ← hown]
      exact filter_append_perm _ _
    have hthird := deduplicate_perm own
    classical
    rw [perm_iff_count] at hfirst hsecond hthird ⊢
    intro c
    have hfirst := hfirst c
    have hsecond := hsecond c
    have hthird := hthird c
    simp only [count_append] at hfirst hsecond hthird ⊢
    omega
  have hkeys : ((old ++ foreign ++ (deduplicate own).duplicates).map (·.key)).Nodup := by
    have hall := nodup_keys_of_perm hperm hnodup
    rw [map_append] at hall
    exact hall.of_append_right
  rw [map_append, map_append] at hkeys
  refine ⟨old ++ foreign ++ (deduplicate own).duplicates, ?_, ?_⟩
  · rw [← hown, ← hcurrent] at hperm ⊢
    exact hperm
  · have hfirst : (DropTable.dropAll [] old .superseded).map (·.key) = old.map (·.key) :=
      DropTable.keys_dropAll hkeys.of_append_left.of_append_left fun _ _ => not_mem_nil
    have hsecond := DropTable.keys_dropAll_of_nodup .foreignConversation hfirst hkeys.of_append_left
    have hthird := DropTable.keys_dropAll_of_nodup .duplicate hsecond hkeys
    rw [map_append, map_append, ← hthird, prepare]
    simp only [hold, hcurrent, hforeign, hown]

/-! ### Allocation -/

theorem perm_eraseP_find {α : Type} (p : α → Bool) (items : List α) :
    (items.eraseP p ++ (items.find? p).toList).Perm items := by
  induction items with
  | nil => exact List.Perm.refl _
  | cons item items ih =>
    cases hp : p item with
    | true =>
      rw [eraseP_cons_of_pos hp, find?_cons_of_pos hp]
      exact perm_append_comm
    | false =>
      rw [eraseP_cons_of_neg (by simp [hp]), find?_cons_of_neg (by simp [hp])]
      exact ih.cons item

theorem headAndTail_perm (mandatory : List (Candidate F)) :
    ((headAndTail mandatory).1 ++ (headAndTail mandatory).2.toList).Perm mandatory :=
  (perm_eraseP_find _ _).trans (perm_insertionSort _ _)

theorem perm_kinds (candidates : List (Candidate F)) :
    (candidates.filter Candidate.isMandatory ++ (candidates.filter Candidate.isRecent
      ++ candidates.filter Candidate.isOptional)).Perm (candidates.filter (!·.isTools)) := by
  induction candidates with
  | nil => exact List.Perm.refl _
  | cons c candidates ih =>
    have hmandatory := Candidate.isMandatory_iff (c := c)
    have hrecent := Candidate.isRecent_iff (c := c)
    have hoptional := Candidate.isOptional_iff (c := c)
    have htools : (!c.isTools) = true ↔ c.source ≠ .toolDefinitions := by simp [Candidate.isTools]
    simp only [filter_cons, hmandatory, hrecent, hoptional, htools]
    cases c.source with
    | toolDefinitions => simpa using ih
    | system | pinned | currentRequest => simpa using ih
    | recentTurn => simpa using perm_middle.trans (ih.cons c)
    | memory | chunk =>
      have hmiddle : (candidates.filter Candidate.isMandatory ++ candidates.filter Candidate.isRecent
          ++ c :: candidates.filter Candidate.isOptional).Perm (c :: (candidates.filter Candidate.isMandatory
          ++ candidates.filter Candidate.isRecent ++ candidates.filter Candidate.isOptional)) := perm_middle
      rw [append_assoc, append_assoc] at hmiddle
      simpa using hmiddle.trans (ih.cons c)

section Split

theorem filter_notMem_keys {older kept : List (Candidate F)} (h : ((older ++ kept).map (·.key)).Nodup) :
    ((older ++ kept).filter fun c => c.key ∉ kept.map (·.key)) = older := by
  rw [map_append, nodup_append'] at h
  rw [filter_append, filter_eq_self.mpr, filter_eq_nil_iff.mpr, append_nil]
  · intro c hc
    simpa using ⟨c, hc, rfl⟩
  · intro c hc
    exact decide_eq_true fun hmem => h.2.2 (mem_map_of_mem hc) hmem

theorem eq_of_key {candidates : List (Candidate F)} (h : (candidates.map (·.key)).Nodup) {c d : Candidate F}
    (hc : c ∈ candidates) (hd : d ∈ candidates) (hkey : c.key = d.key) : c = d := inj_on_of_nodup_map h hc hd hkey

theorem perm_append_filter_keys {candidates some : List (Candidate F)} (h : (candidates.map (·.key)).Nodup)
    (hsome : (some.map (·.key)).Nodup) (hsub : ∀ c ∈ some, c ∈ candidates) :
    (some ++ candidates.filter fun c => c.key ∉ some.map (·.key)).Perm candidates := by
  apply (perm_ext_iff_of_nodup _ h.of_map).mpr
  · intro c
    rw [mem_append, mem_filter, decide_eq_true_iff]
    constructor
    · intro hc
      exact hc.elim (hsub c) And.left
    · intro hc
      by_cases hmem : c.key ∈ some.map (·.key)
      · obtain ⟨d, hd, hkey⟩ := mem_map.mp hmem
        exact .inl (eq_of_key h (hsub d hd) hc hkey ▸ hd)
      · exact .inr ⟨hc, hmem⟩
  · rw [nodup_append']
    refine ⟨hsome.of_map, h.of_map.filter _, ?_⟩
    intro c hc hrest
    exact of_decide_eq_true (mem_filter.mp hrest).2 (mem_map_of_mem hc)

end Split

section Allocate

variable [Score F] {engine : ContextAssemblyEngine F} {scores : String → F} {candidates : List (Candidate F)}
  {dropped : DropTable} {allocation : Allocation F}

/-- The packing loop goes through some of the candidates, once through each of them. -/
theorem pickRetrieved_spec (engine : ContextAssemblyEngine F) (scores : String → F) (remaining : ℕ)
    {retrieval : List (Candidate F)} (h : (retrieval.map (·.key)).Nodup) :
    ((((engine.pickRetrieved scores remaining retrieval).1 ++ (engine.pickRetrieved scores remaining retrieval).2).map
      (·.key)).Nodup) ∧
      ∀ c ∈ (engine.pickRetrieved scores remaining retrieval).1 ++ (engine.pickRetrieved scores remaining retrieval).2,
        c ∈ retrieval := by
  rw [ContextAssemblyEngine.pickRetrieved]
  split
  · have hperm := packUnder_perm Candidate.tokens (min remaining engine.settings.retrievedBudgetTokens) 0
      (engine.ranked scores retrieval)
    refine ⟨nodup_keys_of_perm hperm ?_, fun c hc => ?_⟩
    · have hscored : ((retrieval.map fun c => (scores c.key, c.key)).map Prod.snd).Nodup := by
        rw [map_map]
        exact h
      exact (nodup_mmrSelect hscored).sublist (keys_filterMap_byKey_sublist _ _)
    · obtain ⟨key, -, hbyKey⟩ := mem_filterMap.mp (hperm.subset hc)
      exact mem_of_byKey hbyKey
  · exact ⟨nodup_nil, fun c hc => absurd hc not_mem_nil⟩

theorem allocate_parts (h : engine.allocate candidates scores dropped = .ok allocation) :
    ∃ picked skipped, engine.pickRetrieved scores (engine.leftOver candidates) (candidates.filter Candidate.isOptional)
        = (picked, skipped) ∧
      allocation.ordered = (headAndTail (candidates.filter Candidate.isMandatory)).1 ++ picked
        ++ engine.keptRecent candidates ++ (headAndTail (candidates.filter Candidate.isMandatory)).2.toList ∧
      allocation.dropped = ((dropped.dropAll ((candidates.filter Candidate.isRecent).filter
          fun c => c.key ∉ (engine.keptRecent candidates).map (·.key)) .budget).dropAll skipped .budget).dropUnselected
        picked (candidates.filter Candidate.isOptional) := by
  refine ⟨_, _, rfl, ?_⟩
  rw [ContextAssemblyEngine.allocate] at h
  split at h
  · cases h
  · obtain rfl := Except.ok.inj h
    rw [ContextAssemblyEngine.leftOver, ContextAssemblyEngine.keptRecent, mandatoryCost, ← Nat.sub_sub]
    exact ⟨rfl, rfl⟩

omit [Score F] in
theorem nodup_keys_apart (hnodup : (dropped.map (·.key) ++ candidates.map (·.key)).Nodup) {older kept : List (Candidate F)}
    (hrecent : older ++ kept = candidates.filter Candidate.isRecent) :
    (dropped.map (·.key) ++ older.map (·.key) ++ (candidates.filter Candidate.isOptional).map (·.key)).Nodup := by
  have hkinds := perm_kinds candidates
  have hall := nodup_keys_of_perm hkinds (hnodup.of_append_right.sublist (filter_sublist.map _))
  have hsub : (older ++ candidates.filter Candidate.isOptional).Sublist
      (candidates.filter Candidate.isMandatory ++ (candidates.filter Candidate.isRecent
        ++ candidates.filter Candidate.isOptional)) := by
    rw [← hrecent]
    exact ((sublist_append_left _ _).append_right _).trans (sublist_append_right _ _)
  obtain ⟨hdistinct, -, hnew⟩ := nodup_append'.mp hnodup
  rw [append_assoc, ← map_append, nodup_append']
  refine ⟨hdistinct, hall.sublist (hsub.map _), ?_⟩
  intro key hkey hmem
  obtain ⟨c, hc, rfl⟩ := mem_map.mp hmem
  have hcandidate := (mem_filter.mp (hkinds.subset (hsub.subset hc))).1
  exact hnew hkey (mem_map_of_mem hcandidate)

/-- What allocation takes away is what it writes to the drop table. -/
theorem allocate_accounts (h : engine.allocate candidates scores dropped = .ok allocation)
    (hnodup : (dropped.map (·.key) ++ candidates.map (·.key)).Nodup) :
    ∃ gone, (allocation.ordered ++ gone).Perm (candidates.filter (!·.isTools)) ∧
      allocation.dropped.map (·.key) = dropped.map (·.key) ++ gone.map (·.key) := by
  obtain ⟨picked, skipped, hpick, hordered, hdropped⟩ := allocate_parts h
  obtain ⟨older, hrecent⟩ : engine.keptRecent candidates <:+ candidates.filter Candidate.isRecent :=
    (window_longestFitting _ _ _).suffix
  have hkinds := perm_kinds candidates
  have hmandatory := headAndTail_perm (candidates.filter Candidate.isMandatory)
  have hoptional : ((candidates.filter Candidate.isOptional).map (·.key)).Nodup :=
    hnodup.of_append_right.sublist (filter_sublist.map _)
  have hpicked := pickRetrieved_spec engine scores (engine.leftOver candidates) hoptional
  rw [hpick] at hpicked
  obtain ⟨holder, -, hfresh⟩ := nodup_append'.mp (nodup_keys_apart hnodup hrecent)
  have hskipped : (dropped.map (·.key) ++ older.map (·.key) ++ skipped.map (·.key)).Nodup := by
    rw [nodup_append']
    refine ⟨holder, ?_, fun key hkey hmem => ?_⟩
    · rw [map_append] at hpicked
      exact hpicked.1.of_append_right
    · obtain ⟨c, hc, rfl⟩ := mem_map.mp hmem
      exact hfresh hkey (mem_map_of_mem (hpicked.2 c (mem_append_right _ hc)))
  refine ⟨older ++ skipped ++ (candidates.filter Candidate.isOptional).filter
    fun c => c.key ∉ (picked ++ skipped).map (·.key), ?_, ?_⟩
  · have hrest := perm_append_filter_keys hoptional hpicked.1 hpicked.2
    rw [hordered]
    classical
    rw [← hrecent] at hkinds
    rw [perm_iff_count] at hkinds hmandatory hrest ⊢
    intro c
    have hkinds := hkinds c
    have hmandatory := hmandatory c
    have hrest := hrest c
    simp only [count_append] at hkinds hmandatory hrest ⊢
    omega
  · have hbudget := DropTable.keys_dropAll_of_nodup .budget
      (DropTable.keys_dropAll_of_nodup .budget rfl holder) hskipped
    rw [hdropped, ← hrecent, filter_notMem_keys, DropTable.keys_dropUnselected _ _ hoptional, hbudget]
    · have hsame : ((candidates.filter Candidate.isOptional).filter fun c => c.key ∉ picked.map (·.key)
          ++ (dropped.map (·.key) ++ older.map (·.key) ++ skipped.map (·.key)))
          = (candidates.filter Candidate.isOptional).filter fun c => c.key ∉ (picked ++ skipped).map (·.key) := by
        apply filter_congr
        intro c hc
        have hother : c.key ∉ dropped.map (·.key) ++ older.map (·.key) := fun hmem =>
          hfresh hmem (mem_map_of_mem hc)
        rw [mem_append, not_or] at hother
        simp only [map_append, mem_append, hother.1, hother.2, false_or]
      rw [hsame]
      simp only [map_append, append_assoc]
    · rw [hrecent]
      exact hnodup.of_append_right.sublist (filter_sublist.map _)

end Allocate

/-! ### Keys -/

/-- The keys that the engine gives to what is not retrieved. -/
inductive EngineKey : String → Prop
  | unit (index : ℕ) : EngineKey ("unit:" ++ toString index)
  | pinned (index : ℕ) : EngineKey ("pinned:" ++ toString index)
  | request : EngineKey "current_request"
  | tools : EngineKey "tool_definitions"

theorem EngineKey.head {key : String} (h : EngineKey key) :
    key.toList.head? ∈ [some 'u', some 'p', some 'c', some 't'] := by
  cases h with
  | unit index | pinned index => simp
  | request | tools => decide

theorem toString_injective : Function.Injective (toString : ℕ → String) := by
  intro m n h
  have hdigits : Nat.toDigits 10 m = Nat.toDigits 10 n := by
    rw [← Nat.toList_repr, ← Nat.toList_repr]
    exact congrArg String.toList h
  rw [← Nat.ofDigitChars_ten_toDigits (n := m), hdigits, Nat.ofDigitChars_ten_toDigits]

theorem keys_of_zipIdx {α : Type} {f : α × ℕ → Except PyError (Candidate F)} {name : ℕ → String} {items : List α}
    {candidates : List (Candidate F)} (h : List.Forall₂ (fun item c => f item = .ok c) items.zipIdx candidates)
    (hname : ∀ item c, f item = .ok c → c.key = name item.2) :
    candidates.map (·.key) = (List.range items.length).map name := by
  rw [keys_of_forall₂ h hname, range_eq_range', ← zipIdx_map_snd 0 items, map_map]
  rfl

section Keys

variable {rt : Runtime} {input : BuildInput F} {candidates : List (Candidate F)}

def engineKeys (units : ℕ) (input : BuildInput F) : List String :=
  (List.range units).map (fun index => "unit:" ++ toString index)
    ++ (if input.currentRequest = [] then [] else ["current_request"])
    ++ (if input.tools = [] then [] else ["tool_definitions"])
    ++ (List.range input.pinned.length).map (fun index => "pinned:" ++ toString index)

theorem keys_requestCandidates {currentRequest : List Message} {position : ℕ} {request : List (Candidate F)}
    (h : requestCandidates rt currentRequest position = .ok request) :
    request.map (·.key) = if currentRequest = [] then [] else ["current_request"] := by
  rw [requestCandidates] at h
  split at h
  · rename_i hnil
    rw [if_pos hnil, ← Except.ok.inj h]
    rfl
  · rename_i hne
    obtain ⟨tokens, -, h⟩ := bind_eq_ok.mp h
    obtain ⟨text, -, h⟩ := bind_eq_ok.mp h
    rw [if_neg hne, ← Except.ok.inj h]
    rfl

theorem keys_toolsCandidates (tools : List Json) : (toolsCandidates rt tools : List (Candidate F)).map (·.key)
    = if tools = [] then [] else ["tool_definitions"] := by
  rw [toolsCandidates]
  split
  · rfl
  · rfl

theorem fuseCandidates_keys (h : fuseCandidates rt input = .ok candidates) :
    ∃ units, candidates.map (·.key) = engineKeys units input ++ input.retrieved.map (·.id) := by
  obtain ⟨units, -, h⟩ := bind_eq_ok.mp h
  obtain ⟨fromUnits, hfrom, h⟩ := bind_eq_ok.mp h
  obtain ⟨request, hrequest, h⟩ := bind_eq_ok.mp h
  obtain ⟨pinned, hpinned, h⟩ := bind_eq_ok.mp h
  obtain ⟨retrieved, hretrieved, h⟩ := bind_eq_ok.mp h
  rw [pure_eq_ok] at h
  rw [mapM_eq_ok] at hfrom hpinned hretrieved
  have hunits : fromUnits.map (·.key) = (List.range units.length).map fun index => "unit:" ++ toString index := by
    apply keys_of_zipIdx hfrom
    intro item c hc
    obtain ⟨text, -, hc⟩ := bind_eq_ok.mp hc
    obtain ⟨texts, -, hc⟩ := bind_eq_ok.mp hc
    exact congrArg Candidate.key (Except.ok.inj hc).symm
  have hpins : pinned.map (·.key) = (List.range input.pinned.length).map fun index => "pinned:" ++ toString index := by
    apply keys_of_zipIdx hpinned
    intro item c hc
    obtain ⟨tokens, -, hc⟩ := bind_eq_ok.mp hc
    obtain ⟨text, -, hc⟩ := bind_eq_ok.mp hc
    exact congrArg Candidate.key (Except.ok.inj hc).symm
  have hitems : retrieved.map (·.key) = input.retrieved.map (·.id) := by
    apply keys_of_forall₂ hretrieved
    exact fun item c hc => (candidateFromRetrieved_identity hc).1
  refine ⟨units.length, ?_⟩
  rw [← h]
  simp only [map_append]
  rw [hunits, keys_requestCandidates hrequest, keys_toolsCandidates, hpins, hitems, engineKeys]

theorem engineKey_of_mem {units : ℕ} {key : String} (h : key ∈ engineKeys units input) : EngineKey key := by
  simp only [engineKeys, mem_append, mem_map] at h
  rcases h with ((⟨index, -, rfl⟩ | h) | h) | ⟨index, -, rfl⟩
  · exact .unit index
  · split at h
    · cases h
    · exact mem_singleton.mp h ▸ .request
  · split at h
    · cases h
    · exact mem_singleton.mp h ▸ .tools
  · exact .pinned index

theorem nodup_numbered (name : String) (n : ℕ) : ((List.range n).map fun index => name ++ toString index).Nodup := by
  apply List.Nodup.map _ nodup_range
  intro a b h
  exact toString_injective (by simpa using h)

theorem disjoint_of_head {a b : List String} {x y : Char} (ha : ∀ key ∈ a, key.toList.head? = some x)
    (hb : ∀ key ∈ b, key.toList.head? = some y) (hne : x ≠ y) : a.Disjoint b := by
  intro key hkey hmem
  exact hne (Option.some.inj ((ha key hkey).symm.trans (hb key hmem)))

theorem nodup_engineKeys (units : ℕ) (input : BuildInput F) : (engineKeys units input).Nodup := by
  have hnumbered : ∀ (name : String) (n : ℕ) {x : Char}, name.toList.head? = some x →
      ∀ key ∈ (List.range n).map (fun index => name ++ toString index), key.toList.head? = some x := by
    intro name n x hx key hkey
    obtain ⟨index, -, rfl⟩ := mem_map.mp hkey
    rw [String.toList_append, head?_append, hx]
    rfl
  have hsingle : ∀ (p : Prop) [Decidable p] (name : String) {x : Char}, name.toList.head? = some x →
      ∀ key ∈ (if p then [] else [name]), key.toList.head? = some x := by
    intro p _ name x hx key hkey
    split at hkey
    · cases hkey
    · rwa [mem_singleton.mp hkey]
  have hunits := hnumbered "unit:" units (x := 'u') rfl
  have hpinned := hnumbered "pinned:" input.pinned.length (x := 'p') rfl
  have hrequest := hsingle (input.currentRequest = []) "current_request" (x := 'c') rfl
  have htools := hsingle (input.tools = []) "tool_definitions" (x := 't') rfl
  have hone : ∀ {p : Prop} [Decidable p] {name : String}, (if p then [] else [name]).Nodup := by
    intro p _ name
    split
    · exact nodup_nil
    · exact nodup_singleton _
  rw [engineKeys, nodup_append', nodup_append', nodup_append', disjoint_append_left,
    disjoint_append_left, disjoint_append_left]
  refine ⟨⟨⟨nodup_numbered _ _, hone, ?_⟩, hone, ?_, ?_⟩, nodup_numbered _ _, ⟨?_, ?_⟩, ?_⟩
  · exact disjoint_of_head hunits hrequest (by decide)
  · exact disjoint_of_head hunits htools (by decide)
  · exact disjoint_of_head hrequest htools (by decide)
  · exact disjoint_of_head hunits hpinned (by decide)
  · exact disjoint_of_head hrequest hpinned (by decide)
  · exact disjoint_of_head htools hpinned (by decide)

theorem nodup_keys (h : fuseCandidates rt input = .ok candidates) (hids : (input.retrieved.map (·.id)).Nodup)
    (hkeys : ∀ item ∈ input.retrieved, ¬EngineKey item.id) : (candidates.map (·.key)).Nodup := by
  obtain ⟨units, hunits⟩ := fuseCandidates_keys h
  rw [hunits, nodup_append']
  refine ⟨nodup_engineKeys units input, hids, fun key hkey hmem => ?_⟩
  obtain ⟨item, hitem, rfl⟩ := mem_map.mp hmem
  exact hkeys item hitem (engineKey_of_mem hkey)

end Keys

/-! ### The plan -/

section Plan

variable {engine : ContextAssemblyEngine F} {rt : Runtime} {input : BuildInput F} {candidates : List (Candidate F)}
  {allocation : Allocation F} {plan : ContextPlan F}

theorem makePlan_keys {scores : String → F} (h : engine.makePlan allocation scores = .ok plan) :
    plan.selectedItems.map (·.key) = (allocation.ordered.filter (!·.isTools)).map (·.key) ∧
      (plan.droppedItems.map (·.key)).Perm (allocation.dropped.map (·.key)) := by
  rw [ContextAssemblyEngine.makePlan] at h
  split at h
  · cases h
  · dsimp only at h
    split at h
    · cases h
    · obtain rfl := Except.ok.inj h
      refine ⟨?_, (perm_insertionSort _ _).map _⟩
      rw [map_map]
      rfl

variable {c : Candidate F}

theorem not_isTools_of_removed {kept removed : List (Candidate F)} (hkept : RemovesRetrieved candidates kept)
    (hperm : (kept ++ removed).Perm candidates) (hc : c ∈ removed) : c.isTools = false := by
  have hraw : removed.filter Candidate.isRaw = [] := by
    have hlength := (hperm.filter Candidate.isRaw).length_eq
    rw [filter_append, length_append, hkept.raw] at hlength
    exact length_eq_zero_iff.mp (by omega)
  have hnot := filter_eq_nil_iff.mp hraw c hc
  rw [Candidate.isRaw_iff] at hnot
  rw [Candidate.isTools, decide_eq_false_iff_not]
  intro htools
  exact hnot (by simp [htools])

variable {conversationId : Option String} {superseded : List String}

/-- A candidate that passed the filters is no superseded memory and belongs to the conversation. -/
theorem admissible_of_mem_prepare (h : c ∈ (prepare candidates superseded conversationId).kept) :
    isSuperseded superseded c = false ∧ isForeign conversationId c = false := by
  have hown := (deduplicate_removesRetrieved _).sublist.subset h
  rw [mem_filter, mem_filter] at hown
  exact ⟨(Bool.not_eq_true' _).mp hown.1.2, (Bool.not_eq_true' _).mp hown.2⟩

theorem admissible_item {item : RetrievedItem F} (hitem : candidateFromRetrieved rt item = .ok c)
    (h : c ∈ (prepare candidates superseded conversationId).kept) : (item.itemType = .memory → item.id ∉ superseded) ∧
      ∀ conversation, conversationId = some conversation → item.conversationId = conversation := by
  obtain ⟨hkey, hsource, hconversation⟩ := candidateFromRetrieved_identity hitem
  obtain ⟨hsuperseded, hforeign⟩ := admissible_of_mem_prepare h
  refine ⟨fun htype hmem => ?_, fun conversation hgiven => ?_⟩
  · simp [isSuperseded, hsource, hkey, htype, ItemType.source, hmem] at hsuperseded
  · have hretrieval : c.isRetrieval = true := by
      rw [Candidate.isRetrieval, hsource]
      cases item.itemType with
      | chunk => rfl
      | memory => rfl
    simpa [isForeign, hgiven, hretrieval, hconversation] using hforeign

variable [Score F]

/-- Selected and dropped candidates are all candidates but the tool definitions, and the selected ones passed the filters. -/
theorem Built.keys_perm (h : Built engine rt input candidates allocation plan) (hnodup : (candidates.map (·.key)).Nodup) :
    (plan.selectedItems.map (·.key) ++ plan.droppedItems.map (·.key)).Perm
        ((candidates.filter (!·.isTools)).map (·.key)) ∧
      ∀ key ∈ plan.selectedItems.map (·.key),
        ∃ c ∈ (prepare candidates input.supersededMemoryIds input.conversationId).kept, c.key = key := by
  obtain ⟨removed, hprepared, hdropped⟩ :=
    prepare_accounts candidates input.supersededMemoryIds input.conversationId hnodup
  have hkept := prepare_removesRetrieved candidates input.supersededMemoryIds input.conversationId
  have hallocated := h.allocated
  have hplanned := h.planned
  generalize prepare candidates input.supersededMemoryIds input.conversationId = prepared at *
  have hdistinct : (prepared.dropped.map (·.key) ++ prepared.kept.map (·.key)).Nodup := by
    rw [hdropped, ← map_append]
    exact nodup_keys_of_perm (perm_append_comm.trans hprepared) hnodup
  obtain ⟨gone, hordered, hleft⟩ := allocate_accounts hallocated hdistinct
  obtain ⟨hselected, hreported⟩ := makePlan_keys hplanned
  have hmem : ∀ c ∈ allocation.ordered, c ∈ prepared.kept ∧ (!c.isTools) = true := fun c hc =>
    mem_filter.mp (hordered.subset (mem_append_left _ hc))
  rw [filter_eq_self.mpr fun c hc => (hmem c hc).2] at hselected
  refine ⟨?_, ?_⟩
  · have hremoved : removed.filter (!·.isTools) = removed := filter_eq_self.mpr fun c hc => by
      rw [not_isTools_of_removed hkept hprepared hc]
      rfl
    have hall := hprepared.filter (!·.isTools)
    rw [filter_append, hremoved] at hall
    have hreport : (plan.selectedItems.map (·.key) ++ plan.droppedItems.map (·.key)).Perm
        (allocation.ordered.map (·.key) ++ (removed.map (·.key) ++ gone.map (·.key))) := by
      rw [hselected, ← hdropped, ← hleft]
      exact hreported.append_left _
    refine (hreport.trans ?_).trans (((hordered.append_right removed).trans hall).map _)
    simp only [map_append, append_assoc]
    exact perm_append_comm.append_left _
  · intro key hkey
    rw [hselected] at hkey
    obtain ⟨c, hc, rfl⟩ := mem_map.mp hkey
    exact ⟨c, (hmem c hc).1, rfl⟩

/-- With identifiers that are distinct and no keys of the engine, each candidate but the tool definitions is reported once, as selected or as dropped, and nothing superseded or foreign is selected. -/
theorem candidates_accounted (engine : ContextAssemblyEngine F) (rt : Runtime) {input : BuildInput F}
    {plan : ContextPlan F} (hids : (input.retrieved.map (·.id)).Nodup)
    (hkeys : ∀ item ∈ input.retrieved, ¬EngineKey item.id) (h : engine.build rt input = .ok plan) :
    ∃ candidates, fuseCandidates rt input = .ok candidates ∧
      (plan.selectedItems.map (·.key) ++ plan.droppedItems.map (·.key)).Nodup ∧
      (plan.selectedItems.map (·.key) ++ plan.droppedItems.map (·.key)).Perm
        ((candidates.filter (!·.isTools)).map (·.key)) ∧
      ∀ item ∈ input.retrieved, item.id ∈ plan.selectedItems.map (·.key) →
        (item.itemType = .memory → item.id ∉ input.supersededMemoryIds) ∧
          ∀ conversation, input.conversationId = some conversation → item.conversationId = conversation := by
  obtain ⟨candidates, allocation, built⟩ := build_eq_ok_iff.mp h
  have hnodup := nodup_keys built.fused hids hkeys
  obtain ⟨hperm, hselected⟩ := built.keys_perm hnodup
  refine ⟨candidates, built.fused, ?_, hperm, ?_⟩
  · exact hperm.nodup_iff.mpr (hnodup.sublist (filter_sublist.map _))
  · intro item hitem hmem
    obtain ⟨c, hc, hkey⟩ := hselected item.id hmem
    obtain ⟨units, fromUnits, request, pinned, retrieved, fused, hcandidates⟩ := fuseCandidates_eq_ok built.fused
    obtain ⟨own, hown, hitem⟩ := exists_right_of_forall₂ fused.ofRetrieved hitem
    have hsame : own = c := by
      apply eq_of_key hnodup
      · rw [hcandidates]
        exact mem_append_right _ hown
      · exact (prepare_removesRetrieved candidates input.supersededMemoryIds input.conversationId).sublist.subset hc
      · rw [(candidateFromRetrieved_identity hitem).1, hkey]
    exact admissible_item hitem (hsame ▸ hc)

end Plan

def rememberedRequest : BuildInput ℚ where
  history := [textMessage "user" "Hello.", textMessage "assistant" "Hi."]
  currentRequest := [textMessage "user" "Which code?"]
  retrieved := [{ itemType := .memory, id := "m1", conversationId := "c1", kind := "fact", content := "door code 42" }]
  conversationId := some "c1"

theorem candidates_accounted_remembered : ∃ plan candidates,
    (plainEngine 64 (by decide)).build plainRuntime rememberedRequest = .ok plan ∧
      fuseCandidates plainRuntime rememberedRequest = .ok candidates ∧
      (plan.selectedItems.map (·.key) ++ plan.droppedItems.map (·.key)).Perm
        ((candidates.filter (!·.isTools)).map (·.key)) := by
  obtain ⟨plan, hplan⟩ : ∃ plan, (plainEngine 64 (by decide)).build plainRuntime rememberedRequest = .ok plan := ⟨_, rfl⟩
  have hkeys : ∀ item ∈ rememberedRequest.retrieved, ¬EngineKey item.id := by
    intro item hitem hkey
    rw [mem_singleton.mp hitem] at hkey
    exact absurd hkey.head (by decide)
  obtain ⟨candidates, hfused, -, hperm, -⟩ := candidates_accounted (plainEngine 64 (by decide)) plainRuntime
    (by decide) hkeys hplan
  exact ⟨plan, candidates, hplan, hfused, hperm⟩

end ContextProxy
