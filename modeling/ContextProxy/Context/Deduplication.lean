import ContextProxy.Context.Candidates
import Mathlib.Data.List.Induction

/-!
# The filters before allocation

Superseded memories, items of other conversations and duplicates are taken out before anything is scored. Only retrieved candidates go (`RemovesRetrieved`), so allocation sees the payload as it was fused. A duplicate is a candidate whose text an earlier one announces (`Repeats`).
-/

namespace ContextProxy

open List

inductive DropReason where
  | superseded
  | foreignConversation
  | duplicate
  | budget
  | notSelected
  deriving DecidableEq, Repr

def DropReason.name : DropReason → String
  | .superseded => "superseded"
  | .foreignConversation => "foreign_conversation"
  | .duplicate => "duplicate"
  | .budget => "budget"
  | .notSelected => "not_selected"

structure DroppedCandidate where
  key : String
  source : CandidateSource
  reason : DropReason
  deriving DecidableEq, Repr

/-- The `dropped` dictionary, one entry a key; the order of its entries is never read. -/
abbrev DropTable : Type := List DroppedCandidate

section Filters

variable {F : Type}

/-- `dropped[candidate.key] = DroppedCandidate(…, reason)` for each candidate. -/
def DropTable.dropAll (dropped : DropTable) (candidates : List (Candidate F)) (reason : DropReason) : DropTable :=
  candidates.foldl (fun table candidate =>
    table.filter (·.key ≠ candidate.key) ++ [⟨candidate.key, candidate.source, reason⟩]) dropped

def isSuperseded (supersededMemoryIds : List String) (candidate : Candidate F) : Bool :=
  candidate.source = .memory && supersededMemoryIds.contains candidate.key

def isForeign (conversationId : Option String) (candidate : Candidate F) : Bool :=
  conversationId.isSome && candidate.isRetrieval && candidate.conversationId ≠ conversationId

/-- The local variables of `_deduplicate`. -/
structure Deduplication (F : Type) where
  seenRaw : List String := []
  seenRetrieval : List String := []
  kept : List (Candidate F) := []
  duplicates : List (Candidate F) := []

def Candidate.isRaw (candidate : Candidate F) : Bool := candidate.tier ≤ CandidateSource.recentTurn.tier

def Candidate.rawTexts (candidate : Candidate F) : List String :=
  (if candidate.text = "" then [] else [candidate.text]) ++ candidate.contentTexts

def dedupStep (st : Deduplication F) (candidate : Candidate F) : Deduplication F :=
  if candidate.isRaw then
    { st with seenRaw := st.seenRaw ++ candidate.rawTexts, kept := st.kept ++ [candidate] }
  else
    match candidate.dedupText with
    | none => { st with kept := st.kept ++ [candidate] }
    | some text =>
      if text = "" then { st with kept := st.kept ++ [candidate] }
      else if text ∈ st.seenRaw ∨ text ∈ st.seenRetrieval then
        { st with duplicates := st.duplicates ++ [candidate] }
      else { st with seenRetrieval := st.seenRetrieval ++ [text], kept := st.kept ++ [candidate] }

def deduplicate (candidates : List (Candidate F)) : Deduplication F := candidates.foldl dedupStep {}

/-- The candidates that reach allocation, those dropped as duplicates, and the drop table. -/
structure Prepared (F : Type) where
  kept : List (Candidate F)
  duplicates : List (Candidate F)
  dropped : DropTable

/-- `_filter_superseded`, `_filter_foreign` and `_deduplicate`, in the order of `build`. -/
def prepare (candidates : List (Candidate F)) (supersededMemoryIds : List String) (conversationId : Option String) :
    Prepared F :=
  let dropped := DropTable.dropAll [] (candidates.filter (isSuperseded supersededMemoryIds)) .superseded
  let current := candidates.filter (!isSuperseded supersededMemoryIds ·)
  let dropped := dropped.dropAll (current.filter (isForeign conversationId)) .foreignConversation
  let own := current.filter (!isForeign conversationId ·)
  let result := deduplicate own
  { kept := result.kept
    duplicates := result.duplicates
    dropped := dropped.dropAll result.duplicates .duplicate }

/-! ### What the filters leave -/

structure RemovesRetrieved (candidates kept : List (Candidate F)) : Prop where
  sublist : kept.Sublist candidates
  raw : kept.filter Candidate.isRaw = candidates.filter Candidate.isRaw

namespace RemovesRetrieved

theorem trans {a b c : List (Candidate F)} (hab : RemovesRetrieved a b) (hbc : RemovesRetrieved b c) :
    RemovesRetrieved a c := ⟨hbc.sublist.trans hab.sublist, hbc.raw.trans hab.raw⟩

variable {p : Candidate F → Bool}

theorem of_filter {candidates : List (Candidate F)} (hp : ∀ c, c.isRaw = true → p c = true) :
    RemovesRetrieved candidates (candidates.filter p) := by
  refine ⟨filter_sublist, ?_⟩
  rw [filter_filter]
  apply filter_congr
  intro c _
  cases hraw : c.isRaw with
  | true => rw [hp c hraw, Bool.and_self]
  | false => rw [Bool.false_and]

theorem filter_eq {candidates kept : List (Candidate F)} (h : RemovesRetrieved candidates kept)
    (hp : ∀ c, p c = true → c.isRaw = true) : kept.filter p = candidates.filter p := by
  have hboth : ∀ cs : List (Candidate F), cs.filter p = (cs.filter Candidate.isRaw).filter p := by
    intro cs
    rw [filter_filter]
    apply filter_congr
    intro c _
    cases hpc : p c with
    | true => rw [hp c hpc, Bool.and_self]
    | false => rw [Bool.false_and]
  rw [hboth kept, h.raw, ← hboth]

end RemovesRetrieved

theorem Candidate.not_isRaw_of_isRetrieval {candidate : Candidate F} (h : candidate.isRetrieval = true) :
    candidate.isRaw = false := by
  rw [isRetrieval, Bool.or_eq_true, decide_eq_true_eq, decide_eq_true_eq] at h
  rcases h with h | h
  · simp [isRaw, tier, h, CandidateSource.tier]
  · simp [isRaw, tier, h, CandidateSource.tier]

theorem dedupStep_cases (st : Deduplication F) (candidate : Candidate F) :
    (dedupStep st candidate).kept = st.kept ++ [candidate] ∨
      (dedupStep st candidate).kept = st.kept ∧ candidate.isRaw = false := by
  rw [dedupStep]
  cases hraw : candidate.isRaw with
  | true => exact .inl rfl
  | false =>
    rw [if_neg (by simp)]
    split
    · exact .inl rfl
    · split
      · exact .inl rfl
      · split
        · exact .inr ⟨rfl, rfl⟩
        · exact .inl rfl

theorem deduplicate_concat (candidates : List (Candidate F)) (last : Candidate F) :
    deduplicate (candidates ++ [last]) = dedupStep (deduplicate candidates) last := by
  rw [deduplicate, foldl_append, foldl_cons, foldl_nil, deduplicate]

theorem deduplicate_removesRetrieved (candidates : List (Candidate F)) :
    RemovesRetrieved candidates (deduplicate candidates).kept := by
  induction candidates using List.reverseRecOn with
  | nil => exact ⟨List.Sublist.slnil, rfl⟩
  | append_singleton candidates last ih =>
    rw [deduplicate_concat]
    rcases dedupStep_cases (deduplicate candidates) last with hkept | ⟨hkept, hraw⟩
    · rw [hkept]
      exact ⟨ih.sublist.append (List.Sublist.refl _), by rw [filter_append, filter_append, ih.raw]⟩
    · rw [hkept]
      refine ⟨ih.sublist.trans (sublist_append_left _ _), ?_⟩
      rw [filter_append, ← ih.raw, filter_singleton, hraw, Bool.cond_false, append_nil]

theorem prepare_removesRetrieved (candidates : List (Candidate F)) (supersededMemoryIds : List String)
    (conversationId : Option String) :
    RemovesRetrieved candidates (prepare candidates supersededMemoryIds conversationId).kept := by
  have hcurrent : RemovesRetrieved candidates (candidates.filter (!isSuperseded supersededMemoryIds ·)) := by
    apply RemovesRetrieved.of_filter
    intro c hraw
    cases hsource : c.source with
    | memory => simp [Candidate.isRaw, Candidate.tier, hsource, CandidateSource.tier] at hraw
    | _ => simp [isSuperseded, hsource]
  refine hcurrent.trans (RemovesRetrieved.trans ?_ (deduplicate_removesRetrieved _))
  apply RemovesRetrieved.of_filter
  intro c hraw
  cases hretrieval : c.isRetrieval with
  | true => simp [Candidate.not_isRaw_of_isRetrieval hretrieval] at hraw
  | false => simp [isForeign, hretrieval]

/-! ### What counts as a duplicate -/

def Candidate.Announces (candidate : Candidate F) (text : String) : Prop :=
  if candidate.isRaw then text ∈ candidate.rawTexts else candidate.dedupText = some text

/-- The retrieved candidate `d` with this text stands behind a candidate that announces it. -/
def Repeats (candidates : List (Candidate F)) (d : Candidate F) (text : String) : Prop :=
  ∃ before after, candidates = before ++ d :: after ∧ d.isRaw = false ∧ d.dedupText = some text ∧ text ≠ "" ∧
    ∃ e ∈ before, e.Announces text

variable {text : String} {candidates : List (Candidate F)} {d : Candidate F}

/-- What the loop has seen is what the candidates so far announce. -/
theorem seen_iff (candidates : List (Candidate F)) (htext : text ≠ "") :
    (text ∈ (deduplicate candidates).seenRaw ∨ text ∈ (deduplicate candidates).seenRetrieval) ↔
      ∃ e ∈ candidates, e.Announces text := by
  induction candidates using List.reverseRecOn with
  | nil => simp [deduplicate]
  | append_singleton candidates last ih =>
    have hsplit : (∃ e ∈ candidates ++ [last], e.Announces text) ↔
        (∃ e ∈ candidates, e.Announces text) ∨ last.Announces text := by
      simp [or_and_right, exists_or]
    rw [hsplit, ← ih, deduplicate_concat, dedupStep, Candidate.Announces]
    cases hraw : last.isRaw with
    | true =>
      simp only [if_true, mem_append]
      exact or_right_comm
    | false =>
      cases hdedup : last.dedupText with
      | none => simp
      | some own =>
        simp only [Bool.false_eq_true, if_false, Option.some.injEq]
        by_cases hempty : own = ""
        · simp [hempty, htext.symm]
        · rw [if_neg hempty]
          split
          · rename_i hseen
            refine ⟨.inl, ?_⟩
            rintro (h | rfl)
            · exact h
            · exact hseen
          · simp [or_assoc, eq_comm]

/-- What is announced is announced by a candidate that is kept. -/
theorem exists_kept_announces (htext : text ≠ "") (h : ∃ e ∈ candidates, e.Announces text) :
    ∃ e ∈ (deduplicate candidates).kept, e.Announces text := by
  induction candidates using List.reverseRecOn with
  | nil => exact h
  | append_singleton candidates last ih =>
    rw [deduplicate_concat]
    by_cases hbefore : ∃ e ∈ candidates, e.Announces text
    · obtain ⟨e, he, hannounces⟩ := ih hbefore
      rcases dedupStep_cases (deduplicate candidates) last with hkept | ⟨hkept, -⟩
      · exact ⟨e, by simp [hkept, he], hannounces⟩
      · exact ⟨e, by rwa [hkept], hannounces⟩
    · -- nothing has announced the text, so the last candidate is kept
      have hlast : last.Announces text := by
        obtain ⟨e, he, hannounces⟩ := h
        rcases mem_append.mp he with he | he
        · exact absurd ⟨e, he, hannounces⟩ hbefore
        · rwa [mem_singleton.mp he] at hannounces
      refine ⟨last, ?_, hlast⟩
      rw [← seen_iff candidates htext] at hbefore
      rw [Candidate.Announces] at hlast
      rw [dedupStep]
      split
      · simp
      · rename_i hraw
        rw [if_neg hraw] at hlast
        simp [hlast, htext, hbefore]

theorem first_of_mem_kept {c : Candidate F} (hc : c ∈ (deduplicate candidates).kept) (hraw : c.isRaw = false)
    (hdedup : c.dedupText = some text) (htext : text ≠ "") :
    ∃ before after, candidates = before ++ c :: after ∧ ∀ e ∈ before, ¬e.Announces text := by
  induction candidates using List.reverseRecOn with
  | nil => simp [deduplicate] at hc
  | append_singleton candidates last ih =>
    by_cases hold : c ∈ (deduplicate candidates).kept
    · obtain ⟨before, after, rfl, hfirst⟩ := ih hold
      exact ⟨before, after ++ [last], by simp, hfirst⟩
    · rw [deduplicate_concat] at hc
      obtain rfl : c = last := by
        rcases dedupStep_cases (deduplicate candidates) last with hkept | ⟨hkept, -⟩
        · rw [hkept, mem_append, or_iff_right hold] at hc
          exact mem_singleton.mp hc
        · exact absurd (hkept ▸ hc) hold
      refine ⟨candidates, [], rfl, fun e he hannounces => hold ?_⟩
      have hseen := (seen_iff candidates htext).mpr ⟨e, he, hannounces⟩
      simpa [dedupStep, hraw, hdedup, htext, hseen] using hc

theorem Repeats.dedupText (h : Repeats candidates d text) : d.dedupText = some text := by
  obtain ⟨-, -, -, -, htext, -⟩ := h
  exact htext

variable {last : Candidate F}

theorem mem_duplicates_dedupStep {st : Deduplication F} :
    d ∈ (dedupStep st last).duplicates ↔ d ∈ st.duplicates ∨ d = last ∧ last.isRaw = false ∧
      ∃ text, last.dedupText = some text ∧ text ≠ "" ∧ (text ∈ st.seenRaw ∨ text ∈ st.seenRetrieval) := by
  rw [dedupStep]
  cases hraw : last.isRaw with
  | true => simp
  | false =>
    cases hdedup : last.dedupText with
    | none => simp
    | some text =>
      by_cases hempty : text = ""
      · simp [hempty]
      · by_cases hseen : text ∈ st.seenRaw ∨ text ∈ st.seenRetrieval
        · simp [hempty, hseen]
        · simp [hempty, hseen]

theorem repeats_concat :
    Repeats (candidates ++ [last]) d text ↔ Repeats candidates d text ∨ d = last ∧ last.isRaw = false ∧
      last.dedupText = some text ∧ text ≠ "" ∧ ∃ e ∈ candidates, e.Announces text := by
  constructor
  · rintro ⟨before, after, hsplit, hd⟩
    rcases eq_nil_or_concat after with rfl | ⟨rest, final, rfl⟩
    · obtain ⟨rfl, hlast⟩ := append_inj' hsplit rfl
      obtain rfl := singleton_inj.mp hlast
      exact .inr ⟨rfl, hd⟩
    · have hcut : candidates ++ [last] = before ++ d :: rest ++ [final] := by
        rw [hsplit, concat_eq_append, append_assoc, cons_append]
      exact .inl ⟨before, rest, (append_inj' hcut rfl).1, hd⟩
  · rintro (⟨before, after, rfl, hd⟩ | ⟨rfl, hd⟩)
    · exact ⟨before, after ++ [last], by rw [append_assoc, cons_append], hd⟩
    · exact ⟨candidates, [], rfl, hd⟩

/-- The loop drops exactly the candidates whose text was announced before them. -/
theorem mem_duplicates_iff : d ∈ (deduplicate candidates).duplicates ↔ ∃ text, Repeats candidates d text := by
  induction candidates using List.reverseRecOn with
  | nil => simp [deduplicate, Repeats]
  | append_singleton candidates last ih =>
    rw [deduplicate_concat, mem_duplicates_dedupStep, ih]
    simp only [repeats_concat, exists_or]
    refine or_congr_right ?_
    constructor
    · rintro ⟨rfl, hraw, text, hdedup, htext, hseen⟩
      exact ⟨text, rfl, hraw, hdedup, htext, (seen_iff candidates htext).mp hseen⟩
    · rintro ⟨text, rfl, hraw, hdedup, htext, hseen⟩
      exact ⟨rfl, hraw, text, hdedup, htext, (seen_iff candidates htext).mpr hseen⟩

end Filters

end ContextProxy
