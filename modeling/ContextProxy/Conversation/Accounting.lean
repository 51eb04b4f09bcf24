import ContextProxy.Conversation.Projections

/-!
# Where every incoming message goes

An accepted request should lose nothing: each message is appended, or stands for a persisted one, or is a summary. For full and truncated projections this is so, since what is not appended is matched position by position. In a compaction only the front and the run are. Of the gap the code asks that it hold a summary somewhere, so a rewritten message beside it is dropped without a word.
-/

namespace ContextProxy

open List

/-- Every incoming message is appended, or matched by an order-preserving partial map to an equivalent persisted message, or recognised as a summary. -/
def Accounted (persisted incoming : List Message) (result : ReconciliationResult) : Prop :=
  ∃ f : ℕ → Option ℕ, (∀ i j p q, i < j → f i = some p → f j = some q → p < q) ∧
    ∀ i m, incoming[i]? = some m →
      (∃ start, result.appendFrom = some start ∧ start ≤ i) ∨
        (∃ p l, f i = some p ∧ persisted[p]? = some l ∧ equivalent l m = true) ∨ isCompactionSummary m = true

def contentOf (messages : List Message) : List Message := messages.filter fun m => !isCompactionSummary m

theorem contentOf_append (a b : List Message) : contentOf (a ++ b) = contentOf a ++ contentOf b := filter_append ..

theorem accounted_iff_embeds (persisted incoming : List Message) (result : ReconciliationResult) :
    Accounted persisted incoming result ↔
      Embeds equivalent (contentOf (incoming.take (result.appendFrom.getD incoming.length))) persisted := by
  rw [contentOf, ← matchedInOrder_iff]
  refine exists_congr fun f => and_congr_right fun _ => ?_
  constructor
  · intro h i m hm
    rw [getElem?_take] at hm
    split_ifs at hm with hi
    refine (h i m hm).resolve_left ?_
    rintro ⟨start, hstart, hle⟩
    rw [hstart, Option.getD_some] at hi
    omega
  · intro h i m hm
    cases hstart : result.appendFrom with
    | none =>
      rw [hstart, Option.getD_none, take_length] at h
      exact .inr (h i m hm)
    | some start =>
      rw [hstart, Option.getD_some] at h
      by_cases hi : start ≤ i
      · exact .inl ⟨start, rfl, hi⟩
      · exact .inr (h i m (by rw [getElem?_take, if_pos (by omega)]; exact hm))

theorem Split.accounted_of_compacts {s : Split} (h : s.Compacts) :
    Accounted s.persisted s.incoming (reconcileProjection s.persisted s.incoming) ↔
      Embeds equivalent (contentOf s.front' ++ contentOf s.gap ++ contentOf s.run') s.persisted := by
  rw [accounted_iff_embeds, Split.reconcile_of_compacts h, Option.getD_some, s.take_tailStart, contentOf_append,
    contentOf_append]

theorem Split.accounted_of_truncates {s : Split} (h : s.Truncates) :
    Accounted s.persisted s.incoming (reconcileProjection s.persisted s.incoming) := by
  have hcovered : Embeds equivalent (contentOf s.run') s.persisted :=
    (s.run_agree.embeds_filter _).of_sublist (sublist_append_right _ _)
  rw [accounted_iff_embeds, Split.reconcile_of_truncates h]
  split
  · rename_i htail
    rw [Option.getD_none, take_length, Split.incoming, htail, append_nil, h.front_eq]
    exact hcovered
  · rw [Option.getD_some, s.take_tailStart, h.front_eq]
    exact hcovered

/-- In a compaction, the content of the gap is found, in order, among the messages the gap replaces. -/
def GapCovered (persisted incoming : List Message) : Prop :=
  ∀ s : Split, s.persisted = persisted → s.incoming = incoming → s.Compacts →
    Embeds equivalent (contentOf s.gap) s.dropped

def SummariesAlike (persisted incoming : List Message) : Prop :=
  ∀ l ∈ persisted, ∀ m ∈ incoming, equivalent l m = true → isCompactionSummary l = isCompactionSummary m

variable {incoming persisted : List Message}

theorem accounted_of_gapCovered (hne : incoming ≠ []) (h : GapCovered persisted incoming)
    (haccept : (reconcileProjection persisted incoming).mode ≠ .conflict) :
    Accounted persisted incoming (reconcileProjection persisted incoming) := by
  rcases accepted_of_not_conflict hne haccept with
    ⟨a, b, rfl, ha⟩ | ⟨a, b, rfl, hb, ha⟩ | ⟨s, rfl, rfl, hc⟩ | ⟨s, rfl, rfl, ht⟩ | ⟨_, q, g, _, _, rfl, _, hg, _, hvalue⟩
  · have hvalue : (reconcileProjection (a ++ b) incoming).appendFrom = none := by
      rw [reconcile_of_front b hne ha]
      split <;> rfl
    rw [accounted_iff_embeds, hvalue, Option.getD_none, take_length]
    exact (ha.embeds_filter _).of_sublist (sublist_append_left a b)
  · rw [accounted_iff_embeds, reconcile_of_extension hb ha, Option.getD_some, ha.length_eq, take_left]
    exact ha.embeds_filter _
  · rw [Split.accounted_of_compacts hc]
    exact ((s.front_agree.embeds_filter _).append (h s rfl rfl hc)).append (s.run_agree.embeds_filter _)
  · exact Split.accounted_of_truncates ht
  · rw [accounted_iff_embeds, hvalue, Option.getD_none, take_length]
    exact (hg.embeds_filter _).of_sublist (sublist_append_right q g)

theorem SummariesAlike.mono {persisted' incoming' : List Message} (h : SummariesAlike persisted incoming)
    (hp : persisted' ⊆ persisted) (hi : incoming' ⊆ incoming) :
    SummariesAlike persisted' incoming' := fun l hl m hm => h l (hp hl) m (hi hm)

theorem SummariesAlike.length_contentOf {a b : List Message} (h : SummariesAlike a b) (hagree : Agree equivalent a b) :
    (contentOf b).length = (contentOf a).length := by
  induction hagree with
  | nil => rfl
  | @cons l m a b hlm _ ih =>
    have hsame := h l mem_cons_self m mem_cons_self hlm
    have hrest := ih (h.mono (subset_cons_self ..) (subset_cons_self ..))
    cases hm : isCompactionSummary m with
    | true => simpa [contentOf, hm, hsame.trans hm] using hrest
    | false => simpa [contentOf, hm, hsame.trans hm] using hrest

theorem SummariesAlike.embeds_contentOf {a b : List Message} (h : SummariesAlike a b) (hplain : contentOf b = b)
    (hembeds : Embeds equivalent b a) : Embeds equivalent b (contentOf a) := by
  induction hembeds with
  | nil => exact .nil
  | @cons m l b a hlm _ ih =>
    obtain ⟨hm, hrest⟩ : isCompactionSummary m = false ∧ contentOf b = b := by
      have hall := filter_eq_self.mp hplain
      exact ⟨by simpa using hall m mem_cons_self,
        filter_eq_self.mpr fun x hx => hall x (mem_cons_of_mem _ hx)⟩
    have hl := (h l mem_cons_self m mem_cons_self hlm).trans hm
    rw [contentOf, filter_cons, if_pos (by simp [hl])]
    exact .cons hlm (ih (h.mono (subset_cons_self ..) (subset_cons_self ..)) hrest)
  | @cons_right l b a _ ih =>
    exact (ih (h.mono (subset_cons_self ..) (List.Subset.refl _)) hplain).of_sublist
      ((sublist_cons_self l a).filter _)

/-- Where summaries answer to summaries, the matched parts take up their own places, and the gap has only the dropped messages left. -/
theorem gapCovered_of_accounted (halike : SummariesAlike persisted incoming)
    (h : (reconcileProjection persisted incoming).mode ≠ .conflict →
      Accounted persisted incoming (reconcileProjection persisted incoming)) : GapCovered persisted incoming := by
  intro s hp hi hc
  subst hp hi
  have hembeds := (Split.accounted_of_compacts hc).mp (h (Split.appends_of_compacts hc).1)
  have hsub : contentOf (s.front' ++ s.gap ++ s.run') ⊆ s.incoming :=
    List.Subset.trans (filter_subset_self ..) (subset_append_left _ _)
  rw [← contentOf_append, ← contentOf_append] at hembeds
  have hplain : contentOf (contentOf (s.front' ++ s.gap ++ s.run')) = contentOf (s.front' ++ s.gap ++ s.run') := by
    simp [contentOf]
  have hcontent := (halike.mono (List.Subset.refl _) hsub).embeds_contentOf hplain hembeds
  rw [Split.persisted, contentOf_append, contentOf_append, contentOf_append, contentOf_append] at hcontent
  have hfront := (halike.mono (by simp [Split.persisted]) (by simp [Split.incoming])).length_contentOf s.front_agree
  have hrun := (halike.mono (subset_append_right _ _)
    (List.Subset.trans (subset_append_right _ _) (subset_append_left _ _))).length_contentOf s.run_agree
  exact (Embeds.middle hcontent hfront hrun).of_sublist filter_sublist

/-- No message is lost by an accepted request whose gap only repeats dropped messages beside its summaries. The converse needs that equivalence does not confuse a summary with another message: a summary among the matched messages asks for no partner, and a message of the gap could take its place. -/
theorem accounted_iff_gapCovered {persisted incoming : List Message} (hne : incoming ≠ []) :
    (GapCovered persisted incoming → (reconcileProjection persisted incoming).mode ≠ .conflict →
        Accounted persisted incoming (reconcileProjection persisted incoming)) ∧
      (SummariesAlike persisted incoming →
        (((reconcileProjection persisted incoming).mode ≠ .conflict →
          Accounted persisted incoming (reconcileProjection persisted incoming)) ↔ GapCovered persisted incoming)) :=
  ⟨accounted_of_gapCovered hne, fun halike =>
    ⟨gapCovered_of_accounted halike, accounted_of_gapCovered hne⟩⟩

/-- A kept answer and a summary stand for two dropped messages. -/
theorem accounted_summary_gap :
    let persisted := [textMessage "user" "A", textMessage "assistant" "B", textMessage "assistant" "D", textMessage "user" "C"]
    let incoming := [textMessage "user" "A", textMessage "assistant" "D", ("summary", .bool true) :: textMessage "user" "S",
      textMessage "user" "C"]
    reconcileProjection persisted incoming = { mode := .compacted, appendFrom := some 4 } ∧
      GapCovered persisted incoming ∧
        Accounted persisted incoming { mode := .compacted, appendFrom := some 4 } := by
  intro persisted incoming
  have hvalue : reconcileProjection persisted incoming = { mode := .compacted, appendFrom := some 4 } := by decide +kernel
  have halike : SummariesAlike persisted incoming := by
    have : ∀ l ∈ persisted, ∀ m ∈ incoming, equivalent l m = true → isCompactionSummary l = isCompactionSummary m := by
      decide +kernel
    exact this
  have haccounted : Accounted persisted incoming (reconcileProjection persisted incoming) := by
    have hcontent : contentOf (incoming.take 4) = [textMessage "user" "A", textMessage "assistant" "D", textMessage "user" "C"] := by
      decide +kernel
    rw [accounted_iff_embeds, hvalue, Option.getD_some, hcontent]
    exact .cons (by decide +kernel) (.cons_right (.cons (by decide +kernel) (.cons (by decide +kernel) .nil)))
  have hgap := ((accounted_iff_gapCovered (cons_ne_nil _ _)).2 halike).mp fun _ => haccounted
  exact ⟨hvalue, hgap, hvalue ▸ (accounted_iff_gapCovered (cons_ne_nil _ _)).1 hgap (by rw [hvalue]; decide)⟩

-- The summary of the front needs no partner, and its place is free for a message whose flag is 1, which Python holds equal to `True`.
example :
    let kept := ("summary", Json.bool true) :: textMessage "user" "S"
    let gap := [("summary", Json.int 1) :: textMessage "user" "S", ("mode", .str "compaction") :: textMessage "user" "T"]
    let persisted := [kept] ++ [textMessage "assistant" "D"] ++ [textMessage "user" "C"]
    let incoming := [kept] ++ gap ++ [textMessage "user" "C"] ++ []
    Accounted persisted incoming (reconcileProjection persisted incoming) ∧ ¬ GapCovered persisted incoming := by
  intro kept gap persisted incoming
  have hvalue : reconcileProjection persisted incoming = { mode := .compacted, appendFrom := some 4 } := by decide +kernel
  have hcontent : contentOf (incoming.take 4) = [("summary", .int 1) :: textMessage "user" "S", textMessage "user" "C"] := by
    decide +kernel
  refine ⟨?_, fun h => ?_⟩
  · rw [accounted_iff_embeds, hvalue, Option.getD_some, hcontent]
    exact .cons (by decide +kernel) (.cons_right (.cons (by decide +kernel) .nil))
  · let s : Split := {
      front := [kept], dropped := [textMessage "assistant" "D"], run := [textMessage "user" "C"]
      front' := [kept], gap := gap, run' := [textMessage "user" "C"], tail := []
      front_agree := .cons (by decide +kernel) .nil
      heads_differ := by decide +kernel
      run_agree := .cons (by decide +kernel) .nil
      run_ne_nil := by simp
      lasts_differ := by decide +kernel
      tail_new := by simp
      tail_length := by simp }
    have hembeds : Embeds equivalent (contentOf gap) [textMessage "assistant" "D"] :=
      h s rfl rfl ⟨by simp [s], by decide +kernel⟩
    have hgap : contentOf gap = [("summary", .int 1) :: textMessage "user" "S"] := by decide +kernel
    rw [hgap] at hembeds
    cases hembeds with
    | cons hab _ => exact absurd hab (by decide +kernel)
    | cons_right h => cases h

/-- A rewritten message beside a summary: the request is accepted, and "rewritten" is neither stored, nor appended, nor a summary. -/
theorem rewritten_message_lost :
    (reconcileProjection [textMessage "user" "A", textMessage "assistant" "B", textMessage "user" "C"]
        [textMessage "user" "A", textMessage "user" "rewritten", ("summary", .bool true) :: textMessage "user" "S",
          textMessage "user" "C"]).mode ≠ .conflict ∧
      ¬ Accounted [textMessage "user" "A", textMessage "assistant" "B", textMessage "user" "C"]
        [textMessage "user" "A", textMessage "user" "rewritten", ("summary", .bool true) :: textMessage "user" "S",
          textMessage "user" "C"]
        (reconcileProjection [textMessage "user" "A", textMessage "assistant" "B", textMessage "user" "C"]
          [textMessage "user" "A", textMessage "user" "rewritten", ("summary", .bool true) :: textMessage "user" "S",
            textMessage "user" "C"]) := by
  have hvalue : reconcileProjection [textMessage "user" "A", textMessage "assistant" "B", textMessage "user" "C"]
      [textMessage "user" "A", textMessage "user" "rewritten", ("summary", .bool true) :: textMessage "user" "S",
        textMessage "user" "C"] = { mode := .compacted, appendFrom := some 4 } := by decide +kernel
  rw [hvalue]
  refine ⟨by decide, ?_⟩
  rintro ⟨f, -, h⟩
  rcases h 1 (textMessage "user" "rewritten") rfl with ⟨start, hstart, hle⟩ | ⟨p, l, -, hl, hmatch⟩ | hsummary
  · have hfour : start = 4 := (Option.some.inj hstart).symm
    omega
  · have hnone : ∀ l ∈ [textMessage "user" "A", textMessage "assistant" "B", textMessage "user" "C"],
        equivalent l (textMessage "user" "rewritten") = false := by decide +kernel
    rw [hnone l (mem_of_getElem? hl)] at hmatch
    exact Bool.noConfusion hmatch
  · exact absurd hsummary (by decide)

end ContextProxy
