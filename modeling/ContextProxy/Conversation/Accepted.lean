import ContextProxy.Conversation.Reconciliation

/-!
# What an accepted request looks like

The ways `reconcileProjection` accepts, each with its cut and its value: the incoming list is a prefix of the persisted one, or extends it, or is a compaction, or a truncated history with a new tail, or a bare persisted suffix that starts like the history itself. Appending the tail turns a split into another one (`Split.settle`), with which the next request is compared.
-/

namespace ContextProxy

open List

theorem agree_refl (messages : List Message) : Agree equivalent messages messages :=
  forall₂_same.mpr fun m _ => equivalent_refl m

variable {a incoming : List Message}

theorem Agree.trans_equivalent {b c : List Message} (hab : Agree equivalent a b) (hbc : Agree equivalent b c) :
    Agree equivalent a c := by
  induction hab generalizing c with
  | nil => exact hbc
  | cons h _ ih =>
    cases hbc with
    | cons h' hrest => exact .cons (equivalent_trans h h') (ih hrest)

/-! ### Operations on splits -/

namespace Split

/-- The split of the same request after its tail was appended. -/
def settle (s : Split) : Split where
  front := s.front
  dropped := s.dropped
  run := s.run ++ s.tail
  front' := s.front'
  gap := s.gap
  run' := s.run' ++ s.tail
  tail := []
  front_agree := s.front_agree
  heads_differ := by
    have h : HeadsDiffer equivalent (s.dropped ++ s.run) (s.gap ++ s.run') :=
      s.heads_differ.of_append_right (by simp [s.run'_ne_nil])
    simpa only [append_assoc, append_nil] using
      h.append (by simp [s.run_ne_nil]) (by simp [s.run'_ne_nil]) s.tail s.tail
  run_agree := s.run_agree.append (agree_refl s.tail)
  run_ne_nil := by simp [s.run_ne_nil]
  lasts_differ := s.lasts_differ
  tail_new := by simp
  tail_length := Nat.zero_le _

theorem settle_persisted (s : Split) : s.settle.persisted = s.persisted ++ s.tail := by
  simp only [persisted, settle, append_assoc]

theorem settle_incoming (s : Split) : s.settle.incoming = s.incoming := by
  simp only [incoming, settle, append_assoc, append_nil]

def reply (s : Split) (m : Message) (hm : LastsDiffer equivalent s.settle.run [m]) : Split where
  front := s.front
  dropped := s.dropped
  run := s.settle.run
  front' := s.front'
  gap := s.gap
  run' := s.settle.run'
  tail := [m]
  front_agree := s.front_agree
  heads_differ := by
    have h : HeadsDiffer equivalent (s.dropped ++ s.settle.run) (s.gap ++ s.settle.run') := by
      have := s.settle.heads_differ
      rwa [show s.settle.tail = [] from rfl, append_nil] at this
    simpa only [append_nil] using
      h.append (by simp [s.settle.run_ne_nil]) (by simp [s.settle.run'_ne_nil]) [] [m]
  run_agree := s.settle.run_agree
  run_ne_nil := s.settle.run_ne_nil
  lasts_differ := s.lasts_differ
  tail_new := by simpa using hm
  tail_length := by simp [maxScan]

theorem reply_persisted (s : Split) (m : Message) (hm : LastsDiffer equivalent s.settle.run [m]) :
    (s.reply m hm).persisted = s.persisted ++ s.tail := s.settle_persisted

theorem reply_incoming (s : Split) (m : Message) (hm : LastsDiffer equivalent s.settle.run [m]) :
    (s.reply m hm).incoming = s.incoming ++ [m] := by
  simp only [incoming, reply, settle, append_assoc]

variable {s : Split}

theorem gap_eq_nil_of_agree {q g : List Message} (hq : q ≠ []) (hp : s.persisted = q ++ g)
    (h : Agree equivalent g (s.front' ++ s.gap ++ s.run')) : s.gap = [] ∧ s.dropped ≠ [] := by
  obtain ⟨g₁, g₂, rfl, h₁, h₂⟩ := h.exists_of_append_right
  obtain ⟨g₀, g₁, rfl, h₀, h₁⟩ := h₁.exists_of_append_right
  have hlen₀ := h₀.length_eq
  have hlen₁ := h₁.length_eq
  have hlen₂ := h₂.length_eq
  have hfront := s.front_length
  have hrun := s.run_length
  have hqpos := length_pos_iff.mpr hq
  -- the runs have one length, so the rest of the suffix ends where the dropped part does
  have hcut : s.front ++ s.dropped = q ++ (g₀ ++ g₁) ∧ s.run = g₂ := by
    rw [persisted, ← append_assoc q] at hp
    exact append_inj' hp (by omega)
  have hlen := congrArg List.length hcut.1
  simp only [length_append] at hlen
  have hdropped : s.dropped ≠ [] := by
    rw [← length_pos_iff]
    omega
  refine ⟨?_, hdropped⟩
  by_contra hgap
  have hg₁ : g₁ ≠ [] := by
    rw [← length_pos_iff, hlen₁]
    exact length_pos_iff.mpr hgap
  have hlast : s.dropped.getLast? = g₁.getLast? := by
    have := congrArg List.getLast? hcut.1
    rwa [getLast?_append_of_ne_nil _ hdropped, ← append_assoc, getLast?_append_of_ne_nil _ hg₁] at this
  have hl := getLast?_eq_some_getLast hg₁
  have hl' := getLast?_eq_some_getLast hgap
  have hmatch := h₁.getLast hl hl'
  rw [s.lasts_differ _ (hlast.trans hl) _ hl'] at hmatch
  exact Bool.noConfusion hmatch

theorem tail_eq_nil_of_last {l l' : Message} (hl : l ∈ s.persisted.getLast?) (hl' : l' ∈ s.incoming.getLast?)
    (h : equivalent l l' = true) : s.tail = [] := by
  by_contra htail
  rw [incoming, getLast?_append_of_ne_nil _ htail] at hl'
  rw [s.getLast?_persisted] at hl
  have hmem : l' ∈ s.tail := mem_of_getLast? hl'
  rw [s.tail_new l' hmem l hl l' (by simp)] at h
  exact Bool.noConfusion h

theorem eq_nil_of_suffix {q g : List Message} (hq : q ≠ []) (hp : s.persisted = q ++ g)
    (h : Agree equivalent g s.incoming) : s.tail = [] ∧ s.gap = [] ∧ s.dropped ≠ [] := by
  have hne : s.incoming ≠ [] := by simp [incoming, s.run'_ne_nil]
  have hgne : g ≠ [] := by
    rintro rfl
    exact hne (forall₂_nil_left_iff.mp h)
  have hl := getLast?_eq_some_getLast hgne
  have hl' := getLast?_eq_some_getLast hne
  have hlast : s.persisted.getLast? = some (g.getLast hgne) := by rw [hp, getLast?_append_of_ne_nil _ hgne, hl]
  have htail : s.tail = [] := tail_eq_nil_of_last hlast hl' (h.getLast hl hl')
  refine ⟨htail, gap_eq_nil_of_agree hq hp ?_⟩
  rwa [incoming, htail, append_nil] at h

theorem lastsDiffer_run {bs : List Message} (h : LastsDiffer equivalent s.persisted bs) :
    LastsDiffer equivalent s.run bs := by
  rwa [LastsDiffer, s.getLast?_persisted] at h

end Split

/-! ### The accepting cases -/

/-- The split reads as a compaction: messages were dropped, and the gap left for them holds a summary. -/
def Split.Compacts (s : Split) : Prop := s.dropped ≠ [] ∧ s.gap.any isCompactionSummary = true

/-- The split reads as a truncation: the incoming list before the tail is a proper persisted suffix, and starts unlike the history. -/
def Split.Truncates (s : Split) : Prop := s.dropped ≠ [] ∧ s.front' = [] ∧ s.gap = []

variable {s : Split}

theorem Split.reconcile_of_compacts (h : s.Compacts) :
    reconcileProjection s.persisted s.incoming = { mode := .compacted, appendFrom := some s.tailStart } := by
  rw [s.reconcile_eq, if_neg h.1, if_pos h.2]

theorem Split.reconcile_of_truncates (h : s.Truncates) :
    reconcileProjection s.persisted s.incoming = if s.tail = [] then { mode := .truncate }
      else { mode := .truncateAppend, appendFrom := some s.tailStart } := by
  rw [s.reconcile_eq, if_neg h.1, if_neg (by rw [h.2.2]; simp), if_pos h.2]

theorem Split.Truncates.persisted_eq (h : s.Truncates) : s.persisted = s.dropped ++ s.run := by
  have hfront : s.front = [] := by rw [← length_eq_zero_iff, ← s.front_length, h.2.1, length_nil]
  rw [Split.persisted, hfront, nil_append]

theorem Split.Truncates.front_eq (h : s.Truncates) : s.front' ++ s.gap ++ s.run' = s.run' := by
  rw [h.2.1, h.2.2, nil_append, nil_append]

theorem Split.Truncates.heads_differ (h : s.Truncates) : HeadsDiffer equivalent s.persisted s.run' := by
  have hd := s.heads_differ
  rw [h.2.2, nil_append] at hd
  rw [h.persisted_eq]
  exact hd.of_append_right s.run'_ne_nil

theorem Split.reconcile_of_neither (hc : ¬ s.Compacts) (ht : ¬ s.Truncates) :
    reconcileProjection s.persisted s.incoming = suffixResult s.persisted s.incoming := by
  rw [s.reconcile_eq]
  by_cases hd : s.dropped = []
  · rw [if_pos hd]
  · rw [if_neg hd, if_neg fun hany => hc ⟨hd, hany⟩, if_neg fun hnil => ht ⟨hd, hnil⟩]

inductive Accepted (persisted incoming : List Message) : Prop
  | ofPrefix (a b : List Message) (hp : persisted = a ++ b) (h : Agree equivalent a incoming)
  | ofExtension (a b : List Message) (hi : incoming = a ++ b) (hb : b ≠ []) (h : Agree equivalent persisted a)
  | ofCompaction (s : Split) (hp : persisted = s.persisted) (hi : incoming = s.incoming) (h : s.Compacts)
  | ofTruncation (s : Split) (hp : persisted = s.persisted) (hi : incoming = s.incoming) (h : s.Truncates)
  | ofSuffix (s : Split) (q g : List Message) (hp : persisted = s.persisted) (hi : incoming = s.incoming)
      (hcut : persisted = q ++ g) (hq : q ≠ []) (h : Agree equivalent g incoming) (hfront : s.front' ≠ [])
      (hvalue : reconcileProjection persisted incoming = { mode := .truncate })

theorem accepted_of_not_conflict {persisted : List Message} (hne : incoming ≠ [])
    (h : (reconcileProjection persisted incoming).mode ≠ .conflict) : Accepted persisted incoming := by
  by_cases hpersisted : persisted = []
  · exact .ofExtension [] incoming rfl hne (by rw [hpersisted]; exact .nil)
  rcases verdict_cases hpersisted hne with ⟨a, b, hp, ha⟩ | ⟨a, b, hi, hb, ha⟩ | ⟨s, rfl, rfl⟩ | ⟨n, rfl, rfl⟩
  · exact .ofPrefix a b hp ha
  · exact .ofExtension a b hi hb ha
  · by_cases hc : s.Compacts
    · exact .ofCompaction s rfl rfl hc
    by_cases ht : s.Truncates
    · exact .ofTruncation s rfl rfl ht
    have hvalue := Split.reconcile_of_neither hc ht
    rcases suffixResult_cases s.persisted hne with ⟨q, g, hcut, hq, hg, hsuffix⟩ | hconflict
    · obtain ⟨-, hgap, hdropped⟩ := Split.eq_nil_of_suffix hq hcut hg
      exact .ofSuffix s q g rfl rfl hcut hq hg (fun hf => ht ⟨hdropped, hf, hgap⟩) (hvalue.trans hsuffix)
    · rw [hvalue, hconflict] at h
      exact absurd rfl h
  · rw [n.reconcile_eq] at h
    exact absurd rfl h

/-- Every proper persisted suffix is accepted as it is. -/
theorem reconcile_of_suffix {q g : List Message} (hq : q ≠ []) (hne : incoming ≠ []) (h : Agree equivalent g incoming) :
    reconcileProjection (q ++ g) incoming = { mode := .truncate } := by
  have hqpos := length_pos_iff.mpr hq
  have hlen := h.length_eq
  have hgne : g ≠ [] := by
    rintro rfl
    simp_all
  obtain ⟨l, hl⟩ := Option.isSome_iff_exists.mp (getLast?_isSome.mpr hgne)
  obtain ⟨l', hl'⟩ := Option.isSome_iff_exists.mp (getLast?_isSome.mpr hne)
  have hlast : equivalent l l' = true := h.getLast hl hl'
  have hl : (q ++ g).getLast? = some l := by rw [getLast?_append_of_ne_nil _ hgne]; exact hl
  rcases verdict_cases (by simp [hq] : q ++ g ≠ []) hne with ⟨a, b, hp, ha⟩ | ⟨a, b, hi, hb, ha⟩ | ⟨s, hp, rfl⟩ | ⟨n, hp, hi⟩
  · have hb : b ≠ [] := by
      rintro rfl
      have := congrArg List.length hp
      have := ha.length_eq
      simp only [length_append, length_nil] at *
      omega
    rw [hp, reconcile_of_front b hne ha, if_neg hb]
  · have := congrArg List.length hi
    have := ha.length_eq
    simp only [length_append] at *
    omega
  · rw [hp]
    obtain ⟨htail, hgap, hdropped⟩ := Split.eq_nil_of_suffix hq hp.symm h
    by_cases hfront : s.front' = []
    · rw [Split.reconcile_of_truncates ⟨hdropped, hfront, hgap⟩, if_pos htail]
    · rw [Split.reconcile_of_neither (fun hc => by simpa [hgap] using hc.2) (fun ht => hfront ht.2.1), ← hp]
      exact suffixResult_of_agree hq hne h
  · have hmem : l' ∈ n.rest'.drop (n.rest'.length - (maxScan + 1)) := by
      rw [hi, getLast?_append_of_ne_nil _ n.rest'_ne_nil] at hl'
      have hpos := length_pos_iff.mpr n.rest'_ne_nil
      apply mem_of_getLast?
      rw [getLast?_drop, if_neg (by omega)]
      exact hl'
    rw [hp, getLast?_append_of_ne_nil _ n.rest_ne_nil] at hl
    rw [n.unmatched l' hmem l hl l' (by simp)] at hlast
    exact Bool.noConfusion hlast

/-! ### What each case appends -/

theorem appends_of_front (b : List Message) (hne : incoming ≠ []) (h : Agree equivalent a incoming) :
    Appends (a ++ b) incoming [] := by
  rw [Appends, reconcile_of_front b hne h]
  split <;> simp [appendedTail]

theorem appends_of_agree {persisted : List Message} (h : Agree equivalent persisted a) (b : List Message) :
    Appends persisted (a ++ b) b := by
  by_cases hb : b = []
  · subst hb
    rw [append_nil]
    by_cases ha : a = []
    · simp [ha, Appends, reconcileProjection, appendedTail]
    · simpa using appends_of_front [] ha h
  · rw [Appends, reconcile_of_extension hb h, appendedTail, h.length_eq]
    simp

theorem appends_of_suffix {q g : List Message} (hq : q ≠ []) (hne : incoming ≠ []) (h : Agree equivalent g incoming) :
    Appends (q ++ g) incoming [] := by
  rw [Appends, reconcile_of_suffix hq hne h]
  simp [appendedTail]

theorem Split.appends_of_compacts (h : s.Compacts) : Appends s.persisted s.incoming s.tail := by
  rw [Appends, Split.reconcile_of_compacts h]
  exact ⟨by simp, s.drop_tailStart⟩

theorem Split.appends_of_truncates (h : s.Truncates) : Appends s.persisted s.incoming s.tail := by
  rw [Appends, Split.reconcile_of_truncates h]
  split
  · rename_i htail
    simp [appendedTail, htail]
  · exact ⟨by simp, s.drop_tailStart⟩

/-! ### What an accepted request leaves out -/

/-- The incoming messages in front of `append_from`, which is the end of the list when it is `None`. -/
def beforeTail (result : ReconciliationResult) (incoming : List Message) : List Message :=
  incoming.take (result.appendFrom.getD incoming.length)

/-- Which persisted messages have a counterpart: those in front of a block and those behind it, pointwise and in order. -/
structure Counterparts (persisted before : List Message) where
  front : List Message
  block : List Message
  back : List Message
  front' : List Message
  gap : List Message
  back' : List Message
  persisted_eq : persisted = front ++ block ++ back
  before_eq : before = front' ++ gap ++ back'
  front_agree : Agree equivalent front front'
  back_agree : Agree equivalent back back'

namespace Counterparts

variable {persisted before : List Message} (c : Counterparts persisted before)

/-- Where the block may lie, by mode. -/
def Allowed : Mode → Prop
  | .exact | .append => c.block = []
  | .truncate => c.front = [] ∨ c.back = []
  | .truncateAppend => c.front = [] ∧ c.block ≠ [] ∧ c.back ≠ []
  | .compacted => c.block ≠ [] ∧ c.back ≠ [] ∧ c.gap.any isCompactionSummary = true
  | .conflict => False

theorem exists_last (h : c.block = [] ∨ c.back ≠ []) (hne : persisted ≠ []) :
    ∃ last ∈ persisted.getLast?, ∃ m ∈ (c.front' ++ c.back').getLast?, equivalent last m = true := by
  have hlast : persisted.getLast? = (c.front ++ c.back).getLast? := by
    have hcut : persisted.getLast? = (c.front ++ c.block ++ c.back).getLast? := congrArg _ c.persisted_eq
    rcases h with hblock | hback
    · rw [hcut, hblock, append_nil]
    · rw [hcut, getLast?_append_of_ne_nil _ hback, getLast?_append_of_ne_nil _ hback]
  have hagree := c.front_agree.append c.back_agree
  have hkept : c.front ++ c.back ≠ [] := by
    intro hnil
    rw [hnil, getLast?_nil, getLast?_eq_none_iff] at hlast
    exact hne hlast
  have hkept' : c.front' ++ c.back' ≠ [] := by
    rw [← length_pos_iff, ← hagree.length_eq]
    exact length_pos_iff.mpr hkept
  have ha := getLast?_eq_some_getLast hkept
  have hb := getLast?_eq_some_getLast hkept'
  exact ⟨_, hlast.trans ha, _, hb, hagree.getLast ha hb⟩

end Counterparts

theorem Split.beforeTail_eq (s : Split) (mode : Mode) :
    beforeTail { mode, appendFrom := some s.tailStart } s.incoming = s.front' ++ s.gap ++ s.run' := s.take_tailStart

def Split.counterparts (s : Split) : Counterparts s.persisted (s.front' ++ s.gap ++ s.run') :=
  ⟨s.front, s.dropped, s.run, s.front', s.gap, s.run', rfl, rfl, s.front_agree, s.run_agree⟩

theorem beforeTail_of_none {result : ReconciliationResult} (h : result.appendFrom = none) (incoming : List Message) :
    beforeTail result incoming = incoming := by
  rw [beforeTail, h, Option.getD_none, take_length]

/-- In an accepted request the persisted messages without a counterpart are one block, which lies where the mode says, and never at the end of a history that is continued. -/
theorem accepted_leaves_out {persisted incoming : List Message} (hne : incoming ≠ [])
    (haccept : (reconcileProjection persisted incoming).mode ≠ .conflict) :
    ∃ c : Counterparts persisted (beforeTail (reconcileProjection persisted incoming) incoming),
      c.Allowed (reconcileProjection persisted incoming).mode ∧
        (persisted ≠ [] → appendedTail (reconcileProjection persisted incoming) incoming ≠ [] →
          ∃ last ∈ persisted.getLast?, ∃ m ∈ (c.front' ++ c.back').getLast?, equivalent last m = true) := by
  suffices ∃ c : Counterparts persisted (beforeTail (reconcileProjection persisted incoming) incoming),
      c.Allowed (reconcileProjection persisted incoming).mode ∧
        (appendedTail (reconcileProjection persisted incoming) incoming ≠ [] → c.block = [] ∨ c.back ≠ []) by
    obtain ⟨c, hallowed, hend⟩ := this
    exact ⟨c, hallowed, fun hpersisted htail => c.exists_last (hend htail) hpersisted⟩
  cases accepted_of_not_conflict hne haccept with
  | ofPrefix a b hp h =>
    subst hp
    by_cases hb : b = []
    · rw [reconcile_of_front b hne h, if_pos hb, beforeTail_of_none rfl]
      exact ⟨⟨a, b, [], incoming, [], [], by simp, by simp, h, .nil⟩, hb, fun _ => .inl hb⟩
    · rw [reconcile_of_front b hne h, if_neg hb, beforeTail_of_none rfl]
      exact ⟨⟨a, b, [], incoming, [], [], by simp, by simp, h, .nil⟩, .inr rfl, fun htail => absurd rfl htail⟩
  | ofExtension a b hi hb h =>
    subst hi
    rw [reconcile_of_extension hb h]
    have hbefore : beforeTail { mode := .append, appendFrom := some persisted.length } (a ++ b) = a := by
      rw [beforeTail, Option.getD_some, h.length_eq, take_left]
    rw [hbefore]
    exact ⟨⟨persisted, [], [], a, [], [], by simp, by simp, h, .nil⟩, rfl, fun _ => .inl rfl⟩
  | ofCompaction s hp hi h =>
    subst hp hi
    rw [Split.reconcile_of_compacts h, s.beforeTail_eq]
    exact ⟨s.counterparts, ⟨h.1, s.run_ne_nil, h.2⟩, fun _ => .inr s.run_ne_nil⟩
  | ofTruncation s hp hi h =>
    subst hp hi
    have hfront : s.front = [] := by rw [← length_eq_zero_iff, ← s.front_length, h.2.1, length_nil]
    by_cases htail : s.tail = []
    · have hbefore : beforeTail { mode := .truncate } s.incoming = s.front' ++ s.gap ++ s.run' := by
        rw [beforeTail_of_none rfl, Split.incoming, htail, append_nil]
      rw [Split.reconcile_of_truncates h, if_pos htail, hbefore]
      exact ⟨s.counterparts, .inl hfront, fun _ => .inr s.run_ne_nil⟩
    · rw [Split.reconcile_of_truncates h, if_neg htail, s.beforeTail_eq]
      exact ⟨s.counterparts, ⟨hfront, h.1, s.run_ne_nil⟩, fun _ => .inr s.run_ne_nil⟩
  | ofSuffix s q g hp hi hcut hq h hfront =>
    subst hcut
    rw [reconcile_of_suffix hq hne h, beforeTail_of_none rfl]
    exact ⟨⟨[], q, g, [], [], incoming, by simp, by simp, .nil, h⟩, .inl rfl, fun htail => absurd rfl htail⟩

/-- A history of three messages, sent back with its second message summarised away and a new message behind it. -/
theorem accepted_leaves_out_compacted :
    let persisted := [textMessage "user" "A", textMessage "assistant" "B", textMessage "user" "C"]
    let incoming : List Message := [textMessage "user" "A", [("role", .str "user"), ("summary", .bool true)],
      textMessage "user" "C", textMessage "user" "D"]
    (reconcileProjection persisted incoming).mode = .compacted ∧
      ∃ c : Counterparts persisted (beforeTail (reconcileProjection persisted incoming) incoming),
        c.Allowed (reconcileProjection persisted incoming).mode ∧
          (persisted ≠ [] → appendedTail (reconcileProjection persisted incoming) incoming ≠ [] →
            ∃ last ∈ persisted.getLast?, ∃ m ∈ (c.front' ++ c.back').getLast?, equivalent last m = true) := by
  have hmode : (reconcileProjection [textMessage "user" "A", textMessage "assistant" "B", textMessage "user" "C"]
      [textMessage "user" "A", [("role", .str "user"), ("summary", .bool true)], textMessage "user" "C",
        textMessage "user" "D"]).mode = .compacted := by decide
  exact ⟨hmode, accepted_leaves_out (by simp) (by rw [hmode]; simp)⟩

end ContextProxy
