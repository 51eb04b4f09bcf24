import ContextProxy.Conversation.Message
import ContextProxy.Lib.Align

/-!
# Projection-aware reconciliation

`reconcileProjection` compares the persisted history with what the client sent and says what may be appended. It looks at the longest common prefix, the run of the incoming list that ends at the latest message matching the last persisted one, and, when neither settles it, the longest common suffix.

The functions count with indices, as the loops of the source do. `Split` is the cut of both histories that the anchor scan finds, and `verdict_cases` says that two non-empty histories are a prefix of one another, or have a split, or share no anchor. Each case comes with the value of `reconcileProjection`, so nothing after this module unfolds it.
-/

namespace ContextProxy

open List

inductive Mode where
  | exact
  | append
  | truncate
  | truncateAppend
  | compacted
  | conflict
  deriving DecidableEq, Repr

structure ReconciliationResult where
  mode : Mode
  appendFrom : Option Nat := none
  deriving DecidableEq, Repr

def prefixLen (persisted incoming : List Message) : Nat := agreeLen equivalent persisted incoming

/-- `_suffix_match`: where the longest suffix shared by both sequences starts in each. -/
def suffixMatch (persisted incoming : List Message) : Option (Nat × Nat) :=
  let (p, i) := walkBack equivalent persisted incoming 0 persisted.length incoming.length
  if p = persisted.length then none else some (p, i)

def maxScan : Nat := 128

/-- The `for incoming_end` loop of `_anchor_before_tail`, from `incoming_end` down to `lower`. -/
def anchorScan (persisted incoming : List Message) (common lower : Nat) : Nat → Option (Nat × Nat × Nat)
  | 0 => none
  | before + 1 =>
    if before + 1 < lower then none
    else if persisted.length - 1 < common ∨ before < common then anchorScan persisted incoming common lower before
    else
      let (p, i) := walkBack equivalent persisted incoming common persisted.length (before + 1)
      if i < before + 1 then some (p, i, before + 1) else anchorScan persisted incoming common lower before

/-- `_anchor_before_tail`: a persisted suffix occurring before a new incoming tail. -/
def anchorBeforeTail (persisted incoming : List Message) (common : Nat) : Option (Nat × Nat × Nat) :=
  if incoming.length ≤ common ∨ persisted.length ≤ common then none
  else anchorScan persisted incoming common (max (common + 1) (incoming.length - maxScan)) incoming.length

def anchorResult (incoming : List Message) (common : Nat) : Nat × Nat × Nat → Option ReconciliationResult
  | (persistedStart, incomingStart, incomingEnd) =>
    let gap := (incoming.take incomingStart).drop common
    if common < persistedStart then
      if gap.any isCompactionSummary then some { mode := .compacted, appendFrom := some incomingEnd }
      else if incomingStart = 0 then
        if incomingEnd = incoming.length then some { mode := .truncate }
        else some { mode := .truncateAppend, appendFrom := some incomingEnd }
      else none
    else none

/-- A pure tail projection is safe only when the incoming sequence itself is exactly a persisted suffix. -/
def suffixResult (persisted incoming : List Message) : ReconciliationResult :=
  match suffixMatch persisted incoming with
  | some (p, i) => if i = 0 ∧ 0 < p then { mode := .truncate } else { mode := .conflict }
  | none => { mode := .conflict }

def reconcileProjection (persisted incoming : List Message) : ReconciliationResult :=
  if incoming = [] then { mode := .exact }
  else if persisted = [] then { mode := .append, appendFrom := some 0 }
  else
    let common := prefixLen persisted incoming
    if common = incoming.length then
      if incoming.length = persisted.length then { mode := .exact } else { mode := .truncate }
    else if common = persisted.length then { mode := .append, appendFrom := some persisted.length }
    else
      match (anchorBeforeTail persisted incoming common).bind (anchorResult incoming common) with
      | some result => result
      | none => suffixResult persisted incoming

/-- `messages[result.append_from:]`, or nothing when `append_from` is `None` or past the end. -/
def appendedTail (result : ReconciliationResult) (incoming : List Message) : List Message :=
  match result.appendFrom with
  | none => []
  | some start => incoming.drop start

def applied (persisted incoming : List Message) : List Message :=
  persisted ++ appendedTail (reconcileProjection persisted incoming) incoming

/-- The request is accepted, and exactly `new` is appended. -/
def Appends (persisted incoming new : List Message) : Prop :=
  (reconcileProjection persisted incoming).mode ≠ .conflict ∧
    appendedTail (reconcileProjection persisted incoming) incoming = new

instance (persisted incoming new : List Message) : Decidable (Appends persisted incoming new) :=
  inferInstanceAs (Decidable (_ ∧ _))

variable {new front front' rest rest' : List Message}

theorem Appends.applied_eq {persisted incoming : List Message} (h : Appends persisted incoming new) :
    applied persisted incoming = persisted ++ new := by
  rw [applied, h.2]

theorem Appends.unique {persisted incoming new' : List Message} (h : Appends persisted incoming new)
    (h' : Appends persisted incoming new') : new = new' := h.2.symm.trans h'.2

/-! ### The cut the anchor scan finds -/

/-- Both histories, cut at the longest common prefix and at the latest anchor: the run that ends the persisted side occurs, as far back as it matches, before the incoming tail. -/
structure Split where
  front : List Message
  dropped : List Message
  run : List Message
  front' : List Message
  gap : List Message
  run' : List Message
  tail : List Message
  front_agree : Agree equivalent front front'
  heads_differ : HeadsDiffer equivalent (dropped ++ run) (gap ++ run' ++ tail)
  run_agree : Agree equivalent run run'
  run_ne_nil : run ≠ []
  lasts_differ : LastsDiffer equivalent dropped gap
  tail_new : ∀ t ∈ tail, LastsDiffer equivalent run [t]
  tail_length : tail.length ≤ maxScan

def Split.persisted (s : Split) : List Message := s.front ++ s.dropped ++ s.run

def Split.incoming (s : Split) : List Message := s.front' ++ s.gap ++ s.run' ++ s.tail

def Split.tailStart (s : Split) : Nat := s.front'.length + s.gap.length + s.run'.length

/-- Both histories, cut at the longest common prefix, where the last persisted message occurs nowhere in the scanned part of the incoming rest. -/
structure NoAnchor where
  front : List Message
  rest : List Message
  front' : List Message
  rest' : List Message
  front_agree : Agree equivalent front front'
  heads_differ : HeadsDiffer equivalent rest rest'
  rest_ne_nil : rest ≠ []
  rest'_ne_nil : rest' ≠ []
  unmatched : ∀ m ∈ rest'.drop (rest'.length - (maxScan + 1)), LastsDiffer equivalent rest [m]

theorem exists_split_or_noAnchor (hfront : Agree equivalent front front') (hdiffer : HeadsDiffer equivalent rest rest')
    (hrest : rest ≠ []) (hrest' : rest' ≠ []) :
    (∃ s : Split, front ++ rest = s.persisted ∧ front' ++ rest' = s.incoming) ∨
      ∃ n : NoAnchor, front ++ rest = n.front ++ n.rest ∧ front' ++ rest' = n.front' ++ n.rest' := by
  have hlast := getLast?_eq_some_getLast hrest
  rcases exists_lastMatch (equivalent (rest.getLast hrest)) (rest'.drop (rest'.length - (maxScan + 1))) with
    hnone | ⟨before, m, tail, hcut, hm, htail⟩
  · refine .inr ⟨⟨front, rest, front', rest', hfront, hdiffer, hrest, hrest', fun m hm => ?_⟩, rfl, rfl⟩
    simpa [LastsDiffer, hlast] using hnone m hm
  · obtain ⟨dropped, run, gap, run', hrun, hrun', hagree, hstop⟩ := exists_commonSuffix equivalent rest
      (rest'.take (rest'.length - (maxScan + 1)) ++ before ++ [m])
    -- the anchor message matches the last persisted one, so the run holds at least these two
    have hne : run ≠ [] := by
      rintro rfl
      have hrun'nil : run' = [] := by simpa using hagree
      subst hrun'nil
      simp only [append_nil] at hrun hrun'
      subst hrun
      have := hstop _ hlast m (by simp [← hrun'])
      simp [this] at hm
    have hsplit : rest' = gap ++ run' ++ tail := by
      rw [← hrun', append_assoc, append_assoc, singleton_append, ← hcut, take_append_drop]
    have hlen : tail.length ≤ maxScan := by
      have := congrArg List.length hcut
      simp only [length_drop, length_append, length_cons] at this
      omega
    have hrunlast : run.getLast? = some (rest.getLast hrest) := by
      rw [← hlast, hrun, getLast?_append_of_ne_nil _ hne]
    have hnew : ∀ t ∈ tail, LastsDiffer equivalent run [t] := fun t ht => by
      simpa [LastsDiffer, hrunlast] using htail t ht
    refine .inl ⟨⟨front, dropped, run, front', gap, run', tail, hfront, by rwa [← hrun, ← hsplit], hagree, hne, hstop,
      hnew, hlen⟩, ?_, ?_⟩
    · change front ++ rest = front ++ dropped ++ run
      rw [hrun, append_assoc]
    · change front' ++ rest' = front' ++ gap ++ run' ++ tail
      rw [hsplit]
      simp only [append_assoc]

/-- Two non-empty histories are a prefix of one another, or meet in an anchor, or have none. -/
theorem verdict_cases {persisted incoming : List Message} (hpersisted : persisted ≠ []) (hincoming : incoming ≠ []) :
    (∃ a b, persisted = a ++ b ∧ Agree equivalent a incoming) ∨
      (∃ a b, incoming = a ++ b ∧ b ≠ [] ∧ Agree equivalent persisted a) ∨
        (∃ s : Split, persisted = s.persisted ∧ incoming = s.incoming) ∨
          ∃ n : NoAnchor, persisted = n.front ++ n.rest ∧ incoming = n.front' ++ n.rest' := by
  obtain ⟨front, rest, front', rest', rfl, rfl, hfront, hdiffer⟩ := exists_commonPrefix equivalent persisted incoming
  by_cases hrest' : rest' = []
  · exact .inl ⟨front, rest, rfl, by simpa [hrest'] using hfront⟩
  · by_cases hrest : rest = []
    · exact .inr (.inl ⟨front', rest', rfl, hrest', by simpa [hrest] using hfront⟩)
    · exact .inr (.inr (exists_split_or_noAnchor hfront hdiffer hrest hrest'))

/-! ### The value in each case -/

theorem reconcile_of_front {a : List Message} {incoming : List Message} (b : List Message) (hne : incoming ≠ [])
    (h : Agree equivalent a incoming) :
    reconcileProjection (a ++ b) incoming = if b = [] then { mode := .exact } else { mode := .truncate } := by
  have hlen := h.length_eq
  have hane : a ≠ [] := by
    rintro rfl
    simp_all
  have hcommon : prefixLen (a ++ b) incoming = incoming.length := by
    have := agreeLen_of_cut h (show HeadsDiffer equivalent b [] by simp [HeadsDiffer])
    rwa [append_nil, hlen] at this
  rw [reconcileProjection, if_neg hne, if_neg (by simp [hane])]
  simp only [hcommon, if_true]
  by_cases hb : b = []
  · rw [if_pos hb, if_pos (by rw [hb, append_nil, hlen])]
  · have := length_pos_iff.mpr hb
    rw [if_neg hb, if_neg (by rw [length_append]; omega)]

theorem reconcile_of_extension {persisted a b : List Message} (hb : b ≠ []) (h : Agree equivalent persisted a) :
    reconcileProjection persisted (a ++ b) = { mode := .append, appendFrom := some persisted.length } := by
  have hlen := h.length_eq
  have hpos := length_pos_iff.mpr hb
  have hcommon : prefixLen persisted (a ++ b) = persisted.length := by
    have := agreeLen_of_cut h (show HeadsDiffer equivalent [] b by simp [HeadsDiffer])
    rwa [append_nil] at this
  rw [reconcileProjection, if_neg (by simp [hb])]
  split
  · rename_i hnil
    rw [hnil, length_nil]
  · simp only [hcommon]
    rw [if_neg (by rw [length_append]; omega), if_pos trivial]

/-- Past the longest common prefix, with messages left on both sides, the anchor decides. -/
theorem reconcile_of_cut (hfront : Agree equivalent front front') (hdiffer : HeadsDiffer equivalent rest rest')
    (hrest : rest ≠ []) (hrest' : rest' ≠ []) : reconcileProjection (front ++ rest) (front' ++ rest') =
      match (anchorBeforeTail (front ++ rest) (front' ++ rest') front.length).bind
          (anchorResult (front' ++ rest') front.length) with
      | some result => result
      | none => suffixResult (front ++ rest) (front' ++ rest') := by
  have hlen := hfront.length_eq
  have hpos := length_pos_iff.mpr hrest
  have hpos' := length_pos_iff.mpr hrest'
  have hcommon : prefixLen (front ++ rest) (front' ++ rest') = front.length := agreeLen_of_cut hfront hdiffer
  rw [reconcileProjection, if_neg (by simp [hrest']), if_neg (by simp [hrest])]
  simp only [hcommon]
  rw [if_neg (by rw [length_append]; omega), if_neg (by rw [length_append]; omega)]

/-! ### What the scan finds -/

theorem anchorScan_skip {persisted incoming : List Message} {common lower e n : Nat} (hlower : lower ≤ e + 1)
    (h : ∀ j < n, matchAt equivalent persisted incoming (persisted.length - 1) (e + j) = false) :
    anchorScan persisted incoming common lower (e + n) = anchorScan persisted incoming common lower e := by
  induction n with
  | zero => rfl
  | succ n ih =>
    rw [← Nat.add_assoc, anchorScan, if_neg (by omega), ih fun j hj => h j (by omega)]
    have hstop : walkBack equivalent persisted incoming common persisted.length (e + n + 1)
        = (persisted.length, e + n + 1) := walkBack_stop fun _ _ => h n (by omega)
    simp only [hstop, lt_self_iff_false, if_false, ite_self]

theorem anchorScan_hit {persisted incoming : List Message} {common lower e p i : Nat} (he : lower ≤ e + 1)
    (hp : common < persisted.length) (hi : common ≤ e)
    (hwalk : walkBack equivalent persisted incoming common persisted.length (e + 1) = (p, i)) (hlt : i < e + 1) :
    anchorScan persisted incoming common lower (e + 1) = some (p, i, e + 1) := by
  rw [anchorScan, if_neg (by omega), if_neg (by omega), hwalk]
  simp only [if_pos hlt]

theorem matchAt_last {persisted incoming : List Message} {m : Message} {b : Nat} (hm : incoming[b]? = some m)
    (h : LastsDiffer equivalent persisted [m]) :
    matchAt equivalent persisted incoming (persisted.length - 1) b = false := by
  rw [matchAt, hm, ← getLast?_eq_getElem?]
  cases hl : persisted.getLast? with
  | none => rfl
  | some l => exact h l hl m (by simp)

namespace Split

variable (s : Split)

theorem length_persisted : s.persisted.length = s.front.length + s.dropped.length + s.run.length := by
  simp only [persisted, length_append]

theorem length_incoming : s.incoming.length = s.tailStart + s.tail.length := by
  simp only [incoming, length_append, tailStart]

theorem front_length : s.front'.length = s.front.length := s.front_agree.length_eq.symm

theorem run_length : s.run'.length = s.run.length := s.run_agree.length_eq.symm

theorem run_pos : 0 < s.run.length := length_pos_iff.mpr s.run_ne_nil

theorem run'_ne_nil : s.run' ≠ [] := by
  rw [← length_pos_iff, s.run_length]
  exact s.run_pos

theorem getLast?_persisted : s.persisted.getLast? = s.run.getLast? :=
  getLast?_append_of_ne_nil _ s.run_ne_nil

theorem take_tailStart : s.incoming.take s.tailStart = s.front' ++ s.gap ++ s.run' := by
  rw [incoming, show s.tailStart = (s.front' ++ s.gap ++ s.run').length by simp only [length_append, tailStart],
    take_left]

theorem drop_tailStart : s.incoming.drop s.tailStart = s.tail := by
  rw [incoming, show s.tailStart = (s.front' ++ s.gap ++ s.run').length by simp only [length_append, tailStart],
    drop_left]

theorem gap_eq : (s.incoming.take (s.front'.length + s.gap.length)).drop s.front.length = s.gap := by
  rw [incoming, append_assoc (s.front' ++ s.gap), ← length_append, take_left, ← s.front_length,
    drop_left]

theorem walkBack_eq : walkBack equivalent s.persisted s.incoming s.front.length s.persisted.length s.tailStart
      = (s.front.length + s.dropped.length, s.front'.length + s.gap.length) := by
  have h := walkBack_of_cut s.front_agree.length_eq s.run_agree s.lasts_differ [] s.tail
  rw [append_nil] at h
  rw [length_persisted]
  exact h

theorem anchorBeforeTail_eq : anchorBeforeTail s.persisted s.incoming s.front.length
      = some (s.front.length + s.dropped.length, s.front'.length + s.gap.length, s.tailStart) := by
  have hrun := s.run_pos
  have hrun' := s.run_length
  have hfront := s.front_length
  have hp := s.length_persisted
  have hi := s.length_incoming
  have htail := s.tail_length
  have hstart : s.tailStart = s.front'.length + s.gap.length + s.run'.length := rfl
  rw [anchorBeforeTail, if_neg (by omega), hi, anchorScan_skip (by omega)]
  · obtain ⟨e, he⟩ : ∃ e, s.tailStart = e + 1 := ⟨s.tailStart - 1, by omega⟩
    have hwalk := s.walkBack_eq
    rw [he] at hwalk ⊢
    exact anchorScan_hit (by omega) (by omega) (by omega) hwalk (by omega)
  · intro j hj
    have hget : s.incoming[s.tailStart + j]? = some s.tail[j] := by
      rw [← getElem?_drop, s.drop_tailStart, getElem?_eq_getElem hj]
    apply matchAt_last hget
    intro l hl
    rw [s.getLast?_persisted] at hl
    exact s.tail_new _ (getElem_mem hj) l hl

theorem anchorResult_eq : anchorResult s.incoming s.front.length
        (s.front.length + s.dropped.length, s.front'.length + s.gap.length, s.tailStart)
      = if s.dropped = [] then none
        else if s.gap.any isCompactionSummary then some { mode := .compacted, appendFrom := some s.tailStart }
        else if s.front' = [] ∧ s.gap = [] then
          if s.tail = [] then some { mode := .truncate }
          else some { mode := .truncateAppend, appendFrom := some s.tailStart }
        else none := by
  have hdropped : (s.front.length < s.front.length + s.dropped.length) = ¬ s.dropped = [] := by
    simp [length_pos_iff]
  have hgap : (s.front'.length + s.gap.length = 0) = (s.front' = [] ∧ s.gap = []) := by
    simp [length_eq_zero_iff]
  have htail : (s.tailStart = s.incoming.length) = (s.tail = []) := by
    rw [s.length_incoming]
    simp
  simp only [anchorResult, s.gap_eq, hdropped, hgap, htail]
  by_cases h : s.dropped = [] <;> simp [h]

theorem reconcile_eq : reconcileProjection s.persisted s.incoming
      = if s.dropped = [] then suffixResult s.persisted s.incoming
        else if s.gap.any isCompactionSummary then { mode := .compacted, appendFrom := some s.tailStart }
        else if s.front' = [] ∧ s.gap = [] then
          if s.tail = [] then { mode := .truncate } else { mode := .truncateAppend, appendFrom := some s.tailStart }
        else suffixResult s.persisted s.incoming := by
  have h := reconcile_of_cut s.front_agree s.heads_differ (by simp [s.run_ne_nil]) (by simp [s.run'_ne_nil])
  rw [show s.front ++ (s.dropped ++ s.run) = s.persisted by simp only [persisted, append_assoc],
    show s.front' ++ (s.gap ++ s.run' ++ s.tail) = s.incoming by simp only [incoming, append_assoc],
    s.anchorBeforeTail_eq, Option.bind_some] at h
  rw [h]
  rw [s.anchorResult_eq]
  split_ifs <;> rfl

end Split

/-! ### The fallback -/

theorem suffixResult_of_agree {q g incoming : List Message} (hq : q ≠ []) (hne : incoming ≠ [])
    (h : Agree equivalent g incoming) : suffixResult (q ++ g) incoming = { mode := .truncate } := by
  have hlen := h.length_eq
  have hpos := length_pos_iff.mpr hne
  have hwalk := walkBack_of_commonSuffix h (show LastsDiffer equivalent q [] by simp [LastsDiffer])
  rw [nil_append] at hwalk
  rw [suffixResult, suffixMatch, hwalk]
  simp only
  rw [if_neg (by rw [length_append]; omega)]
  simp [length_pos_iff, hq]

/-- The fallback accepts nothing but a proper persisted suffix. -/
theorem suffixResult_cases (persisted : List Message) {incoming : List Message} (hne : incoming ≠ []) :
    (∃ q g, persisted = q ++ g ∧ q ≠ [] ∧ Agree equivalent g incoming ∧
      suffixResult persisted incoming = { mode := .truncate }) ∨
        suffixResult persisted incoming = { mode := .conflict } := by
  obtain ⟨d, g, d', g', rfl, rfl, hg, hd⟩ := exists_commonSuffix equivalent persisted incoming
  by_cases haccept : d' = [] ∧ d ≠ []
  · obtain ⟨rfl, hdne⟩ := haccept
    exact .inl ⟨d, g, rfl, hdne, hg, suffixResult_of_agree hdne hne hg⟩
  · refine .inr ?_
    rw [suffixResult, suffixMatch, walkBack_of_commonSuffix hg hd]
    simp only
    split_ifs with hstart
    · rfl
    · simp only
      rw [if_neg]
      simpa [length_eq_zero_iff, length_pos_iff] using haccept

theorem NoAnchor.matchAt_eq (n : NoAnchor) {b : Nat} (hlow : n.rest'.length - (maxScan + 1) ≤ b)
    (hb : b < n.rest'.length) :
    matchAt equivalent (n.front ++ n.rest) (n.front' ++ n.rest') ((n.front ++ n.rest).length - 1)
      (n.front'.length + b) = false := by
  have hget : (n.front' ++ n.rest')[n.front'.length + b]? = some n.rest'[b] := by
    rw [getElem?_append_right (by omega), Nat.add_sub_cancel_left, getElem?_eq_getElem hb]
  apply matchAt_last hget
  intro l hl
  rw [getLast?_append_of_ne_nil _ n.rest_ne_nil] at hl
  refine n.unmatched _ ?_ l hl
  rw [mem_iff_getElem?]
  refine ⟨b - (n.rest'.length - (maxScan + 1)), ?_⟩
  rw [getElem?_drop, Nat.add_sub_cancel' hlow, getElem?_eq_getElem hb]

theorem NoAnchor.anchorBeforeTail_eq (n : NoAnchor) :
    anchorBeforeTail (n.front ++ n.rest) (n.front' ++ n.rest') n.front.length = none := by
  have hlen := n.front_agree.length_eq
  have hi : (n.front' ++ n.rest').length = n.front'.length + n.rest'.length := length_append
  rw [anchorBeforeTail]
  split
  · rfl
  · -- every end from the last message down to the lower bound fails, and below it the loop is over
    generalize hlower : max (n.front.length + 1) ((n.front' ++ n.rest').length - maxScan) = lower
    obtain ⟨e, rfl⟩ : ∃ e, lower = e + 1 := ⟨lower - 1, by omega⟩
    rw [show (n.front' ++ n.rest').length = e + ((n.front' ++ n.rest').length - e) by omega,
      anchorScan_skip le_rfl]
    · cases e with
      | zero => rfl
      | succ e => rw [anchorScan, if_pos (by omega)]
    · intro j hj
      rw [show e + j = n.front'.length + (e + j - n.front'.length) by omega]
      exact n.matchAt_eq (by omega) (by omega)

theorem NoAnchor.reconcile_eq (n : NoAnchor) :
    reconcileProjection (n.front ++ n.rest) (n.front' ++ n.rest') = { mode := .conflict } := by
  have hpos := length_pos_iff.mpr n.rest'_ne_nil
  have hi : (n.front' ++ n.rest').length = n.front'.length + n.rest'.length := length_append
  rw [reconcile_of_cut n.front_agree n.heads_differ n.rest_ne_nil n.rest'_ne_nil, n.anchorBeforeTail_eq]
  have hlast := n.matchAt_eq (b := n.rest'.length - 1) (by omega) (by omega)
  rw [show n.front'.length + (n.rest'.length - 1) = (n.front' ++ n.rest').length - 1 by omega] at hlast
  have hstop : walkBack equivalent (n.front ++ n.rest) (n.front' ++ n.rest') 0 (n.front ++ n.rest).length
      (n.front' ++ n.rest').length = ((n.front ++ n.rest).length, (n.front' ++ n.rest').length) :=
    walkBack_stop fun _ _ => hlast
  simp only [Option.bind_none]
  rw [suffixResult, suffixMatch, hstop]
  simp

end ContextProxy
