import ContextProxy.Conversation.Projections

/-!
# The request after an accepted one

What a second call sees: the same request again, the request with its reply, or the request again after the reply was stored. The first is harmless in every mode. The reply is recorded unless the request is a persisted suffix that starts like the history. A replay after the reply is harmless for full-history requests, and refused for projections unless the reply repeats their last message.
-/

namespace ContextProxy

open List

/-! ### Immediate replay -/

/-- Replaying an accepted request right away is accepted and appends nothing. -/
theorem replay_appends_nothing {persisted incoming : List Message}
    (h : (reconcileProjection persisted incoming).mode ≠ .conflict) :
    Appends (applied persisted incoming) incoming [] := by
  by_cases hne : incoming = []
  · simp [hne, Appends, reconcileProjection, appendedTail]
  rcases accepted_of_not_conflict hne h with
    ⟨a, b, rfl, ha⟩ | ⟨a, b, rfl, hb, ha⟩ | ⟨s, rfl, rfl, hc⟩ | ⟨s, rfl, rfl, ht⟩ | ⟨_, q, g, _, _, rfl, hq, hg, _, _⟩
  · rw [(appends_of_front b hne ha).applied_eq, append_nil]
    exact appends_of_front b hne ha
  · rw [(appends_of_agree ha b).applied_eq, ← append_nil (a ++ b)]
    exact appends_of_agree (ha.append (agree_refl b)) []
  · have hsettled : s.settle.Compacts := hc
    have happends := Split.appends_of_compacts hsettled
    rw [(Split.appends_of_compacts hc).applied_eq]
    rwa [s.settle_persisted, s.settle_incoming] at happends
  · have hsettled : s.settle.Truncates := ht
    have happends := Split.appends_of_truncates hsettled
    rw [(Split.appends_of_truncates ht).applied_eq]
    rwa [s.settle_persisted, s.settle_incoming] at happends
  · rw [(appends_of_suffix hq hne hg).applied_eq, append_nil]
    exact appends_of_suffix hq hne hg

theorem replay_appends_nothing_truncated : Appends
      (applied [textMessage "user" "A", textMessage "user" "B"] [textMessage "user" "B", textMessage "user" "C"])
      [textMessage "user" "B", textMessage "user" "C"] [] :=
  replay_appends_nothing (by decide)

/-! ### The reply -/

variable {m : Message} {incoming persisted : List Message}

theorem Split.appends_reply {s : Split} (h : s.Compacts ∨ s.Truncates)
    (hm : LastsDiffer equivalent (applied s.persisted s.incoming) [m]) :
    Appends (applied s.persisted s.incoming) (s.incoming ++ [m]) [m] := by
  have happends : Appends s.persisted s.incoming s.tail := h.elim appends_of_compacts appends_of_truncates
  rw [happends.applied_eq, ← s.settle_persisted] at hm
  have hrun := lastsDiffer_run hm
  have hreply : Appends (s.reply m hrun).persisted (s.reply m hrun).incoming [m] :=
    h.elim (fun hc => appends_of_compacts (s := s.reply m hrun) hc)
      (fun ht => appends_of_truncates (s := s.reply m hrun) ht)
  rwa [s.reply_persisted, s.reply_incoming, ← happends.applied_eq] at hreply

/-- A reply behind a persisted suffix that starts like the history is refused. -/
theorem Split.conflict_of_suffix_reply {s : Split} {q g : List Message} (hq : q ≠ []) (hcut : s.persisted = q ++ g)
    (hg : Agree equivalent g s.incoming) (hfront : s.front' ≠ []) (hm : LastsDiffer equivalent s.persisted [m]) :
    reconcileProjection s.persisted (s.incoming ++ [m]) = { mode := .conflict } := by
  obtain ⟨htail, hgap, -⟩ := eq_nil_of_suffix hq hcut hg
  have hsettle : s.settle.persisted = s.persisted := by rw [s.settle_persisted, htail, append_nil]
  have hrun : LastsDiffer equivalent s.settle.run [m] := lastsDiffer_run (hsettle ▸ hm)
  have hvalue := reconcile_of_neither (s := s.reply m hrun) (fun hc => by simpa [reply, hgap] using hc.2)
    (fun ht => hfront ht.2.1)
  rw [s.reply_persisted, s.reply_incoming, htail, append_nil] at hvalue
  rw [hvalue]
  -- the fallback would need the reply to match the last persisted message
  refine (suffixResult_cases s.persisted (by simp)).resolve_left ?_
  rintro ⟨q₂, g₂, hcut₂, -, hg₂, -⟩
  have hne₂ : g₂ ≠ [] := by
    rintro rfl
    simp at hg₂
  have hl := getLast?_eq_some_getLast hne₂
  have hmatch := hg₂.getLast hl (getLast?_concat)
  rw [hm _ (by rw [hcut₂, getLast?_append_of_ne_nil _ hne₂]; exact hl) m (by simp)] at hmatch
  exact Bool.noConfusion hmatch

theorem no_suffix_of_length_le (h : persisted.length ≤ incoming.length) :
    ¬ ∃ q g, persisted = q ++ g ∧ q ≠ [] ∧ Agree equivalent g incoming := by
  rintro ⟨q, g, rfl, hq, hg⟩
  have hlen := hg.length_eq
  have hqpos := length_pos_iff.mpr hq
  rw [length_append] at h
  omega

/-- The reply to an accepted request that is not a shortened history is recorded, unless the request is a proper persisted suffix whose first message also starts the history. -/
theorem reply_recorded_iff {persisted incoming : List Message} (hne : incoming ≠ [])
    (h : (reconcileProjection persisted incoming).mode ≠ .conflict)
    (hshort : ¬ ∃ a b, persisted = a ++ b ∧ b ≠ [] ∧ Agree equivalent a incoming) {m : Message}
    (hm : LastsDiffer equivalent (applied persisted incoming) [m]) :
    Appends (applied persisted incoming) (incoming ++ [m]) [m] ↔
      ¬ (¬ HeadsDiffer equivalent persisted incoming ∧
        ∃ q g, persisted = q ++ g ∧ q ≠ [] ∧ Agree equivalent g incoming) := by
  rcases accepted_of_not_conflict hne h with
    ⟨a, b, rfl, ha⟩ | ⟨a, b, rfl, hb, ha⟩ | ⟨s, rfl, rfl, hc⟩ | ⟨s, rfl, rfl, ht⟩ |
      ⟨s, q, g, rfl, rfl, hcut, hq, hg, hfront, hvalue⟩
  · have hb : b = [] := by
      by_contra hb
      exact hshort ⟨a, b, rfl, hb, ha⟩
    subst hb
    rw [(appends_of_front [] hne ha).applied_eq, append_nil, append_nil]
    exact iff_of_true (appends_of_agree ha [m]) fun hs => no_suffix_of_length_le ha.length_eq.le hs.2
  · rw [(appends_of_agree ha b).applied_eq]
    refine iff_of_true (appends_of_agree (ha.append (agree_refl b)) [m]) fun hs => no_suffix_of_length_le ?_ hs.2
    rw [length_append, ha.length_eq]
    exact Nat.le_add_right _ _
  · refine iff_of_true (Split.appends_reply (.inl hc) hm) ?_
    rintro ⟨-, q, g, hcut, hq, hg⟩
    simp [Split.Compacts, (Split.eq_nil_of_suffix hq hcut hg).2.1] at hc
  · refine iff_of_true (Split.appends_reply (.inr ht) hm) fun hs => hs.1 ?_
    have := ht.heads_differ.append (by rw [ht.persisted_eq]; simp [s.run_ne_nil]) s.run'_ne_nil [] s.tail
    rwa [append_nil, ← ht.front_eq] at this
  · have happlied : applied s.persisted s.incoming = s.persisted := by simp [applied, hvalue, appendedTail]
    rw [happlied] at hm ⊢
    refine iff_of_false (fun happends => happends.1 ?_) (not_not_intro ⟨?_, q, g, hcut, hq, hg⟩)
    · rw [Split.conflict_of_suffix_reply hq hcut hg hfront hm]
    · rw [Split.persisted, Split.incoming]
      simp only [append_assoc]
      exact s.front_agree.not_headsDiffer hfront _ _

theorem reply_recorded_truncated : Appends
      (applied [textMessage "user" "A", textMessage "user" "B"] [textMessage "user" "B", textMessage "user" "C"])
      ([textMessage "user" "B", textMessage "user" "C"] ++ [textMessage "assistant" "D"])
      [textMessage "assistant" "D"] := by
  refine (reply_recorded_iff (by decide) (by decide) ?_ (by decide)).mpr fun h => absurd (by decide) h.1
  rintro ⟨a, b, hp, hb, ha⟩
  have hlen := ha.length_eq
  have hbpos := length_pos_iff.mpr hb
  have := congrArg List.length hp
  simp only [length_append, length_cons, length_nil] at this hlen
  omega

/-- The truncated request of a user who says "continue" twice is accepted, and its reply is refused. -/
theorem reply_lost : Appends
        [textMessage "user" "continue", textMessage "assistant" "one", textMessage "user" "continue",
          textMessage "assistant" "two"]
        [textMessage "user" "continue", textMessage "assistant" "two"] [] ∧
      (¬ ∃ a b, [textMessage "user" "continue", textMessage "assistant" "one", textMessage "user" "continue",
          textMessage "assistant" "two"] = a ++ b ∧ b ≠ [] ∧
            Agree equivalent a [textMessage "user" "continue", textMessage "assistant" "two"]) ∧
      equivalent (textMessage "assistant" "two") (textMessage "assistant" "reply") = false ∧
      (reconcileProjection
        [textMessage "user" "continue", textMessage "assistant" "one", textMessage "user" "continue",
          textMessage "assistant" "two"]
        ([textMessage "user" "continue", textMessage "assistant" "two"] ++ [textMessage "assistant" "reply"])).mode
          = .conflict := by
  refine ⟨by decide, ?_, by decide, by decide⟩
  rintro ⟨a, b, hp, -, ha⟩
  cases ha with
  | cons _ ha =>
    cases ha with
    | cons h _ =>
      simp only [cons_append, List.cons.injEq] at hp
      rw [← hp.2.1] at h
      exact absurd h (by decide)

/-! ### Replay after the reply -/

/-- One of the two histories is a prefix of the other, message by message. -/
def FullHistory (persisted incoming : List Message) : Prop :=
  (∃ a b, persisted = a ++ b ∧ Agree equivalent a incoming) ∨ ∃ a b, incoming = a ++ b ∧ Agree equivalent persisted a

/-- Both histories, cut at their longest common prefix and their longest common suffix, leave messages out on the persisted side and put a summary in their place. -/
def EndsCompacted (persisted incoming : List Message) : Prop :=
  ∃ s : Split, s.persisted = persisted ∧ s.incoming = incoming ∧ s.tail = [] ∧ s.Compacts

theorem FullHistory.of_append_left {more a b : List Message} (hp : persisted ++ more = a ++ b)
    (h : Agree equivalent a incoming) : FullHistory persisted incoming := by
  rcases append_eq_append_iff.mp hp with ⟨c, rfl, -⟩ | ⟨c, rfl, -⟩
  · obtain ⟨i, j, rfl, hi, -⟩ := h.exists_of_append_left
    exact .inr ⟨i, j, rfl, hi⟩
  · exact .inl ⟨a, c, rfl, h⟩

theorem FullHistory.appends_after (hne : incoming ≠ []) (h : FullHistory persisted incoming) (m : Message) :
    Appends (applied persisted incoming ++ [m]) incoming [] := by
  rcases h with ⟨a, b, rfl, ha⟩ | ⟨a, b, rfl, ha⟩
  · rw [(appends_of_front b hne ha).applied_eq, append_assoc, append_assoc]
    exact appends_of_front _ hne ha
  · rw [(appends_of_agree ha b).applied_eq]
    exact appends_of_front [m] hne (ha.append (agree_refl b))

theorem last_of_suffix {q g : List Message} (hne : incoming ≠ []) (hp : persisted ++ [m] = q ++ g)
    (h : Agree equivalent g incoming) : equivalent m (incoming.getLast hne) = true := by
  have hgne : g ≠ [] := by
    rintro rfl
    exact hne (forall₂_nil_left_iff.mp h)
  have hlast : g.getLast? = some m := by
    rw [← getLast?_append_of_ne_nil q hgne, ← hp, getLast?_concat]
  exact h.getLast hlast (getLast?_eq_some_getLast hne)

theorem EndsCompacted.last (hne : incoming ≠ []) (h : EndsCompacted (persisted ++ [m]) incoming) :
    equivalent m (incoming.getLast hne) = true := by
  obtain ⟨s, hp, rfl, htail, -⟩ := h
  have hm : s.run.getLast? = some m := by rw [← s.getLast?_persisted, hp, getLast?_concat]
  have hlast : s.run'.getLast? = some (s.incoming.getLast hne) := by
    rw [← getLast?_eq_some_getLast hne, Split.incoming, htail, append_nil,
      getLast?_append_of_ne_nil _ s.run'_ne_nil]
  exact s.run_agree.getLast hm hlast

/-- A replay after the reply `m` was stored is harmless for a full history. Otherwise it is exactly when the reply repeats the last message of the request and the whole request ends the stored history, as it is or around a summary. -/
theorem replay_after_reply_iff {persisted incoming : List Message} (hne : incoming ≠ []) (m : Message) :
    Appends (applied persisted incoming ++ [m]) incoming [] ↔
      FullHistory persisted incoming ∨
        (equivalent m (incoming.getLast hne) = true ∧
          ((∃ q g, applied persisted incoming ++ [m] = q ++ g ∧ Agree equivalent g incoming) ∨
            EndsCompacted (applied persisted incoming ++ [m]) incoming)) := by
  constructor
  · intro h
    rcases accepted_of_not_conflict hne h.1 with
      ⟨a, b, hp, ha⟩ | ⟨a, b, rfl, hb, ha⟩ | ⟨s, hp, rfl, hc⟩ | ⟨s, hp, rfl, ht⟩ | ⟨_, q, g, _, _, hp, _, hg, _, _⟩
    · rw [applied, append_assoc] at hp
      exact .inl (.of_append_left hp ha)
    · exact absurd ((appends_of_agree ha b).unique h) hb
    · have htail : s.tail = [] := (Split.appends_of_compacts hc).unique (hp ▸ h)
      have hends : EndsCompacted (applied persisted s.incoming ++ [m]) s.incoming := ⟨s, hp.symm, rfl, htail, hc⟩
      exact .inr ⟨hends.last hne, .inr hends⟩
    · have htail : s.tail = [] := (Split.appends_of_truncates ht).2.symm.trans (hp ▸ h.2)
      have hagree : Agree equivalent s.run s.incoming := by
        rw [Split.incoming, htail, append_nil, ht.front_eq]
        exact s.run_agree
      exact .inr ⟨last_of_suffix hne hp hagree, .inl ⟨_, _, hp, hagree⟩⟩
    · exact .inr ⟨last_of_suffix hne hp hg, .inl ⟨q, g, hp, hg⟩⟩
  · rintro (hfull | ⟨-, ⟨q, g, hp, hg⟩ | ⟨s, hp, rfl, htail, hc⟩⟩)
    · exact hfull.appends_after hne m
    · rw [hp]
      by_cases hq : q = []
      · rw [hq, nil_append, ← append_nil incoming]
        exact appends_of_agree hg []
      · exact appends_of_suffix hq hne hg
    · rw [← hp, ← htail]
      exact Split.appends_of_compacts hc

theorem replay_after_reply_full :
    Appends (applied [textMessage "user" "A"] [textMessage "user" "A", textMessage "user" "B"]
      ++ [textMessage "assistant" "C"]) [textMessage "user" "A", textMessage "user" "B"] [] :=
  (replay_after_reply_iff (by decide) _).mpr
    (.inl (.inr ⟨[textMessage "user" "A"], [textMessage "user" "B"], rfl, agree_refl _⟩))

/-- A truncated request that was accepted and answered is refused when it is sent again. -/
theorem replay_after_reply_refused : Appends [textMessage "user" "A", textMessage "assistant" "B", textMessage "user" "C"]
        [textMessage "user" "C", textMessage "user" "D"] [textMessage "user" "D"] ∧
      (reconcileProjection
        (applied [textMessage "user" "A", textMessage "assistant" "B", textMessage "user" "C"]
          [textMessage "user" "C", textMessage "user" "D"] ++ [textMessage "assistant" "E"])
        [textMessage "user" "C", textMessage "user" "D"]).mode = .conflict := by
  decide

end ContextProxy
