import ContextProxy.Conversation.Accepted

/-!
# Truncated and compacted histories

The two projections a client sends when its window is short. A compaction keeps a common prefix, puts a summary in place of what it dropped, and goes on with the persisted end; it is always accepted with the right tail. A truncation sends a proper suffix and new messages, and is accepted exactly when the suffix does not start like the history and no new message repeats the last persisted one: otherwise the scan no longer finds a run that starts at position 0.
-/

namespace ContextProxy

open List

/-! ### Compaction -/

/-- Every well-formed compaction is accepted, and exactly the messages behind it are appended. -/
theorem compaction_accepted {x d g x' g' t : List Message} {s : Message} (hd : d ≠ []) (hg : g ≠ [])
    (hx : Agree equivalent x x') (hgg : Agree equivalent g g') (hs : isCompactionSummary s = true)
    (hds : ∀ m ∈ d, equivalent m s = false) (ht : ∀ m ∈ t, equivalent (g.getLast hg) m = false) (hlen : t.length ≤ 128) :
    reconcileProjection (x ++ d ++ g) (x' ++ [s] ++ g' ++ t)
        = { mode := .compacted, appendFrom := some (x.length + 1 + g.length) } ∧
      Appends (x ++ d ++ g) (x' ++ [s] ++ g' ++ t) t := by
  let split : Split := {
    front := x, dropped := d, run := g, front' := x', gap := [s], run' := g', tail := t
    front_agree := hx
    heads_differ := by
      intro m hm m' hm'
      rw [head?_append_of_ne_nil _ hd] at hm
      simp only [append_assoc, cons_append, head?_cons, Option.mem_some_iff] at hm'
      rw [← hm']
      exact hds m (mem_of_mem_head? hm)
    run_agree := hgg
    run_ne_nil := hg
    lasts_differ := by
      intro m hm m' hm'
      simp only [getLast?_singleton, Option.mem_some_iff] at hm'
      rw [← hm']
      exact hds m (mem_of_getLast? hm)
    tail_new := fun m hm => (lastsDiffer_singleton hg m).mpr (ht m hm)
    tail_length := hlen }
  have hcompacts : split.Compacts := ⟨hd, by simp [split, hs]⟩
  have hstart : split.tailStart = x.length + 1 + g.length := by
    simp only [Split.tailStart, split, length_singleton, hx.length_eq, hgg.length_eq]
  have hvalue := Split.reconcile_of_compacts hcompacts
  rw [hstart] at hvalue
  exact ⟨hvalue, Split.appends_of_compacts hcompacts⟩

theorem compaction_accepted_bcd : reconcileProjection
        ([textMessage "user" "A"] ++ [textMessage "assistant" "B"] ++ [textMessage "user" "C"])
        ([textMessage "user" "A"] ++ [("summary", .bool true) :: textMessage "user" "S"] ++ [textMessage "user" "C"]
          ++ [textMessage "user" "D"])
      = { mode := .compacted, appendFrom := some 3 } :=
  (compaction_accepted (by decide) (by decide) (agree_refl _) (agree_refl _) (by decide) (by decide) (by decide)
    (by decide)).1

/-! ### Truncation -/

/-- New messages behind a proper suffix are only taken by a truncation that ends where they start. -/
theorem differ_of_truncation_appends {q kept new : List Message} (hq : q ≠ []) (hkept : kept ≠ []) (hnew : new ≠ [])
    (h : Appends (q ++ kept) (kept ++ new) new) :
    HeadsDiffer equivalent (q ++ kept) kept ∧ ∀ m ∈ new, LastsDiffer equivalent (q ++ kept) [m] := by
  have hne : kept ++ new ≠ [] := by simp [hkept]
  rcases accepted_of_not_conflict hne h.1 with
    ⟨a, b, hp, ha⟩ | ⟨a, b, hi, hb, ha⟩ | ⟨s, hp, hi, hc⟩ | ⟨s, hp, hi, ht⟩ | ⟨_, p, g, _, _, hp, hpne, hg, _, _⟩
  · exact absurd (h.unique (hp ▸ appends_of_front b hne ha)) hnew
  · -- the whole history would have to stand in front of the new messages
    obtain rfl : new = b := h.unique (hi ▸ appends_of_agree ha b)
    have hlen := congrArg List.length (append_cancel_right hi)
    have hqpos := length_pos_iff.mpr hq
    rw [← ha.length_eq, length_append] at hlen
    omega
  · -- the kept messages are the persisted end, so the run reaches back to the front and leaves no gap
    rw [hp, hi] at h
    have hkeep : kept = s.front' ++ s.gap ++ s.run' := by
      rw [h.unique (Split.appends_of_compacts hc)] at hi
      exact append_cancel_right hi
    have hgap := Split.gap_eq_nil_of_agree hq hp.symm (hkeep ▸ agree_refl kept)
    simp [Split.Compacts, hgap.1] at hc
  · rw [hp, hi] at h
    have htail : new = s.tail := h.unique (Split.appends_of_truncates ht)
    have hkeep : kept = s.run' := by
      rw [htail] at hi
      exact (append_cancel_right hi).trans ht.front_eq
    refine ⟨?_, ?_⟩
    · rw [hp, hkeep]
      exact ht.heads_differ
    · intro m hm l hl
      rw [hp, s.getLast?_persisted] at hl
      exact s.tail_new m (htail ▸ hm) l hl
  · exact absurd (h.unique (hp ▸ appends_of_suffix hpne hne hg)) hnew

/-- A truncated history with new messages is taken as such exactly when its first message is not mistaken for the start of the history, and none of the new messages for its end. -/
theorem truncation_appends_iff {persisted kept new : List Message} (hsuffix : kept <:+ persisted)
    (hproper : kept ≠ persisted) (hkept : kept ≠ []) (hnew : new.length ≤ 128) : Appends persisted (kept ++ new) new ↔
      new = [] ∨ (HeadsDiffer equivalent persisted kept ∧ ∀ m ∈ new, LastsDiffer equivalent persisted [m]) := by
  obtain ⟨q, rfl⟩ := hsuffix
  have hq : q ≠ [] := by
    intro h
    exact hproper (by rw [h, nil_append])
  by_cases hnil : new = []
  · subst hnil
    rw [append_nil]
    exact iff_of_true (appends_of_suffix hq hkept (agree_refl kept)) (.inl rfl)
  simp only [hnil, false_or]
  refine ⟨differ_of_truncation_appends hq hkept hnil, ?_⟩
  rintro ⟨hheads, hlasts⟩
  let split : Split := {
    front := [], dropped := q, run := kept, front' := [], gap := [], run' := kept, tail := new
    front_agree := .nil
    heads_differ := by simpa using hheads.append (by simp [hq]) hkept [] new
    run_agree := agree_refl kept
    run_ne_nil := hkept
    lasts_differ := by simp [LastsDiffer]
    tail_new := fun m hm l hl => hlasts m hm l (by rw [getLast?_append_of_ne_nil _ hkept]; exact hl)
    tail_length := hnew }
  exact Split.appends_of_truncates (s := split) ⟨hq, rfl, rfl⟩

theorem truncation_appends_new : Appends [textMessage "user" "A", textMessage "assistant" "B", textMessage "user" "C"]
      ([textMessage "user" "C"] ++ [textMessage "user" "D"]) [textMessage "user" "D"] :=
  (truncation_appends_iff (by decide) (by decide) (by decide) (by decide)).mpr (.inr (by decide))

/-- A history in which the user says "continue" twice: the truncated request that starts at the second one is refused. -/
theorem truncation_refused : [textMessage "user" "continue", textMessage "assistant" "two"] <:+
        [textMessage "user" "continue", textMessage "assistant" "one", textMessage "user" "continue",
          textMessage "assistant" "two"] ∧
      [textMessage "user" "continue", textMessage "assistant" "two"] ≠
        [textMessage "user" "continue", textMessage "assistant" "one", textMessage "user" "continue",
          textMessage "assistant" "two"] ∧
      [textMessage "user" "next"].length ≤ 128 ∧
      (reconcileProjection
        [textMessage "user" "continue", textMessage "assistant" "one", textMessage "user" "continue",
          textMessage "assistant" "two"]
        ([textMessage "user" "continue", textMessage "assistant" "two"] ++ [textMessage "user" "next"])).mode
          = .conflict := by
  decide

end ContextProxy
