import ContextProxy.Context.Planner

/-!
# Where units begin and end

Which messages of a history end up in one unit, computed from the roles alone; `segmentMessages_interactions` says that the groups are the units of `segment_messages`, instructions apart. A group ends at the next user message; before the first one it also ends at an instruction. So two messages with no user message between them are in one group (`interactions_together`) unless nothing has started yet and an instruction comes between them (`interactions_apart`).
-/

namespace ContextProxy

open Json
open List hiding get

def isUser (message : Message) : Bool := pyEq (get message "role") (.str "user")

/-- The groups that are closed, the open one, and whether a user message has been read. -/
structure Interactions where
  closed : List (List Message) := []
  current : List Message := []
  started : Bool := false

namespace Interactions

def close (st : Interactions) : List (List Message) := if st.current = [] then st.closed else st.closed ++ [st.current]

def step (st : Interactions) (message : Message) : Interactions :=
  if isInstruction message then if st.started then st else { st with closed := st.close, current := [] }
  else if isUser message then { closed := st.close, current := [message], started := true }
  else { st with current := st.current ++ [message] }

end Interactions

def interactions (messages : List Message) : List (List Message) := (messages.foldl Interactions.step {}).close

/-! ### The groups are the units -/

variable {rt : Runtime}

/-- The loop of `segment_messages` stands where the grouping stands. -/
structure Follows (st : Segmentation) (it : Interactions) : Prop where
  closed : (st.units.filter (!·.isSystem)).map (·.messages) = it.closed
  current : st.prefill ++ st.turn.getD [] = it.current
  started : st.turn.isSome = it.started

variable {messages done : List Message} {st st' : Segmentation}

variable {units : List InteractionUnit} {it : Interactions}

theorem map_messages_emit {kind : UnitKind} (h : st.emit rt kind messages = .ok units) :
    (units.filter (!·.isSystem)).map (·.messages)
      = (st.units.filter (!·.isSystem)).map (·.messages) ++ if kind = .system then [] else [messages] := by
  obtain ⟨tokens, -, rfl⟩ := Segmentation.emit_eq_ok.mp h
  by_cases hkind : kind = .system
  · simp [filter_append, InteractionUnit.isSystem, hkind]
  · simp [filter_append, InteractionUnit.isSystem, hkind]

theorem map_messages_closePrefill (h : st.closePrefill rt = .ok st') : (st'.units.filter (!·.isSystem)).map (·.messages)
        = (st.units.filter (!·.isSystem)).map (·.messages) ++ (if st.prefill = [] then [] else [st.prefill]) ∧
      st'.prefill = [] ∧ st'.turn = st.turn := by
  rw [Segmentation.closePrefill] at h
  split at h
  · rename_i hprefill
    obtain rfl := Except.ok.inj h
    simp [hprefill]
  · rename_i hprefill
    obtain ⟨units, hemit, h⟩ := bind_eq_ok.mp h
    obtain rfl := Except.ok.inj h
    refine ⟨?_, rfl, rfl⟩
    rw [map_messages_emit hemit, if_neg (by simp), if_neg hprefill]

theorem map_messages_closeTurn (hst : Segmented rt done st) (h : st.closeTurn rt = .ok st') :
    (st'.units.filter (!·.isSystem)).map (·.messages)
        = (st.units.filter (!·.isSystem)).map (·.messages) ++ st.turn.toList ∧
      st'.prefill = st.prefill ∧ st'.turn = none := by
  rw [Segmentation.closeTurn] at h
  split at h
  · rename_i message messages hturn
    obtain ⟨units, hemit, h⟩ := bind_eq_ok.mp h
    obtain rfl := Except.ok.inj h
    refine ⟨?_, rfl, rfl⟩
    rw [map_messages_emit hemit, if_neg (by simp), hturn]
    rfl
  · rename_i hturn
    obtain rfl := Except.ok.inj h
    have hnone : st.turn = none := by
      cases hst' : st.turn with
      | none => rfl
      | some turn =>
        cases turn with
        | nil => exact absurd hst' hst.turn_started
        | cons message messages => exact absurd hst' (hturn message messages)
    simp [hnone]

theorem Follows.close {st₁ st₂ : Segmentation} (h : Follows st it) (hst : Segmented rt done st)
    (hturn : st.closeTurn rt = .ok st₁) (hprefill : st₁.closePrefill rt = .ok st₂) :
    (st₂.units.filter (!·.isSystem)).map (·.messages) = it.close ∧ st₂.prefill = [] ∧ st₂.turn = none := by
  obtain ⟨hunits₁, hprefill₁, hturn₁⟩ := map_messages_closeTurn hst hturn
  obtain ⟨hunits₂, hprefill₂, hturn₂⟩ := map_messages_closePrefill hprefill
  refine ⟨?_, hprefill₂, hturn₂.trans hturn₁⟩
  rw [hunits₂, hunits₁, h.closed, hprefill₁, Interactions.close, ← h.current]
  -- a turn is never empty, and while one is open there is no prefill
  cases hst' : st.turn with
  | none => by_cases hnil : st.prefill = [] <;> simp [hnil]
  | some turn =>
    have hne : turn ≠ [] := fun hnil => hst.turn_started (hst'.trans (congrArg some hnil))
    simp [hst.prefill_closed (by simp [hst']), hne]

theorem Follows.step {message : Message} (h : Follows st it) (hst : Segmented rt done st)
    (hstep : segmentStep rt st message = .ok st') : Follows st' (it.step message) := by
  obtain ⟨b, hrole, hstep⟩ := bind_eq_ok.mp hstep
  obtain rfl := instructionRole_eq_ok hrole
  rw [Interactions.step]
  cases hb : isInstruction message with
  | true =>
    rw [hb, if_pos rfl] at hstep
    obtain ⟨st₁, hprefill, hstep⟩ := bind_eq_ok.mp hstep
    obtain ⟨units, hemit, hstep⟩ := bind_eq_ok.mp hstep
    obtain rfl := Except.ok.inj hstep
    obtain ⟨hunits, hprefill₁, hturn₁⟩ := map_messages_closePrefill hprefill
    have hclosed : (units.filter (!·.isSystem)).map (·.messages)
        = it.closed ++ if st.prefill = [] then [] else [st.prefill] := by
      rw [map_messages_emit hemit, hunits, h.closed, if_pos rfl, append_nil]
    rw [if_pos rfl, ← h.started]
    cases hturn : st.turn with
    | none =>
      have hcurrent : it.current = st.prefill := by simp [← h.current, hturn]
      refine ⟨?_, by simp [hprefill₁, hturn₁, hturn], by simp [hturn₁, hturn]⟩
      rw [hclosed]
      by_cases hnil : st.prefill = [] <;> simp [Interactions.close, hcurrent, hnil]
    | some turn =>
      have hnil := hst.prefill_closed (by simp [hturn])
      refine ⟨by simp [hclosed, hnil], ?_, by simp [hturn₁, ← h.started]⟩
      simp [← h.current, hprefill₁, hturn₁, hnil]
  | false =>
    rw [hb, if_neg (by simp)] at hstep
    rw [if_neg (by simp)]
    change (if isUser message = true then _ else _) = _ at hstep
    by_cases huser : isUser message
    · rw [if_pos huser] at hstep ⊢
      obtain ⟨st₁, hturn, hstep⟩ := bind_eq_ok.mp hstep
      obtain ⟨st₂, hprefill, hstep⟩ := bind_eq_ok.mp hstep
      obtain rfl := Except.ok.inj hstep
      obtain ⟨hunits, hnil, -⟩ := h.close hst hturn hprefill
      exact ⟨hunits, by simp [hnil], rfl⟩
    · rw [if_neg huser] at hstep ⊢
      cases hturn : st.turn with
      | none =>
        rw [hturn] at hstep
        obtain rfl := Except.ok.inj hstep
        exact ⟨h.closed, by simp [← h.current, hturn], by simp [← h.started, hturn]⟩
      | some turn =>
        rw [hturn] at hstep
        obtain rfl := Except.ok.inj hstep
        have hnil := hst.prefill_closed (by simp [hturn])
        exact ⟨h.closed, by simp [← h.current, hturn, hnil], by simp [← h.started, hturn]⟩

/-- The units of a history, instructions apart, are its groups. -/
theorem segmentMessages_interactions (h : segmentMessages rt messages = .ok units) :
    (units.filter (!·.isSystem)).map (·.messages) = interactions messages := by
  obtain ⟨st, hloop, h⟩ := bind_eq_ok.mp h
  obtain ⟨st₁, hturn, h⟩ := bind_eq_ok.mp h
  obtain ⟨st₂, hprefill, h⟩ := bind_eq_ok.mp h
  obtain rfl := Except.ok.inj h
  have hst := foldlM_invariant
    (fun done st => Segmented rt done st ∧ Follows st (done.foldl Interactions.step {}))
    ⟨Segmented.nil, rfl, rfl, rfl⟩
    (fun done st m st' hinv hstep => ⟨hinv.1.step hstep, by
      rw [foldl_append]
      exact hinv.2.step hinv.1 hstep⟩) hloop
  exact (hst.2.close hst.1 hturn hprefill).1

/-! ### Which messages share a group -/

namespace Interactions

theorem exists_close_foldl (st : Interactions) (newer : List Message) : ∃ rest,
    (newer.foldl step st).close = st.closed ++ rest ∧ rest.flatten = st.current ++ newer.filter (!isInstruction ·) ∧
      (st.current ≠ [] → ∃ more later, rest = (st.current ++ more) :: later) := by
  induction newer generalizing st with
  | nil =>
    by_cases hnil : st.current = []
    · exact ⟨[], by simp [close, hnil], by simp [hnil], fun hne => absurd hnil hne⟩
    · exact ⟨[st.current], by simp [close, hnil], by simp, fun _ => ⟨[], [], by simp⟩⟩
  | cons m newer ih =>
    obtain ⟨rest, hclose, hflatten, hopen⟩ := ih (st.step m)
    rw [foldl_cons]
    have hcut : ∀ current started, st.step m = ⟨st.close, current, started⟩ →
        current ++ newer.filter (!isInstruction ·) = (m :: newer).filter (!isInstruction ·) →
        ∃ rest, (newer.foldl step (st.step m)).close = st.closed ++ rest ∧
          rest.flatten = st.current ++ (m :: newer).filter (!isInstruction ·) ∧
            (st.current ≠ [] → ∃ more later, rest = (st.current ++ more) :: later) := by
      intro current started hstep hfilter
      rw [hstep] at hclose hflatten
      rw [hstep, hclose, ← hfilter, ← hflatten, close]
      by_cases hnil : st.current = []
      · exact ⟨rest, by rw [if_pos hnil], by rw [hnil, nil_append], fun hne => absurd hnil hne⟩
      · refine ⟨st.current :: rest, by rw [if_neg hnil, append_assoc, singleton_append], rfl, fun _ => ?_⟩
        exact ⟨[], rest, by rw [append_nil]⟩
    cases hinstruction : isInstruction m with
    | true =>
      cases hstarted : st.started with
      | true =>
        have hstep : st.step m = st := by simp [step, hinstruction, hstarted]
        rw [hstep] at hclose hflatten hopen ⊢
        exact ⟨rest, hclose, by simpa [hinstruction] using hflatten, hopen⟩
      | false => exact hcut [] false (by simp [step, hinstruction, hstarted]) (by simp [hinstruction])
    | false =>
      cases huser : isUser m with
      | true => exact hcut [m] true (by simp [step, hinstruction, huser]) (by simp [hinstruction])
      | false =>
        have hstep : st.step m = { st with current := st.current ++ [m] } := by simp [step, hinstruction, huser]
        rw [hstep] at hclose hflatten hopen ⊢
        refine ⟨rest, hclose, by simpa [hinstruction] using hflatten, fun _ => ?_⟩
        obtain ⟨more, later, hrest⟩ := hopen (by simp)
        exact ⟨m :: more, later, by simpa using hrest⟩

theorem foldl_join (st : Interactions) {stretch : List Message} (huser : ∀ m ∈ stretch, isUser m = false)
    (hjoin : st.started = true ∨ ∀ m ∈ stretch, isInstruction m = false) :
    stretch.foldl step st = { st with current := st.current ++ stretch.filter (!isInstruction ·) } := by
  induction stretch generalizing st with
  | nil => simp
  | cons m stretch ih =>
    rw [forall_mem_cons] at huser
    have hrest : st.started = true ∨ ∀ m ∈ stretch, isInstruction m = false :=
      hjoin.imp id fun h => (forall_mem_cons.mp h).2
    rw [foldl_cons]
    cases hinstruction : isInstruction m with
    | true =>
      have hstarted : st.started = true := hjoin.resolve_right fun h => by
        simp [(forall_mem_cons.mp h).1] at hinstruction
      have hstep : st.step m = st := by simp [step, hinstruction, hstarted]
      rw [hstep, ih st huser.2 hrest]
      simp [hinstruction]
    | false =>
      have hstep : st.step m = { st with current := st.current ++ [m] } := by simp [step, hinstruction, huser.1]
      rw [hstep, ih { st with current := st.current ++ [m] } huser.2 hrest]
      simp [hinstruction]

theorem started_foldl (st : Interactions) (messages : List Message) :
    (messages.foldl step st).started = (st.started || messages.any isUser) := by
  induction messages generalizing st with
  | nil => simp
  | cons m messages ih =>
    rw [foldl_cons, ih, any_cons, ← Bool.or_assoc]
    congr 1
    rw [step]
    split_ifs with hinstruction hstarted huser
    · simp [hstarted]
    · have huser : isUser m = false := by
        rw [← Bool.not_eq_true]
        intro huser
        rw [isUser, pyEq_str_iff] at huser
        simp [isInstruction, huser] at hinstruction
      simp [huser]
    · simp [huser]
    · simp [huser]

end Interactions

section Pair

variable {older between newer : List Message} {a b : Message}

/-- Two messages are in one group, with what stands between them. -/
theorem interactions_together (ha : isInstruction a = false) (hb : isInstruction b = false) (hua : isUser a = false)
    (hub : isUser b = false) (huser : ∀ m ∈ between, isUser m = false)
    (h : (∃ m ∈ older, isUser m = true) ∨ ∀ m ∈ between, isInstruction m = false) : ∃ before front back behind,
      interactions (older ++ a :: between ++ b :: newer)
        = before ++ (front ++ a :: between.filter (!isInstruction ·) ++ b :: back) :: behind ∧
      back ++ behind.flatten = newer.filter (!isInstruction ·) := by
  generalize hst : older.foldl Interactions.step {} = st
  have hstarted : st.started = true ∨ ∀ m ∈ a :: between ++ [b], isInstruction m = false := by
    refine h.imp (fun hold => ?_) fun hnone => ?_
    · rw [← hst, Interactions.started_foldl]
      simpa using hold
    · simpa [ha, hb, or_imp, forall_and] using hnone
  have hquiet : ∀ m ∈ a :: between ++ [b], isUser m = false := by simpa [hua, hub, or_imp, forall_and] using huser
  have hjoin := st.foldl_join hquiet hstarted
  obtain ⟨rest, hclose, hflatten, hopen⟩ := Interactions.exists_close_foldl
    { st with current := st.current ++ (a :: between ++ [b]).filter (!isInstruction ·) } newer
  obtain ⟨back, behind, rfl⟩ := hopen (by simp [ha])
  refine ⟨st.closed, st.current, back, behind, ?_, ?_⟩
  · rw [interactions, show older ++ a :: between ++ b :: newer = older ++ (a :: between ++ [b]) ++ newer by simp,
      foldl_append, foldl_append, hst, hjoin, hclose]
    simp [ha, hb]
  · rw [flatten_cons, append_assoc] at hflatten
    exact append_cancel_left hflatten

/-- Before the first user message, an instruction between two messages ends the group of the first. -/
theorem interactions_apart (hunstarted : ∀ m ∈ older, isUser m = false) (ha : isInstruction a = false)
    (hua : isUser a = false) (huser : ∀ m ∈ between, isUser m = false) (h : ∃ m ∈ between, isInstruction m = true) :
    ∃ before behind early late, interactions (older ++ a :: between ++ b :: newer) = before ++ behind ∧
      between = early ++ late ∧ behind.flatten = (late ++ b :: newer).filter (!isInstruction ·) := by
  obtain ⟨m, hm, hinstruction⟩ := h
  obtain ⟨early, late, rfl⟩ := append_of_mem hm
  generalize hst : (older ++ a :: early).foldl Interactions.step {} = st
  have hstarted : st.started = false := by
    rw [← hst, Interactions.started_foldl]
    simp only [Bool.false_or, any_eq_false, mem_append, mem_cons]
    rintro x (hx | rfl | hx)
    · simp [hunstarted x hx]
    · simp [hua]
    · simp [huser x (by simp [hx])]
  have hstep : st.step m = { st with closed := st.close, current := [] } := by
    simp [Interactions.step, hinstruction, hstarted]
  obtain ⟨rest, hclose, hflatten, -⟩ := Interactions.exists_close_foldl (st.step m) (late ++ b :: newer)
  refine ⟨(st.step m).closed, rest, early, m :: late, ?_, rfl, ?_⟩
  · rw [interactions, show older ++ a :: (early ++ m :: late) ++ b :: newer
        = older ++ a :: early ++ m :: (late ++ b :: newer) by simp, foldl_append, hst, foldl_cons, hclose]
  · rw [hflatten, hstep]
    simp [hinstruction]

end Pair

theorem flatten_interactions (messages : List Message) :
    (interactions messages).flatten = messages.filter (!isInstruction ·) := by
  obtain ⟨rest, hclose, hflatten, -⟩ := Interactions.exists_close_foldl {} messages
  rw [interactions, hclose]
  exact hflatten

/-! ### The current request -/

theorem lastUserIndex_concat (messages : List Message) (m : Message) :
    lastUserIndex (messages ++ [m]) = if isUser m then some messages.length else lastUserIndex messages := by
  have hrange : (List.range (messages ++ [m]).length).reverse = messages.length :: (List.range messages.length).reverse := by
    rw [length_append, length_singleton, range_succ, reverse_append]
    rfl
  rw [lastUserIndex, hrange, find?_cons, getElem?_concat_length]
  change (match isUser m with | true => _ | false => _) = _
  cases isUser m with
  | true => rfl
  | false =>
    rw [if_neg (by simp), lastUserIndex, ← head?_filter, ← head?_filter]
    apply congrArg List.head?
    apply filter_congr
    intro index hindex
    rw [mem_reverse, mem_range] at hindex
    rw [getElem?_append_left hindex]

theorem lastUserIndex_cases (messages : List Message) :
    (lastUserIndex messages = none ∧ ∀ m ∈ messages, isUser m = false) ∨
      ∃ front user behind, lastUserIndex messages = some front.length ∧ messages = front ++ user :: behind ∧
        isUser user = true ∧ ∀ m ∈ behind, isUser m = false := by
  induction messages using List.reverseRecOn with
  | nil => exact .inl ⟨rfl, by simp⟩
  | append_singleton messages m ih =>
    rw [lastUserIndex_concat]
    cases hm : isUser m with
    | true => exact .inr ⟨messages, m, [], rfl, rfl, hm, by simp⟩
    | false =>
      rcases ih with ⟨hnone, hall⟩ | ⟨front, user, behind, hsome, rfl, huser, hbehind⟩
      · exact .inl ⟨hnone, by simpa [or_imp, forall_and, hm] using hall⟩
      · exact .inr ⟨front, user, behind ++ [m], hsome, by simp, huser, by simpa [or_imp, forall_and, hm] using hbehind⟩

theorem isInstruction_of_requestEnd {lastUser n stop : ℕ} (hn : n ≤ messages.length)
    (h : requestEnd messages lastUser n = .ok stop) : ∀ m ∈ (messages.take n).drop stop, isInstruction m = true := by
  induction n with
  | zero => simp
  | succ n ih =>
    rw [requestEnd] at h
    have hdone : stop = n + 1 → ∀ m ∈ (messages.take (n + 1)).drop stop, isInstruction m = true := by
      rintro rfl m hm
      rw [drop_eq_nil_of_le (by simp)] at hm
      simp at hm
    split at h
    · rename_i hlt
      obtain ⟨b, hrole, h⟩ := bind_eq_ok.mp h
      have hrole := instructionRole_eq_ok hrole
      cases b with
      | false => exact hdone (Except.ok.inj h).symm
      | true =>
        have hstop := requestEnd_le hlt h
        rw [take_succ_eq_append_getElem (by omega), drop_append_of_le_length (by simp; omega)]
        intro m hm
        rcases mem_append.mp hm with hm | hm
        · exact ih (by omega) h m hm
        · rw [mem_singleton.mp hm]
          simpa [getElem?_eq_getElem (show n < messages.length by omega)] using hrole.symm
    · exact hdone (Except.ok.inj h).symm

/-- The request starts at the last user message and ends before the instructions that trail it. -/
theorem separateCurrentRequest_cases {history current : List Message}
    (h : separateCurrentRequest messages = .ok (history, current)) :
    ((∀ m ∈ messages, isUser m = false) ∧ history = messages ∧ current = []) ∨
      ∃ front user body trailing, messages = front ++ (user :: body ++ trailing) ∧ history = front ++ trailing ∧
        current = user :: body ∧ isUser user = true ∧ ∀ m ∈ trailing, isInstruction m = true := by
  rw [separateCurrentRequest] at h
  rcases lastUserIndex_cases messages with ⟨hnone, hall⟩ | ⟨front, user, behind, hsome, rfl, huser, -⟩
  · rw [hnone] at h
    obtain ⟨rfl, rfl⟩ := Prod.mk.injEq .. ▸ Except.ok.inj h
    exact .inl ⟨hall, rfl, rfl⟩
  · rw [hsome] at h
    obtain ⟨stop, hstop, h⟩ := bind_eq_ok.mp h
    obtain ⟨rfl, rfl⟩ := Prod.mk.injEq .. ▸ Except.ok.inj h
    obtain ⟨hstart, -⟩ := requestEnd_le (by simp) hstop
    have htrailing := isInstruction_of_requestEnd le_rfl hstop
    obtain ⟨k, rfl⟩ : ∃ k, stop = front.length + (k + 1) := ⟨stop - front.length - 1, by omega⟩
    rw [take_length, drop_length_add_append, drop_succ_cons] at htrailing
    refine .inr ⟨front, user, behind.take k, behind.drop k, ?_, ?_, ?_, huser, htrailing⟩
    · rw [cons_append, take_append_drop]
    · rw [take_left, drop_length_add_append, drop_succ_cons]
    · rw [take_length_add_append, drop_left, take_succ_cons]

end ContextProxy
