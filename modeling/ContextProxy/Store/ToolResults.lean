import ContextProxy.Store.Serial
import Mathlib.Data.Nat.Pairing
import Mathlib.Data.Prod.Lex
import Mathlib.Logic.Equiv.Nat

/-!
# What a tool result refers to

A tool result is stored with a reference to the newest call that has its id. The lookup sorts the calls by the start time of their transaction and then by their random row ids, while the log has an order of its own. It has seen the calls of the messages up to the result (`Linked`), so the reference is to the last call before the result exactly if that is also the greatest by start time and id (`refers_iff`).
-/

namespace ContextProxy

open Json
open List hiding get

/-! ### The newest call -/

/-- What the lookup sorts by: `created_at`, then `id`. -/
def ToolCallRow.rank (call : ToolCallRow) : ℕ ×ₗ ℕ := toLex (call.createdAt, call.id)

theorem ToolCallRow.rank_ne {a b : ToolCallRow} (h : a.id ≠ b.id) : a.rank ≠ b.rank := by
  intro heq
  exact h (congrArg (fun r => (ofLex r).2) heq)

theorem newestCall_concat (calls : List ToolCallRow) (call : ToolCallRow) :
    newestCall (calls ++ [call]) = match newestCall calls with
      | none => some call
      | some best => if best.rank < call.rank then some call else some best := by
  rw [newestCall, foldl_append, foldl_cons, foldl_nil, ← newestCall]
  cases newestCall calls with
  | none => rfl
  | some best =>
    simp only [ToolCallRow.rank, Prod.Lex.toLex_lt_toLex]

theorem newestCall_spec {calls : List ToolCallRow} (h : (calls.map (·.id)).Nodup) :
    (newestCall calls = none ↔ calls = []) ∧
      ∀ best, newestCall calls = some best → best ∈ calls ∧ ∀ call ∈ calls, call = best ∨ call.rank < best.rank := by
  induction calls using List.reverseRecOn with
  | nil => exact ⟨by simp [newestCall], by simp [newestCall]⟩
  | append_singleton calls call ih =>
    rw [map_append, nodup_append'] at h
    obtain ⟨hcalls, -, hnew⟩ := h
    obtain ⟨hnone, hsome⟩ := ih hcalls
    have hother : ∀ c ∈ calls, c.id ≠ call.id := by
      intro c hc heq
      exact hnew (mem_map_of_mem hc) (by simp [heq])
    rw [newestCall_concat]
    cases hbest : newestCall calls with
    | none =>
      obtain rfl := hnone.mp hbest
      simp
    | some best =>
      obtain ⟨hmem, hmax⟩ := hsome best hbest
      simp only
      by_cases hlater : best.rank < call.rank
      · rw [if_pos hlater]
        refine ⟨by simp, fun b hb => ?_⟩
        obtain rfl := Option.some.inj hb
        refine ⟨by simp, fun c hc => ?_⟩
        rcases mem_append.mp hc with hc | hc
        · rcases hmax c hc with rfl | hlt
          · exact .inr hlater
          · exact .inr (hlt.trans hlater)
        · exact .inl (mem_singleton.mp hc)
      · rw [if_neg hlater]
        refine ⟨by simp, fun b hb => ?_⟩
        obtain rfl := Option.some.inj hb
        refine ⟨mem_append_left _ hmem, fun c hc => ?_⟩
        rcases mem_append.mp hc with hc | hc
        · exact hmax c hc
        · rw [mem_singleton.mp hc]
          exact .inr ((lt_or_gt_of_ne (ToolCallRow.rank_ne (hother best hmem))).resolve_left hlater)

/-! ### Calls and results along the log -/

structure CallAt (rows : Rows) (toolCallId : String) (call : ToolCallRow) (position : ℤ) : Prop where
  mem : call ∈ rows.toolCalls
  id : call.toolCallId = toolCallId
  message : ∃ m ∈ rows.messages, m.id = call.messageId ∧ m.seq = position

/-- The call of the given id with the greatest position not above `seq`. -/
structure LatestAt (rows : Rows) (toolCallId : String) (seq : ℤ) (call : ToolCallRow) (position : ℤ) : Prop
    extends CallAt rows toolCallId call position where
  le : position ≤ seq
  latest : ∀ other p, CallAt rows toolCallId other p → p ≤ seq → p ≤ position

/-- The reference is to the latest call of the given id up to `seq`, and `NULL` exactly if there is none. -/
def RefersToLatest (rows : Rows) (result : ToolResultRow) (seq : ℤ) : Prop :=
  (∃ call p, LatestAt rows result.toolCallId seq call p ∧ result.toolCallRef = some call.id) ∨
    (result.toolCallRef = none ∧ ∀ call p, CallAt rows result.toolCallId call p → seq < p)

/-- Up to `seq`, the call of the given id that is latest in the log is the greatest by start time and row id. -/
def LatestIsNewest (rows : Rows) (toolCallId : String) (seq : ℤ) : Prop :=
  ∀ call p, LatestAt rows toolCallId seq call p → ∀ other q, CallAt rows toolCallId other q → q ≤ seq →
    other = call ∨ other.rank < call.rank

/-- How calls and results stand to the messages. Calls come in the order of their messages, at most one of an id for each message; and a result refers to the newest of the calls that were there, which are those of the messages up to its own. -/
structure Linked (messages : List MessageRow) (calls : List ToolCallRow) (results : List ToolResultRow) : Prop where
  contiguous : Contiguous messages
  ids : (messages.map (·.id)).Nodup
  callIds : (calls.map (·.id)).Nodup
  owner : ∀ call ∈ calls, ∃ m ∈ messages, m.id = call.messageId
  ordered : calls.Pairwise fun a b => ¬(a.messageId = b.messageId ∧ a.toolCallId = b.toolCallId) ∧
    ∀ m ∈ messages, ∀ n ∈ messages, m.id = a.messageId → n.id = b.messageId → m.seq ≤ n.seq
  results : ∀ result ∈ results, (∃ m ∈ messages, m.id = result.messageId) ∧ ∃ before after, calls = before ++ after ∧
    result.toolCallRef = (newestCall (before.filter (·.toolCallId = result.toolCallId))).map (·.id) ∧
    ∀ m ∈ messages, m.id = result.messageId →
      (∀ call ∈ before, ∀ n ∈ messages, n.id = call.messageId → n.seq ≤ m.seq) ∧
        ∀ call ∈ after, ∀ n ∈ messages, n.id = call.messageId → m.seq < n.seq

/-! ### What a reference is to -/

theorem eq_of_id {α : Type} {f : α → RowId} {as : List α} (h : (as.map f).Nodup) {a b : α} (ha : a ∈ as) (hb : b ∈ as)
    (heq : f a = f b) : a = b := inj_on_of_nodup_map h ha hb heq

theorem eq_of_seq {messages : List MessageRow} (h : Contiguous messages) {m n : MessageRow} (hm : m ∈ messages)
    (hn : n ∈ messages) (hseq : m.seq = n.seq) : m = n := by
  have hnodup : (messages.map (·.seq)).Nodup := by
    rw [h]
    exact nodup_range.map fun _ _ hab => Int.ofNat_inj.mp hab
  exact inj_on_of_nodup_map hnodup hm hn hseq

section Reference

variable {rows : Rows} {result : ToolResultRow} {m : MessageRow} {before after : List ToolCallRow}

variable {toolCallId : String}

theorem callAt_iff (h : Linked rows.messages rows.toolCalls rows.toolResults) (hcalls : rows.toolCalls = before ++ after)
    (hbefore : ∀ call ∈ before, ∀ n ∈ rows.messages, n.id = call.messageId → n.seq ≤ m.seq)
    (hafter : ∀ call ∈ after, ∀ n ∈ rows.messages, n.id = call.messageId → m.seq < n.seq) {call : ToolCallRow} :
    (∃ p, CallAt rows toolCallId call p ∧ p ≤ m.seq) ↔ call ∈ before.filter (·.toolCallId = toolCallId) := by
  constructor
  · rintro ⟨p, hcall, hp⟩
    obtain ⟨n, hn, hid, rfl⟩ := hcall.message
    have hmem := hcall.mem
    rw [hcalls, mem_append] at hmem
    rcases hmem with hmem | hmem
    · exact mem_filter.mpr ⟨hmem, decide_eq_true hcall.id⟩
    · have := hafter call hmem n hn hid
      omega
  · intro hcall
    obtain ⟨hmem, hid⟩ := mem_filter.mp hcall
    have hmem' : call ∈ rows.toolCalls := hcalls ▸ mem_append_left _ hmem
    obtain ⟨n, hn, howner⟩ := h.owner call hmem'
    exact ⟨n.seq, ⟨hmem', of_decide_eq_true hid, n, hn, howner, rfl⟩, hbefore call hmem n hn howner⟩

theorem latestAt_last (h : Linked rows.messages rows.toolCalls rows.toolResults)
    (hcalls : rows.toolCalls = before ++ after)
    (hbefore : ∀ call ∈ before, ∀ n ∈ rows.messages, n.id = call.messageId → n.seq ≤ m.seq)
    (hafter : ∀ call ∈ after, ∀ n ∈ rows.messages, n.id = call.messageId → m.seq < n.seq) {others : List ToolCallRow}
    {last : ToolCallRow} (hlast : before.filter (·.toolCallId = toolCallId) = others ++ [last]) :
    (∃ p, LatestAt rows toolCallId m.seq last p) ∧ ∀ call p, LatestAt rows toolCallId m.seq call p → call = last := by
  have hpairs : (others ++ [last]).Pairwise fun a b => ¬(a.messageId = b.messageId ∧ a.toolCallId = b.toolCallId) ∧
      ∀ m ∈ rows.messages, ∀ n ∈ rows.messages, m.id = a.messageId → n.id = b.messageId → m.seq ≤ n.seq := by
    rw [← hlast]
    have hordered := h.ordered
    rw [hcalls] at hordered
    exact (pairwise_append.mp hordered).1.sublist filter_sublist
  have hseen : ∀ call, (∃ p, CallAt rows toolCallId call p ∧ p ≤ m.seq) ↔ call ∈ others ++ [last] := by
    intro call
    rw [← hlast]
    exact callAt_iff h hcalls hbefore hafter
  obtain ⟨q, hat, hq⟩ := (hseen last).mpr (by simp)
  obtain ⟨n, hn, hnid, rfl⟩ := hat.message
  -- every other call stands in front of the last one, at an earlier message
  have hearlier : ∀ call p, CallAt rows toolCallId call p → p ≤ m.seq → call = last ∨ p < n.seq := by
    intro call p hcall hp
    rcases mem_append.mp ((hseen call).mp ⟨p, hcall, hp⟩) with hmem | hmem
    · obtain ⟨n', hn', hid', rfl⟩ := hcall.message
      obtain ⟨hdistinct, hle⟩ := (pairwise_append.mp hpairs).2.2 call hmem last (mem_singleton_self _)
      refine .inr (lt_of_le_of_ne (hle n' hn' n hn hid' hnid) fun hseq => hdistinct ⟨?_, hcall.id.trans hat.id.symm⟩)
      rw [← hid', ← hnid, eq_of_seq h.contiguous hn' hn hseq]
    · exact .inl (mem_singleton.mp hmem)
  refine ⟨⟨n.seq, hat, hq, fun other p hother hp => ?_⟩, fun call p hlatest => ?_⟩
  · rcases hearlier other p hother hp with rfl | hlt
    · obtain ⟨n', hn', hid', rfl⟩ := hother.message
      rw [eq_of_id h.ids hn' hn (hid'.trans hnid.symm)]
    · exact Int.le_of_lt hlt
  · rcases hearlier call p hlatest.toCallAt hlatest.le with heq | hlt
    · exact heq
    · have := hlatest.latest last n.seq hat hq
      omega

/-- A result refers to the latest call of its id exactly if that call is the newest for the lookup. -/
theorem Linked.refers_iff (h : Linked rows.messages rows.toolCalls rows.toolResults) (hresult : result ∈ rows.toolResults)
    (hm : m ∈ rows.messages) (hid : m.id = result.messageId) :
    RefersToLatest rows result m.seq ↔ LatestIsNewest rows result.toolCallId m.seq := by
  obtain ⟨-, before, after, hcalls, href, hsplit⟩ := h.results result hresult
  obtain ⟨hbefore, hafter⟩ := hsplit m hm hid
  have hnodup : ((before.filter (·.toolCallId = result.toolCallId)).map (·.id)).Nodup := by
    have := h.callIds
    rw [hcalls] at this
    exact this.sublist ((filter_sublist.trans (sublist_append_left _ _)).map _)
  have hseen : ∀ call, (∃ p, CallAt rows result.toolCallId call p ∧ p ≤ m.seq) ↔ _ :=
    fun call => callAt_iff h hcalls hbefore hafter
  obtain ⟨hnone, hsome⟩ := newestCall_spec hnodup
  rcases eq_nil_or_concat' (before.filter (·.toolCallId = result.toolCallId)) with hnil | ⟨others, last, hlast⟩
  · rw [hnone.mpr hnil] at href
    have hno : ∀ call p, CallAt rows result.toolCallId call p → m.seq < p := by
      intro call p hcall
      by_contra hle
      have hmem := (hseen call).mp ⟨p, hcall, by omega⟩
      rw [hnil] at hmem
      cases hmem
    constructor
    · intro _ call p hlatest
      have := hno call p hlatest.toCallAt
      have := hlatest.le
      omega
    · exact fun _ => .inr ⟨href, hno⟩
  · obtain ⟨⟨q, hlatest⟩, hunique⟩ := latestAt_last h hcalls hbefore hafter hlast
    obtain ⟨best, hbest⟩ : ∃ best, newestCall (before.filter (·.toolCallId = result.toolCallId)) = some best := by
      rw [← Option.ne_none_iff_exists', Ne, hnone, hlast]
      simp
    obtain ⟨hmem, hmax⟩ := hsome best hbest
    rw [hbest] at href
    have hmemLast : last ∈ before.filter (·.toolCallId = result.toolCallId) := by
      rw [hlast]
      simp
    constructor
    · rintro (⟨call, p, hcall, hcallref⟩ | ⟨hnull, -⟩)
      · obtain rfl := hunique call p hcall
        obtain rfl : best = call :=
          eq_of_id hnodup hmem hmemLast (Option.some.inj (href.symm.trans hcallref))
        intro call' p' hcall' other q' hother hq'
        rw [hunique call' p' hcall']
        exact hmax other ((hseen other).mp ⟨q', hother, hq'⟩)
      · rw [href] at hnull
        cases hnull
    · intro hnewest
      refine .inl ⟨last, q, hlatest, ?_⟩
      obtain ⟨q', hbestAt, hq'⟩ := (hseen best).mpr hmem
      rw [href]
      rcases hnewest last q hlatest best q' hbestAt hq' with rfl | hlt
      · rfl
      · rcases hmax last hmemLast with rfl | hgt
        · rfl
        · exact absurd hlt (lt_asymm hgt)

end Reference

/-! ### What the writers keep -/

structure Draws.Distinct (draws : Draws) : Prop where
  messageId : Function.Injective draws.messageId
  toolCallRow : ∀ m m' n n', draws.toolCallRow m n = draws.toolCallRow m' n' → m = m' ∧ n = n'

/-- Behind the message at `last`: nothing has an id that is still to be drawn, and all ids are known to `P` and `Q`. -/
structure NextFree (draws : Draws) (P Q : RowId → Prop) (last : ℤ) (rows : Rows) : Prop where
  linked : Linked rows.messages rows.toolCalls rows.toolResults
  length : last = rows.messages.length - 1
  messages : ∀ m ∈ rows.messages, P m.id ∧ ∀ s, last < s → m.id ≠ draws.messageId s
  calls : ∀ call ∈ rows.toolCalls, Q call.id ∧ ∀ s, last < s → ∀ n, call.id ≠ draws.toolCallRow (draws.messageId s) n

/-- The message at `seq` has been inserted, and its calls up to `index`. -/
structure Projecting (draws : Draws) (P Q : RowId → Prop) (seq : ℤ) (index : ℕ) (rows : Rows) : Prop
    extends NextFree draws P Q seq rows where
  final : ∃ older row, rows.messages = older ++ [row] ∧ row.id = draws.messageId seq
  results : ∀ result ∈ rows.toolResults, result.messageId ≠ draws.messageId seq
  spare : ∀ call ∈ rows.toolCalls, ∀ n, index ≤ n → call.id ≠ draws.toolCallRow (draws.messageId seq) n

section Writers

variable {draws : Draws} {P Q : RowId → Prop} {last seq : ℤ} {index : ℕ} {rows : Rows}

variable {calls : List ToolCallRow} {results : List ToolResultRow} {row : MessageRow}

theorem Linked.addMessage {messages : List MessageRow} (h : Linked messages calls results)
    (hseq : row.seq = messages.length) (hid : ∀ m ∈ messages, m.id ≠ row.id) : Linked (messages ++ [row]) calls results := by
  have hold : ∀ id, (∃ m ∈ messages, m.id = id) → ∀ n ∈ messages ++ [row], n.id = id → n ∈ messages := by
    rintro id ⟨m, hm, rfl⟩ n hn heq
    rcases mem_append.mp hn with hn | hn
    · exact hn
    · rw [mem_singleton.mp hn] at heq
      exact absurd heq.symm (hid m hm)
  refine ⟨h.contiguous.concat hseq, ?_, h.callIds, ?_, ?_, ?_⟩
  · rw [map_append, nodup_append']
    refine ⟨h.ids, nodup_singleton _, ?_⟩
    intro id hmem hnew
    obtain ⟨m, hm, rfl⟩ := mem_map.mp hmem
    exact hid m hm (by simpa using hnew)
  · intro call hcall
    obtain ⟨m, hm, howner⟩ := h.owner call hcall
    exact ⟨m, mem_append_left _ hm, howner⟩
  · refine (List.Pairwise.and_mem.mp h.ordered).imp fun {a b} hab => ⟨hab.2.2.1, fun m hm n hn hma hnb => ?_⟩
    exact hab.2.2.2 m (hold _ (h.owner a hab.1) m hm hma) n (hold _ (h.owner b hab.2.1) n hn hnb) hma hnb
  · intro result hresult
    obtain ⟨⟨m, hm, howner⟩, before, after, hcalls, href, hsplit⟩ := h.results result hresult
    refine ⟨⟨m, mem_append_left _ hm, howner⟩, before, after, hcalls, href, fun m' hm' hid' => ?_⟩
    obtain ⟨hbefore, hafter⟩ := hsplit m' (hold _ ⟨m, hm, howner⟩ m' hm' hid') hid'
    have howned : ∀ call ∈ before ++ after, ∃ m ∈ messages, m.id = call.messageId := hcalls ▸ h.owner
    refine ⟨fun call hcall n hn hn' => ?_, fun call hcall n hn hn' => ?_⟩
    · exact hbefore call hcall n (hold _ (howned call (mem_append_left _ hcall)) n hn hn') hn'
    · exact hafter call hcall n (hold _ (howned call (mem_append_right _ hcall)) n hn hn') hn'

variable {call : ToolCallRow} {older : List MessageRow}

/-- A call of the last message is behind the calls that are there, and behind the results of the other messages. -/
theorem Linked.addCall (h : Linked (older ++ [row]) calls results) (hmessage : call.messageId = row.id)
    (hid : ∀ c ∈ calls, c.id ≠ call.id)
    (hunique : ∀ c ∈ calls, ¬(c.messageId = call.messageId ∧ c.toolCallId = call.toolCallId))
    (hresults : ∀ result ∈ results, result.messageId ≠ row.id) : Linked (older ++ [row]) (calls ++ [call]) results := by
  have hrow : row ∈ older ++ [row] := by simp
  have howner : ∀ n ∈ older ++ [row], n.id = call.messageId → n = row :=
    fun n hn heq => eq_of_id h.ids hn hrow (heq.trans hmessage)
  have hsorted : ∀ m ∈ older ++ [row], m = row ∨ m.seq < row.seq := by
    intro m hm
    rcases mem_append.mp hm with hmem | hmem
    · exact .inr ((pairwise_append.mp h.contiguous.pairwise_lt).2.2 m hmem row (by simp))
    · exact .inl (mem_singleton.mp hmem)
  refine ⟨h.contiguous, h.ids, ?_, ?_, ?_, ?_⟩
  · rw [map_append, nodup_append']
    refine ⟨h.callIds, nodup_singleton _, ?_⟩
    intro id hmem hnew
    obtain ⟨c, hc, rfl⟩ := mem_map.mp hmem
    exact hid c hc (by simpa using hnew)
  · intro c hc
    rcases mem_append.mp hc with hc | hc
    · exact h.owner c hc
    · rw [mem_singleton.mp hc]
      exact ⟨row, hrow, hmessage.symm⟩
  · rw [pairwise_append]
    refine ⟨h.ordered, pairwise_singleton _ _, fun a ha b hb => ?_⟩
    rw [mem_singleton.mp hb]
    refine ⟨hunique a ha, fun m hm n hn _ hn' => ?_⟩
    rw [howner n hn hn']
    rcases hsorted m hm with rfl | hlt
    · exact Int.le_refl _
    · exact Int.le_of_lt hlt
  · intro result hresult
    obtain ⟨hm, before, after, hcalls, href, hsplit⟩ := h.results result hresult
    refine ⟨hm, before, after ++ [call], by rw [hcalls, append_assoc], href, fun m hm hid => ?_⟩
    obtain ⟨hbefore, hafter⟩ := hsplit m hm hid
    refine ⟨hbefore, fun c hc n hn hn' => ?_⟩
    rcases mem_append.mp hc with hc | hc
    · exact hafter c hc n hn hn'
    · rw [mem_singleton.mp hc] at hn'
      rw [howner n hn hn']
      rcases hsorted m hm with rfl | hlt
      · exact absurd hid.symm (hresults result hresult)
      · exact hlt

theorem Linked.addResult (h : Linked (older ++ [row]) calls results) {result : ToolResultRow}
    (hmessage : result.messageId = row.id)
    (href : result.toolCallRef = (newestCall (calls.filter (·.toolCallId = result.toolCallId))).map (·.id)) :
    Linked (older ++ [row]) calls (results ++ [result]) := by
  have hrow : row ∈ older ++ [row] := by simp
  refine ⟨h.contiguous, h.ids, h.callIds, h.owner, h.ordered, fun r hr => ?_⟩
  rcases mem_append.mp hr with hr | hr
  · exact h.results r hr
  · rw [mem_singleton.mp hr]
    refine ⟨⟨row, hrow, hmessage.symm⟩, calls, [], (append_nil _).symm, href, fun m hm hid => ⟨?_, by simp⟩⟩
    intro call _ n hn _
    rw [eq_of_id h.ids hm hrow (hid.trans hmessage)]
    rcases mem_append.mp hn with hn | hn
    · exact Int.le_of_lt ((pairwise_append.mp h.contiguous.pairwise_lt).2.2 n hn row (by simp))
    · rw [mem_singleton.mp hn]

theorem NextFree.addMessage (h : NextFree draws P Q last rows) (hdraws : draws.Distinct) (hP : ∀ s, P (draws.messageId s))
    (hid : row.id = draws.messageId (last + 1)) (hseq : row.seq = last + 1) :
    Projecting draws P Q (last + 1) 0 (rows.add (.message row)) where
  linked := by
    refine h.linked.addMessage ?_ fun m hm => hid ▸ (h.messages m hm).2 (last + 1) (Int.lt_succ last)
    have := h.length
    omega
  length := by
    have := h.length
    simp only [Rows.add, length_append, length_singleton]
    omega
  messages := by
    intro m hm
    rcases mem_append.mp hm with hm | hm
    · exact ⟨(h.messages m hm).1, fun s hs => (h.messages m hm).2 s (by omega)⟩
    · rw [mem_singleton.mp hm, hid]
      refine ⟨hP _, fun s hs heq => ?_⟩
      have := hdraws.messageId heq
      omega
  calls := fun call hcall => ⟨(h.calls call hcall).1, fun s hs => (h.calls call hcall).2 s (by omega)⟩
  final := ⟨rows.messages, row, rfl, hid⟩
  results := by
    intro result hresult heq
    obtain ⟨⟨m, hm, howner⟩, -⟩ := h.linked.results result hresult
    exact (h.messages m hm).2 (last + 1) (Int.lt_succ last) (howner.trans heq)
  spare := fun call hcall n _ => (h.calls call hcall).2 (last + 1) (Int.lt_succ last) n

theorem Projecting.addCall (h : Projecting draws P Q seq index rows) (hdraws : draws.Distinct)
    (hQ : ∀ m n, Q (draws.toolCallRow m n)) (hmessage : call.messageId = draws.messageId seq)
    (hid : call.id = draws.toolCallRow (draws.messageId seq) index)
    (hunique : ∀ c ∈ rows.toolCalls, ¬(c.messageId = call.messageId ∧ c.toolCallId = call.toolCallId)) :
    Projecting draws P Q seq (index + 1) (rows.add (.toolCall call)) where
  linked := by
    obtain ⟨older, row, hrows, hrow⟩ := h.final
    have hlinked := h.linked
    rw [hrows] at hlinked
    change Linked rows.messages (rows.toolCalls ++ [call]) rows.toolResults
    rw [hrows]
    apply hlinked.addCall (hmessage.trans hrow.symm) _ hunique (hrow ▸ h.results)
    intro c hc
    rw [hid]
    exact h.spare c hc index (Nat.le_refl _)
  length := h.length
  messages := h.messages
  calls := by
    intro c hc
    rcases mem_append.mp hc with hc | hc
    · exact h.calls c hc
    · rw [mem_singleton.mp hc, hid]
      refine ⟨hQ _ _, fun s hs n heq => ?_⟩
      have := hdraws.messageId (hdraws.toolCallRow _ _ _ _ heq).1
      omega
  final := h.final
  results := h.results
  spare := by
    intro c hc n hn
    rcases mem_append.mp hc with hc | hc
    · exact h.spare c hc n (by omega)
    · rw [mem_singleton.mp hc, hid]
      intro heq
      have := (hdraws.toolCallRow _ _ _ _ heq).2
      omega

theorem Projecting.addResult (h : Projecting draws P Q seq index rows) {result : ToolResultRow}
    (hmessage : result.messageId = draws.messageId seq)
    (href : result.toolCallRef = (newestCall (rows.toolCalls.filter (·.toolCallId = result.toolCallId))).map (·.id)) :
    NextFree draws P Q seq (rows.add (.toolResult result)) where
  linked := by
    obtain ⟨older, row, hrows, hrow⟩ := h.final
    have hlinked := h.linked
    rw [hrows] at hlinked
    change Linked rows.messages rows.toolCalls (rows.toolResults ++ [result])
    rw [hrows]
    exact hlinked.addResult (hmessage.trans hrow.symm) href
  length := h.length
  messages := h.messages
  calls := h.calls

/-! ### What a call keeps when it runs alone -/

theorem ensures_insertToolCall (hdraws : draws.Distinct) (hQ : ∀ m n, Q (draws.toolCallRow m n)) (toolCallId : Json)
    (callType : String) (name : Json) (arguments input : Option Json) (extra : Fields) (createdAt : ℕ) :
    storeTables.Ensures (Projecting draws P Q seq index)
      (perform (.insertToolCall (draws.toolCallRow (draws.messageId seq) index) (draws.messageId seq) toolCallId callType
        name arguments input extra createdAt))
      fun _ => Projecting draws P Q seq (index + 1) := by
  refine ensures_perform fun rows hrows answer ws h => ?_
  obtain ⟨_, -, h⟩ := bind_eq_ok.mp h
  obtain ⟨_, -, h⟩ := bind_eq_ok.mp h
  obtain ⟨id, -, h⟩ := bind_eq_ok.mp h
  obtain ⟨_, -, h⟩ := bind_eq_ok.mp h
  split_ifs at h with hshape hconflict
  · -- ON CONFLICT DO NOTHING: the id drawn for the row is not used
    cases h
    exact { hrows with spare := fun call hcall n hn => hrows.spare call hcall n (by omega) }
  · cases h
    refine hrows.addCall hdraws hQ rfl rfl fun c hc hsame => hconflict ?_
    exact any_eq_true.mpr ⟨c, hc, by simpa using hsame⟩

theorem ensures_persistToolCalls (rt : Runtime) (hdraws : draws.Distinct) (hQ : ∀ m n, Q (draws.toolCallRow m n))
    (calls : List Json) :
    storeTables.Ensures (Projecting draws P Q seq index) (persistToolCalls rt draws (draws.messageId seq) index calls)
      fun _ rows => ∃ n, Projecting draws P Q seq n rows := by
  induction calls generalizing index with
  | nil => exact .ret fun rows hrows => ⟨index, hrows⟩
  | cons call calls ih =>
    cases call with
    | obj fields =>
      rw [persistToolCalls]
      cases hquery : toolCallQuery rt draws (draws.messageId seq) index fields with
      | error error => exact .raise error
      | ok q =>
        obtain ⟨toolCallId, callType, name, arguments, input, extra, rfl⟩ := toolCallQuery_eq_ok hquery
        exact (ensures_insertToolCall hdraws hQ _ _ _ _ _ _ _).bind fun _ => ih
    | null | bool | int | float | str | arr => exact .raise _

theorem ensures_toolResult (toolCallId content : Json) : storeTables.Ensures (Projecting draws P Q seq index)
      (do
        let toolCallRef : Option RowId ← Prog.send (Query.findToolCall toolCallId)
        perform (.insertToolResult (draws.messageId seq) toolCallRef toolCallId content))
      fun _ => NextFree draws P Q seq := by
  have hfind : storeTables.Ensures (Projecting draws P Q seq index) (Prog.send (Query.findToolCall toolCallId))
      fun (ref : Option RowId) rows => (∀ id, textParam toolCallId = .ok (some id) →
        ref = (newestCall (rows.toolCalls.filter (·.toolCallId = id))).map (·.id)) ∧
          Projecting draws P Q seq index rows := by
    refine .send fun rows hrows answer ws h => ?_
    obtain ⟨param, hparam, h⟩ := bind_eq_ok.mp h
    cases h
    refine ⟨fun id hid => ?_, hrows⟩
    obtain rfl : param = some id := Except.ok.inj (hparam.symm.trans hid)
    simp only [Option.some.injEq]
    rfl
  refine hfind.bind fun ref => ensures_perform ?_
  rintro rows ⟨hfound, hrows⟩ answer ws h
  obtain ⟨param, hparam, h⟩ := bind_eq_ok.mp h
  obtain ⟨id, hid, h⟩ := bind_eq_ok.mp h
  split_ifs at h
  cases h
  obtain rfl : param = some id := by
    cases param with
    | none => cases hid
    | some text => exact congrArg some (Except.ok.inj hid)
  exact hrows.addResult rfl (hfound id hparam)

theorem ensures_persistToolParts (rt : Runtime) (hdraws : draws.Distinct) (hQ : ∀ m n, Q (draws.toolCallRow m n))
    (message : Message) :
    storeTables.Ensures (Projecting draws P Q seq 0) (persistToolParts rt draws (draws.messageId seq) message)
      fun _ => NextFree draws P Q seq := by
  have hitems : storeTables.Ensures (Projecting draws P Q seq 0)
      (Prog.ofExcept (raised (itemsOr (get message "tool_calls")))) fun _ => Projecting draws P Q seq 0 :=
    .ofExcept fun _ _ _ h => h
  refine hitems.bind fun calls => (ensures_persistToolCalls rt hdraws hQ calls).bind fun _ => ?_
  split
  · rintro rows ⟨n, hrows⟩
    exact ensures_toolResult _ _ rows hrows
  · exact .ret fun rows ⟨n, hrows⟩ => hrows.toNextFree

theorem ensures_persistMediaParts (rt : Runtime) (messageId : RowId) (message : Message) :
    storeTables.Ensures (NextFree draws P Q last) (persistMediaParts rt messageId message)
      fun _ => NextFree draws P Q last := by
  have hemits : (persistMediaParts rt messageId message).Emits (fun q => ∃ row, q = .insertMedia row) fun _ => True :=
    emits_persistMediaParts (fun row => ⟨row, rfl⟩) (.inr trivial) messageId
  apply Tables.Ensures.of_emits hemits
  rintro q ⟨row, rfl⟩ rows hrows answer ws h
  simp only [storeTables, execQuery] at h
  split_ifs at h <;> cases h
  · exact hrows
  · exact ⟨hrows.linked, hrows.length, hrows.messages, hrows.calls⟩

theorem ensures_insertAll_linked (rt : Runtime) (hdraws : draws.Distinct) (hP : ∀ s, P (draws.messageId s))
    (hQ : ∀ m n, Q (draws.toolCallRow m n)) (metadata : Fields) (messages : List Message) :
    storeTables.Ensures (NextFree draws P Q last) (insertAll rt draws metadata last messages)
      fun _ rows => ∃ last, NextFree draws P Q last rows := by
  induction messages generalizing last with
  | nil => exact .ret fun rows hrows => ⟨last, hrows⟩
  | cons message messages ih =>
    have hinsert : storeTables.Ensures (NextFree draws P Q last)
        (Prog.send (Query.insertMessage (draws.messageId (last + 1)) (last + 1) (get message "role") message metadata))
        fun (id : RowId) rows => id = draws.messageId (last + 1) ∧ Projecting draws P Q (last + 1) 0 rows := by
      refine .send fun rows hrows answer ws h => ?_
      obtain ⟨_, -, h⟩ := bind_eq_ok.mp h
      obtain ⟨role, -, h⟩ := bind_eq_ok.mp h
      split_ifs at h
      cases h
      exact ⟨rfl, hrows.addMessage hdraws hP rfl rfl⟩
    refine hinsert.bind fun messageId => .of_and ?_
    rintro rfl
    have hparts : storeTables.Ensures (Projecting draws P Q (last + 1) 0) _ _ :=
      ensures_persistToolParts rt hdraws hQ message
    have hmedia : storeTables.Ensures (NextFree draws P Q (last + 1)) _ _ :=
      ensures_persistMediaParts rt (draws.messageId (last + 1)) message
    exact hparts.bind fun _ => hmedia.bind fun _ => ih.bind fun ids => .ret fun _ h => h

structure Unused (draws : Draws) (P Q : RowId → Prop) (rows : Rows) : Prop where
  linked : Linked rows.messages rows.toolCalls rows.toolResults
  messages : ∀ m ∈ rows.messages, P m.id ∧ ∀ s, m.id ≠ draws.messageId s
  calls : ∀ call ∈ rows.toolCalls, Q call.id ∧ ∀ m n, call.id ≠ draws.toolCallRow m n

theorem Unused.nextFree (h : Unused draws P Q rows) : NextFree draws P Q (rows.messages.length - 1) rows where
  linked := h.linked
  length := rfl
  messages := fun m hm => ⟨(h.messages m hm).1, fun s _ => (h.messages m hm).2 s⟩
  calls := fun call hcall => ⟨(h.calls call hcall).1, fun _ _ n => (h.calls call hcall).2 _ n⟩

theorem Unused.known (rows : Rows) (h : Unused draws P Q rows) : Unused draws P Q (rows.add .conversation) :=
  ⟨h.linked, h.messages, h.calls⟩

theorem ensures_insertMessages_linked (rt : Runtime) (hdraws : draws.Distinct) (hP : ∀ s, P (draws.messageId s))
    (hQ : ∀ m n, Q (draws.toolCallRow m n)) (messages : List Message) (metadata : Option Fields) :
    storeTables.Ensures (Unused draws P Q) (insertMessages rt draws messages metadata)
      fun _ rows => ∃ last, NextFree draws P Q last rows := by
  rw [insertMessages]
  split
  · exact .ret fun rows hrows => ⟨_, hrows.nextFree⟩
  · have hread : storeTables.Ensures (Unused draws P Q) (Prog.send Query.maxSeq)
        fun (last : ℤ) rows => NextFree draws P Q last rows := by
      refine .send fun rows hrows answer ws h => ?_
      cases h
      change NextFree draws P Q rows.lastSeq rows
      rw [Contiguous.lastSeq hrows.linked.contiguous]
      exact hrows.nextFree
    exact hread.bind fun last => ensures_insertAll_linked rt hdraws hP hQ _ messages

theorem ensures_insertReconciled_linked (divergesAt : List Message → List Message → ℕ) (rt : Runtime)
    (hdraws : draws.Distinct) (hP : ∀ s, P (draws.messageId s)) (hQ : ∀ m n, Q (draws.toolCallRow m n))
    (conversation : ConversationId) (messages : List Message) (metadata : Option Fields) (persisted : List Message) :
    storeTables.Ensures (Unused draws P Q)
      (insertReconciled divergesAt rt draws conversation messages metadata persisted)
      fun _ rows => ∃ last, NextFree draws P Q last rows := by
  rw [insertReconciled]
  split
  · exact .raise _
  · split
    · exact .ret fun rows hrows => ⟨_, hrows.nextFree⟩
    · split
      · exact .ret fun rows hrows => ⟨_, hrows.nextFree⟩
      · exact ensures_insertMessages_linked rt hdraws hP hQ _ metadata

theorem ensures_reconcileHistory_linked (divergesAt : List Message → List Message → ℕ) (rt : Runtime)
    (hdraws : draws.Distinct) (hP : ∀ s, P (draws.messageId s)) (hQ : ∀ m n, Q (draws.toolCallRow m n))
    (conversation : ConversationId) (messages : List Message) (metadata : Option Fields) :
    storeTables.Ensures (Unused draws P Q) (reconcileHistory divergesAt rt draws conversation messages metadata)
      fun _ rows => ∃ last, NextFree draws P Q last rows := by
  have hfetch : storeTables.Ensures (Unused draws P Q) (Prog.send Query.fetchMessages)
      fun (_ : List Message) => Unused draws P Q := by
    refine .send fun rows hrows answer ws h => ?_
    cases h
    exact hrows
  refine ensures_locked Unused.known (hfetch.bind fun persisted => ?_)
  exact ensures_insertReconciled_linked divergesAt rt hdraws hP hQ conversation messages metadata persisted

end Writers

/-! ### Interleaved calls -/

def Call.draws : Call → Option Draws
  | .ensureConversation _ => none
  | .appendMessages _ _ _ draws | .reconcileHistory _ _ _ draws | .reconcileProjectionAware _ _ _ draws => some draws

variable {ι : Type} {rt : Runtime} {calls : ι → Call}

/-- Random ids: no id is drawn twice, by one call or by two. -/
structure FreshDraws (calls : ι → Call) : Prop where
  messageId : ∀ i j di dj s t, (calls i).draws = some di → (calls j).draws = some dj →
    di.messageId s = dj.messageId t → i = j ∧ s = t
  toolCallRow : ∀ i j di dj m m' n n', (calls i).draws = some di → (calls j).draws = some dj →
    di.toolCallRow m n = dj.toolCallRow m' n' → i = j ∧ m = m' ∧ n = n'

theorem FreshDraws.distinct (h : FreshDraws calls) {i : ι} {draws : Draws} (hdraws : (calls i).draws = some draws) :
    draws.Distinct where
  messageId := fun s t heq => (h.messageId i i draws draws s t hdraws hdraws heq).2
  toolCallRow := fun m m' n n' heq => (h.toolCallRow i i draws draws m m' n n' hdraws hdraws heq).2

def DrawnMessage (calls : ι → Call) (history : List ι) (id : RowId) : Prop :=
  ∃ i ∈ history, ∃ draws s, (calls i).draws = some draws ∧ id = draws.messageId s

def DrawnCall (calls : ι → Call) (history : List ι) (id : RowId) : Prop :=
  ∃ i ∈ history, ∃ draws m n, (calls i).draws = some draws ∧ id = draws.toolCallRow m n

/-- The rows of a conversation hang together, and their ids come from the committed calls. -/
structure Known (calls : ι → Call) (history : List ι) (rows : Rows) : Prop where
  linked : Linked rows.messages rows.toolCalls rows.toolResults
  messages : ∀ m ∈ rows.messages, DrawnMessage calls history m.id
  calls : ∀ call ∈ rows.toolCalls, DrawnCall calls history call.id

variable {history : List ι} {rows : Rows}

theorem Known.concat (h : Known calls history rows) (i : ι) : Known calls (history ++ [i]) rows where
  linked := h.linked
  messages := by
    intro m hm
    obtain ⟨j, hj, hdrawn⟩ := h.messages m hm
    exact ⟨j, mem_append_left _ hj, hdrawn⟩
  calls := by
    intro call hcall
    obtain ⟨j, hj, hdrawn⟩ := h.calls call hcall
    exact ⟨j, mem_append_left _ hj, hdrawn⟩

theorem Known.unused (h : Known calls history rows) (hfresh : FreshDraws calls) {i : ι} (hi : i ∉ history) {draws : Draws}
    (hdraws : (calls i).draws = some draws) :
    Unused draws (DrawnMessage calls (history ++ [i])) (DrawnCall calls (history ++ [i])) rows where
  linked := h.linked
  messages := by
    intro m hm
    refine ⟨(h.concat i).messages m hm, fun s heq => ?_⟩
    obtain ⟨j, hj, draws', t, hdraws', hid⟩ := h.messages m hm
    obtain ⟨rfl, -⟩ := hfresh.messageId _ _ _ _ _ _ hdraws' hdraws (hid.symm.trans heq)
    exact hi hj
  calls := by
    intro call hcall
    refine ⟨(h.concat i).calls call hcall, fun m n heq => ?_⟩
    obtain ⟨j, hj, draws', m', n', hdraws', hid⟩ := h.calls call hcall
    obtain ⟨rfl, -⟩ := hfresh.toolCallRow _ _ _ _ _ _ _ _ hdraws' hdraws (hid.symm.trans heq)
    exact hi hj

theorem ensures_known (rt : Runtime) (hfresh : FreshDraws calls) {i : ι} (hi : i ∉ history) :
    storeTables.Ensures (Known calls history) ((calls i).prog rt) fun _ => Known calls (history ++ [i]) := by
  have hwriter : ∀ draws, (calls i).draws = some draws → ∀ p : StoreProg (List RowId),
      storeTables.Ensures (Unused draws (DrawnMessage calls (history ++ [i])) (DrawnCall calls (history ++ [i]))) p
        (fun _ rows => ∃ last, NextFree draws (DrawnMessage calls (history ++ [i])) (DrawnCall calls (history ++ [i]))
          last rows) →
      storeTables.Ensures (Known calls history) p fun _ => Known calls (history ++ [i]) := by
    intro draws hdraws p hp rows hrows result ws hrun
    obtain ⟨last, h⟩ := hp rows (hrows.unused hfresh hi hdraws) result ws hrun
    exact ⟨h.linked, fun m hm => (h.messages m hm).1, fun call hcall => (h.calls call hcall).1⟩
  have hmessage : ∀ draws, (calls i).draws = some draws → ∀ s, DrawnMessage calls (history ++ [i]) (draws.messageId s) :=
    fun draws hdraws s => ⟨i, by simp, draws, s, hdraws, rfl⟩
  have hcall : ∀ draws, (calls i).draws = some draws → ∀ m n,
      DrawnCall calls (history ++ [i]) (draws.toolCallRow m n) :=
    fun draws hdraws m n => ⟨i, by simp, draws, m, n, hdraws, rfl⟩
  cases hcase : calls i with
  | ensureConversation c =>
    intro rows hrows result ws hrun
    cases hrun
    exact ⟨hrows.linked, (hrows.concat i).messages, (hrows.concat i).calls⟩
  | appendMessages c messages metadata draws =>
    have hdraws : (calls i).draws = some draws := by rw [hcase, Call.draws]
    apply hwriter draws hdraws
    rw [Call.prog, appendMessages]
    split
    · exact .ret fun rows hrows => ⟨_, hrows.nextFree⟩
    · exact ensures_locked Unused.known (ensures_insertMessages_linked rt (hfresh.distinct hdraws)
        (hmessage draws hdraws) (hcall draws hdraws) messages metadata)
  | reconcileHistory c messages metadata draws | reconcileProjectionAware c messages metadata draws =>
    have hdraws : (calls i).draws = some draws := by rw [hcase, Call.draws]
    exact hwriter draws hdraws _ (ensures_reconcileHistory_linked _ rt (hfresh.distinct hdraws)
      (hmessage draws hdraws) (hcall draws hdraws) c messages metadata)

section Reachable

variable [DecidableEq ι] {w : World ConversationId Db ι Write Answer StoreError (List RowId)}

theorem known_of_reachable (hfresh : FreshDraws calls) (h : (storeSystem rt calls).Reachable {} w) (c : ConversationId) :
    Known calls w.history (w.store.rows c) := by
  induction h with
  | refl =>
    have hlinked : Linked [] [] [] := ⟨rfl, .nil, .nil, by simp, .nil, by simp⟩
    exact ⟨hlinked, fun m hm => (nomatch hm), fun call hcall => (nomatch hcall)⟩
  | @tail u v hsteps hstep ih =>
    obtain ⟨i, hstep⟩ := hstep
    have hlocking := locking_storeSystem rt calls
    have hinv := System.inv_of_steps (System.Steps.locked hsteps hlocking)
    have hnodup := (System.inv_of_steps ((System.Steps.step hsteps hstep).locked hlocking)).nodup
    rcases hstep.effect hinv with ⟨hstore, hhistory, -⟩ | ⟨result, ws, -, hhistory, hrun, hstore⟩
    · rw [hstore, hhistory]
      exact ih
    · rw [hhistory] at hnodup ⊢
      have hi : i ∉ u.history := fun hmem => (nodup_append'.mp hnodup).2.2 hmem (mem_singleton_self i)
      change v.store = storeTables.applyAll (calls i).conversation ws u.store at hstore
      rw [hstore]
      by_cases hc : c = (calls i).conversation
      · subst hc
        rw [Db.rows_applyAll]
        exact ensures_known rt hfresh hi _ ih result ws hrun
      · rw [Db.rows_applyAll_of_ne hc]
        exact ih.concat i

/-- For any interleaving of store calls: a stored result refers to the latest call of its id up to its own message, or to `NULL` if there is none, exactly if the latest of those calls in the log is also the one with the greatest start time and row id. -/
theorem refers_to_latest_iff (hfresh : FreshDraws calls) (h : (storeSystem rt calls).Reachable {} w) (c : ConversationId) :
    ∀ result ∈ (w.store.rows c).toolResults, ∀ m ∈ (w.store.rows c).messages, m.id = result.messageId →
      (RefersToLatest (w.store.rows c) result m.seq ↔ LatestIsNewest (w.store.rows c) result.toolCallId m.seq) :=
  fun _ hresult _ hm hid => (known_of_reachable hfresh h c).linked.refers_iff hresult hm hid

end Reachable

/-- Two messages that call with the same id, and a result with that id, appended in one transaction. -/
def calledTwice (messageId : ℤ → RowId) : Unit → Call :=
  let call : Message := [("role", .str "assistant"), ("tool_calls", .arr [.obj [("id", .str "k"), ("type", .str "function"),
    ("function", .obj [("name", .str "f"), ("arguments", .str "")])]])]
  let result : Message := [("role", .str "tool"), ("tool_call_id", .str "k"), ("content", .str "x")]
  fun _ => .appendMessages "c" [call, call, result] none ⟨0, messageId, Nat.pair⟩

theorem freshDraws_calledTwice {messageId : ℤ → RowId} (h : Function.Injective messageId) :
    FreshDraws (calledTwice messageId) where
  messageId := by
    intro _ _ di dj s t hdi hdj heq
    obtain rfl := Option.some.inj hdi
    obtain rfl := Option.some.inj hdj
    exact ⟨rfl, h heq⟩
  toolCallRow := by
    intro _ _ di dj m m' n n' hdi hdj heq
    obtain rfl := Option.some.inj hdi
    obtain rfl := Option.some.inj hdj
    exact ⟨rfl, Nat.pair_eq_pair.mp heq⟩

theorem messageId_of_latestAt {first second third : RowId} {call : ToolCallRow} {p : ℤ}
    (hmessages : rows.messages.map (fun m => (m.id, m.seq)) = [(first, 0), (second, 1), (third, 2)])
    (hcalls : rows.toolCalls.map (fun call => (call.messageId, call.toolCallId)) = [(first, "k"), (second, "k")])
    (hthird : first ≠ third) (h : LatestAt rows "k" 2 call p) : call.messageId = second := by
  have hlatest : 1 ≤ p := by
    have hentry : (second, "k") ∈ rows.toolCalls.map fun call => (call.messageId, call.toolCallId) := by
      rw [hcalls]
      simp
    have hposition : (second, 1) ∈ rows.messages.map fun m => (m.id, m.seq) := by
      rw [hmessages]
      simp
    obtain ⟨other, hother, hentry⟩ := mem_map.mp hentry
    obtain ⟨m, hm, hposition⟩ := mem_map.mp hposition
    simp only [Prod.mk.injEq] at hentry hposition
    exact h.latest other 1 ⟨hother, hentry.2, m, hm, hposition.1.trans hentry.1.symm, hposition.2⟩ (by omega)
  obtain ⟨m, hm, hid, hseq⟩ := h.message
  have hposition : (m.id, m.seq) ∈ rows.messages.map fun m => (m.id, m.seq) := mem_map_of_mem hm
  have hentry : (call.messageId, call.toolCallId) ∈ rows.toolCalls.map fun call => (call.messageId, call.toolCallId) :=
    mem_map_of_mem h.mem
  rw [hmessages, hid, hseq] at hposition
  rw [hcalls] at hentry
  simp only [mem_cons, Prod.mk.injEq, not_mem_nil, or_false] at hposition hentry
  rcases hentry with ⟨hfirst, -⟩ | ⟨hsecond, -⟩
  · rcases hposition with ⟨-, hp⟩ | ⟨hsecond, -⟩ | ⟨hthird', -⟩
    · omega
    · exact hsecond
    · exact absurd (hfirst.symm.trans hthird') hthird
  · exact hsecond

/-- The later call gets the greater id: the result refers to it. -/
theorem refers_to_latest_iff_calledTwice : ∃ w,
    (storeSystem plainRuntime (calledTwice Equiv.intEquivNat)).Reachable {} w ∧
      ∃ result ∈ (w.store.rows "c").toolResults, result.toolCallRef = some 6 ∧
        RefersToLatest (w.store.rows "c") result 2 := by
  have hfree : (storeSystem plainRuntime (calledTwice Equiv.intEquivNat)).OnlyHolder () fun _ => none := fun _ => .inl rfl
  obtain ⟨w, hreach, hmessages, hcalls, hranks, result, hresult, href, hid, m, hm, hmid, hseq⟩ : ∃ w,
      (storeSystem plainRuntime (calledTwice Equiv.intEquivNat)).Reachable {} w ∧
      (w.store.rows "c").messages.map (fun m => (m.id, m.seq)) = [(0, 0), (2, 1), (4, 2)] ∧
      (w.store.rows "c").toolCalls.map (fun call => (call.messageId, call.toolCallId)) = [(0, "k"), (2, "k")] ∧
      (w.store.rows "c").toolCalls.map (fun call => (call.messageId, call.createdAt, call.id)) = [(0, 0, 0), (2, 0, 6)] ∧
      ∃ result ∈ (w.store.rows "c").toolResults, result.toolCallRef = some 6 ∧ result.toolCallId = "k" ∧
        ∃ m ∈ (w.store.rows "c").messages, m.id = result.messageId ∧ m.seq = 2 :=
    ⟨_, System.steps_commit hfree rfl rfl, rfl, rfl, rfl, _, mem_singleton_self _, rfl, rfl, _,
      mem_cons_of_mem _ (mem_cons_of_mem _ (mem_singleton_self _)), rfl, rfl⟩
  have hfresh := freshDraws_calledTwice Equiv.intEquivNat.injective
  refine ⟨w, hreach, result, hresult, href, hseq ▸ ?_⟩
  refine (refers_to_latest_iff hfresh hreach "c" result hresult m hm hmid).mpr ?_
  rw [hid, hseq]
  intro call p hlatest other q hother _
  have hrank : ∀ c ∈ (w.store.rows "c").toolCalls, (c.messageId = 0 ∧ c.rank = toLex (0, 0)) ∨
      (c.messageId = 2 ∧ c.rank = toLex (0, 6)) := by
    intro c hc
    have hentry : (c.messageId, c.createdAt, c.id) ∈
        (w.store.rows "c").toolCalls.map fun call => (call.messageId, call.createdAt, call.id) := mem_map_of_mem hc
    rw [hranks] at hentry
    simpa [ToolCallRow.rank] using hentry
  have hlast := messageId_of_latestAt hmessages hcalls (by decide) hlatest
  rcases hrank call hlatest.mem with ⟨hfirst, -⟩ | ⟨-, hcall⟩
  · exact absurd (hfirst.symm.trans hlast) (by decide)
  · rcases hrank other hother.mem with ⟨-, hsmaller⟩ | ⟨-, hsame⟩
    · rw [hsmaller, hcall]
      exact .inr (by decide)
    · have hids := (known_of_reachable hfresh hreach "c").linked.callIds
      refine .inl (eq_of_id hids hother.mem hlatest.mem ?_)
      by_contra hne
      exact ToolCallRow.rank_ne hne (hsame.trans hcall.symm)

/-- The earlier call gets the greater id: the result refers to it, and the latest call of its id is another one. -/
theorem refers_to_earlier : FreshDraws (calledTwice fun seq => Equiv.intEquivNat (1 - seq)) ∧ ∃ w,
    (storeSystem plainRuntime (calledTwice fun seq => Equiv.intEquivNat (1 - seq))).Reachable {} w ∧
      (w.store.rows "c").toolCalls.map (fun call => (call.id, call.messageId)) = [(6, 2), (0, 0)] ∧
      ∃ result ∈ (w.store.rows "c").toolResults, result.toolCallRef = some 6 ∧
        ¬RefersToLatest (w.store.rows "c") result 2 := by
  have hfree : (storeSystem plainRuntime (calledTwice fun seq => Equiv.intEquivNat (1 - seq))).OnlyHolder ()
    fun _ => none := fun _ => .inl rfl
  obtain ⟨w, hreach, hmessages, hcalls, hids, result, hresult, href, hid⟩ : ∃ w,
      (storeSystem plainRuntime (calledTwice fun seq => Equiv.intEquivNat (1 - seq))).Reachable {} w ∧
      (w.store.rows "c").messages.map (fun m => (m.id, m.seq)) = [(2, 0), (0, 1), (1, 2)] ∧
      (w.store.rows "c").toolCalls.map (fun call => (call.messageId, call.toolCallId)) = [(2, "k"), (0, "k")] ∧
      (w.store.rows "c").toolCalls.map (fun call => (call.id, call.messageId)) = [(6, 2), (0, 0)] ∧
      ∃ result ∈ (w.store.rows "c").toolResults, result.toolCallRef = some 6 ∧ result.toolCallId = "k" :=
    ⟨_, System.steps_commit hfree rfl rfl, rfl, rfl, rfl, _, mem_singleton_self _, rfl, rfl⟩
  refine ⟨freshDraws_calledTwice fun s t heq => ?_, w, hreach, hids, result, hresult, href, ?_⟩
  · have := Equiv.intEquivNat.injective heq
    omega
  · rintro (⟨call, p, hlatest, hcall⟩ | ⟨hnone, -⟩)
    · rw [hid] at hlatest
      have hmessage := messageId_of_latestAt hmessages hcalls (by decide) hlatest
      have hentry : (call.id, call.messageId) ∈ (w.store.rows "c").toolCalls.map fun call => (call.id, call.messageId) :=
        mem_map_of_mem hlatest.mem
      rw [hids, hmessage, ← Option.some.inj (href.symm.trans hcall)] at hentry
      simp at hentry
    · rw [href] at hnone
      cases hnone

end ContextProxy
