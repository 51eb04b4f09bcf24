import ContextProxy.Conversation.Projections
import Mathlib.Data.List.Chain

/-!
# A serial full-history client

The client resends the whole conversation with every request. Its copy drifts from the log: reasoning is dropped, parts are joined, tool results are pruned, and a reply may never have reached the store. The store sees a sequence of lists, each of which starts with an equivalent copy of the one before (`Continues`). The log always agrees with the last one, and only what is new is appended.
-/

namespace ContextProxy

open List

/-- The log after reconciling the given lists in order, starting empty. -/
def logAfter (reconciled : List (List Message)) : List Message := reconciled.foldl applied []

theorem logAfter_concat (rs : List (List Message)) (r : List Message) :
    logAfter (rs ++ [r]) = applied (logAfter rs) r := by
  rw [logAfter, foldl_append]
  rfl

theorem logAfter_isPrefix (rs more : List (List Message)) : logAfter rs <+: logAfter (rs ++ more) := by
  induction more using List.reverseRecOn with
  | nil => rw [append_nil]
  | append_singleton more r ih =>
    rw [← append_assoc, logAfter_concat]
    exact ih.trans (prefix_append _ _)

/-- The second list starts with an equivalent copy of the first. -/
def Continues (r r' : List Message) : Prop := ∃ a b, r' = a ++ b ∧ Agree equivalent r a

variable {r : List Message} {rs : List (List Message)}

variable {log r' : List Message}

theorem Continues.appends (h : Continues log r) :
    (reconcileProjection log r).mode ≠ .conflict ∧ Agree equivalent (applied log r) r := by
  obtain ⟨a, b, rfl, ha⟩ := h
  have happends := appends_of_agree ha b
  refine ⟨happends.1, ?_⟩
  rw [happends.applied_eq]
  exact ha.append (agree_refl b)

theorem Continues.of_agree (hlog : Agree equivalent log r) (h : Continues r r') : Continues log r' := by
  obtain ⟨a, b, rfl, ha⟩ := h
  exact ⟨a, b, rfl, hlog.trans_equivalent ha⟩

/-! ### Runs -/

theorem continues_logAfter (h : (rs ++ [r]).IsChain Continues) : Continues (logAfter rs) r := by
  induction rs using List.reverseRecOn generalizing r with
  | nil => exact ⟨[], r, rfl, .nil⟩
  | append_singleton rs r' ih =>
    have hchain : (rs ++ [r']).IsChain Continues := (isChain_append.mp h).1
    have hstep : Continues r' r := (isChain_append.mp h).2.2 r' (by simp) r (by simp)
    rw [logAfter_concat]
    exact Continues.of_agree (ih hchain).appends.2 hstep

theorem agree_logAfter (h : (rs ++ [r]).IsChain Continues) : Agree equivalent (logAfter (rs ++ [r])) r := by
  rw [logAfter_concat]
  exact (continues_logAfter h).appends.2

/-- Each entry of the log is the first version of that message that was reconciled. -/
theorem getElem?_logAfter (h : rs.IsChain Continues) (k : ℕ) : (logAfter rs)[k]? = rs.findSome? (·[k]?) := by
  induction rs using List.reverseRecOn with
  | nil => rfl
  | append_singleton rs r ih =>
    obtain ⟨a, b, hr, ha⟩ := continues_logAfter h
    have hlen := ha.length_eq
    have happlied : logAfter (rs ++ [r]) = logAfter rs ++ b := by
      rw [logAfter_concat, hr, (appends_of_agree ha b).applied_eq]
    rw [happlied, findSome?_append, ← ih (isChain_append.mp h).1]
    by_cases hk : k < (logAfter rs).length
    · rw [getElem?_append_left hk, getElem?_eq_getElem hk]
      rfl
    · rw [getElem?_append_right (by omega), getElem?_eq_none (show (logAfter rs).length ≤ k by omega),
        Option.none_or, hr, hlen]
      simp [getElem?_append_right (show a.length ≤ k by omega)]

/-! ### Turns -/

structure Turn where
  incoming : List Message
  reply : Message
  stored : Bool

def Turn.reconciled (t : Turn) : List (List Message) :=
  t.incoming :: if t.stored then [t.incoming ++ [t.reply]] else []

def Turn.ContinuedBy (t u : Turn) : Prop := Continues (t.incoming ++ [t.reply]) u.incoming

def reconciledBy (turns : List Turn) : List (List Message) := turns.flatMap Turn.reconciled

theorem Continues.of_append {x : List Message} (h : Continues (r ++ x) r') : Continues r r' := by
  obtain ⟨a, b, rfl, ha⟩ := h
  obtain ⟨a₁, a₂, rfl, ha₁, -⟩ := ha.exists_of_append_left
  exact ⟨a₁, a₂ ++ b, append_assoc .., ha₁⟩

theorem Turn.isChain_reconciled_append (t : Turn) (hrs : rs.IsChain Continues)
    (h : ∀ r ∈ rs.head?, Continues (t.incoming ++ [t.reply]) r) : (t.reconciled ++ rs).IsChain Continues := by
  rw [Turn.reconciled]
  cases t.stored with
  | false => exact isChain_cons.mpr ⟨fun r hr => (h r hr).of_append, hrs⟩
  | true =>
    refine isChain_cons.mpr ⟨fun r hr => ?_, isChain_cons.mpr ⟨h, hrs⟩⟩
    obtain rfl : t.incoming ++ [t.reply] = r := by simpa using hr
    exact ⟨t.incoming, [t.reply], rfl, agree_refl _⟩

/-- What a serial client makes the store reconcile is a continuing run, whichever replies were skipped. -/
theorem isChain_reconciledBy {turns : List Turn} (h : turns.IsChain Turn.ContinuedBy) :
    (reconciledBy turns).IsChain Continues := by
  induction turns with
  | nil => exact .nil
  | cons t turns ih =>
    obtain ⟨hhead, htail⟩ := isChain_cons.mp h
    rw [reconciledBy, flatMap_cons]
    refine t.isChain_reconciled_append (ih htail) fun r hr => ?_
    cases turns with
    | nil => simp at hr
    | cons u turns =>
      obtain rfl : u.incoming = r := by simpa [Turn.reconciled] using hr
      exact hhead u (by simp)

/-- A serial full-history client is never refused, its log has exactly the messages it sent after each inbound step, each entry is the first version that reached the store, and no entry is ever rewritten. -/
theorem serial_client_transcript {turns : List Turn} (h : turns.IsChain Turn.ContinuedBy) :
    (∀ rs r, rs ++ [r] <+: reconciledBy turns → (reconcileProjection (logAfter rs) r).mode ≠ .conflict) ∧
      (∀ ts t, ts ++ [t] <+: turns → (logAfter (reconciledBy ts ++ [t.incoming])).length = t.incoming.length) ∧
      (∀ rs, rs <+: reconciledBy turns → ∀ k : ℕ, (logAfter rs)[k]? = rs.findSome? (·[k]?)) ∧
      ∀ rs rs', rs <+: rs' → rs' <+: reconciledBy turns → logAfter rs <+: logAfter rs' := by
  have hchain := isChain_reconciledBy h
  have hsub : ∀ rs, rs <+: reconciledBy turns → rs.IsChain Continues := by
    rintro rs ⟨more, hmore⟩
    rw [← hmore] at hchain
    exact (isChain_append.mp hchain).1
  refine ⟨fun rs r hr => (continues_logAfter (hsub _ hr)).appends.1, fun ts t hts => ?_,
    fun rs hrs k => getElem?_logAfter (hsub rs hrs) k, fun rs rs' hrs _ => ?_⟩
  · obtain ⟨us, rfl⟩ := hts
    refine (agree_logAfter (hsub _ ⟨t.reconciled.tail ++ reconciledBy us, ?_⟩)).length_eq
    simp [reconciledBy, Turn.reconciled, flatMap_append, flatMap_cons]
  · obtain ⟨more, rfl⟩ := hrs
    exact logAfter_isPrefix rs more

/-- Two requests; the reply to the first was stored with its reasoning, which the client drops. -/
theorem serial_client_transcript_reasoning : (logAfter
      ([[textMessage "user" "A"], [textMessage "user" "A", ("reasoning", .str "why") :: textMessage "assistant" "B"]]
        ++ [[textMessage "user" "A", textMessage "assistant" "B", textMessage "user" "C"]])).length = 3 := by
  have hchain : [Turn.mk [textMessage "user" "A"] (("reasoning", .str "why") :: textMessage "assistant" "B") true,
      Turn.mk [textMessage "user" "A", textMessage "assistant" "B", textMessage "user" "C"]
        (textMessage "assistant" "D") false].IsChain Turn.ContinuedBy := by
    refine .cons_cons ⟨[textMessage "user" "A", textMessage "assistant" "B"], [textMessage "user" "C"], rfl, ?_⟩
      (.singleton _)
    exact .cons (by decide) (.cons (by decide) .nil)
  exact (serial_client_transcript hchain).2.1 [_] _ (prefix_refl _)

end ContextProxy
