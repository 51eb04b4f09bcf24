import ContextProxy.Observability.LimiterTables

/-!
# What a rejected client is told

A rejection says how many seconds to wait, computed from the bucket that rejected. That bucket has a token by then, whatever other calls do, or was dropped and will be full. A request with a conversation needs a second bucket, of which the number knows nothing: so the retry is admitted exactly if the other bucket has a token as well, or was dropped (`retry_admitted_iff`). At sixty requests a minute or more every wait fills it.
-/

namespace ContextProxy

open List

structure AdmissionCall where
  now : ℚ
  client : String
  conversation : Option String

namespace RateLimiter

variable (limiter : RateLimiter)

def afterCalls (st : LimiterState) (calls : List AdmissionCall) : LimiterState :=
  calls.foldl (fun st call => (limiter.admitRequest call.client call.conversation call.now st).2) st

def conversationKey? (conversation : Option String) : Option String :=
  (conversation.filter (· ≠ "")).map limiter.conversationKey

/-- The buckets that a call uses: a call that its client bucket rejects never comes to the other one. -/
def usedKeys (call : AdmissionCall) (st : LimiterState) : List String :=
  limiter.clientKey call.client ::
    if (limiter.consume (limiter.clientKey call.client) call.now st).1 then (limiter.conversationKey? call.conversation).toList
    else []

def LeaveAlone (keys : List String) : LimiterState → List AdmissionCall → Prop
  | _, [] => True
  | st, call :: calls =>
    (∀ key ∈ limiter.usedKeys call st, key ∉ keys) ∧
      LeaveAlone keys (limiter.admitRequest call.client call.conversation call.now st).2 calls

/-- The bucket that did not reject. -/
def otherKey (client : String) (conversation : Option String) : Option RateScope → Option String
  | some .client => limiter.conversationKey? conversation
  | some .conversation => some (limiter.clientKey client)
  | none => none

variable {limiter} {st : LimiterState} {key : String} {now : ℚ}

/-! ### One bucket -/

theorem granted_iff (h : (st.table.map (·.key)).Nodup) : (limiter.consume key now st).1 = true ↔
      ∀ e ∈ limiter.tableFor key now st, e.key = key → 1 ≤ e.tokens + (now - e.updated) * limiter.rate := by
  have hburst : (1 : ℚ) ≤ limiter.burst := Int.cast_one_le_of_pos limiter.positive.2.1
  have hgranted : (limiter.consume key now st).1 = true ↔ 1 ≤ limiter.tokensFor key now st := by
    rw [consume_eq]
    split <;> simp_all
  rw [hgranted, tokensFor]
  split
  · rename_i bucket hbucket
    have hmem := mem_of_find?_eq_some hbucket
    have hkey : bucket.key = key := by simpa using find?_some hbucket
    rw [le_min_iff]
    constructor
    · intro hone e he hekey
      rw [inj_on_of_nodup_map (nodup_tableFor h) he hmem (hekey.trans hkey.symm)]
      exact hone.2
    · intro hall
      exact ⟨hburst, hall bucket hmem hkey⟩
  · rename_i hnone
    refine ⟨fun _ e he hekey => ?_, fun _ => hburst⟩
    exact absurd (decide_eq_true hekey) (by simpa using find?_eq_none.mp hnone e he)

variable {e : LiveBucket} {calls : List AdmissionCall}

theorem mem_consume (hkey : e.key ≠ key) :
    e ∈ (limiter.consume key now st).2.table ↔ e ∈ limiter.tableFor key now st := by
  have hput : ∀ tokens : ℚ, e ∈ putBucket (limiter.tableFor key now st) ⟨⟨tokens, now⟩, key⟩ ↔
      e ∈ limiter.tableFor key now st := by
    intro tokens
    rw [mem_putBucket]
    constructor
    · intro h
      rcases h with rfl | ⟨he, -⟩
      · exact absurd rfl hkey
      · exact he
    · exact fun he => .inr ⟨he, hkey⟩
  rw [consume_eq]
  split <;> exact hput _

theorem mem_of_mem_consume (h : e ∈ (limiter.consume key now st).2.table) (hkey : e.key ≠ key) :
    e ∈ st.table := sweep_subset (tableFor_subset ((mem_consume hkey).mp h))

theorem mem_tableFor (hquiet : now - st.lastSweep < limiter.sweepInterval) (hkey : e.key = key) :
    e ∈ limiter.tableFor key now st ↔ e ∈ st.table := by
  rw [tableFor, sweep_of_quiet hquiet]
  split
  · rfl
  · rename_i habsent
    constructor
    · exact makeRoom_subset
    · intro he
      exact absurd (any_eq_true.mpr ⟨e, he, decide_eq_true hkey⟩) habsent

theorem quiet_consume : now - (limiter.consume key now st).2.lastSweep < limiter.sweepInterval := by
  rw [consume_eq]
  split <;> exact quiet_sweep

theorem mem_consume_of_rejected (h : (limiter.consume key now st).1 = false) :
    ⟨⟨limiter.tokensFor key now st, now⟩, key⟩ ∈ (limiter.consume key now st).2.table := by
  rw [consume_eq] at h ⊢
  split
  · rename_i hone
    rw [if_pos hone] at h
    cases h
  · exact mem_putBucket.mpr (.inl rfl)

theorem one_le_of_wait (hnodup : (st.table.map (·.key)).Nodup) {tokens later : ℚ} (hmem : ⟨⟨tokens, now⟩, key⟩ ∈ st.table)
    (hlater : now + limiter.secondsUntilToken key st ≤ later) : 1 ≤ tokens + (later - now) * limiter.rate := by
  have hfind : st.table.find? (·.key = key) = some ⟨⟨tokens, now⟩, key⟩ := find?_of_mem hnodup hmem
  have hrate := limiter.rate_pos
  simp only [secondsUntilToken, hfind] at hlater
  by_cases hdeficit : 1 - tokens ≤ 0
  · rw [if_pos hdeficit, Int.cast_one] at hlater
    have := mul_nonneg (show 0 ≤ later - now by linarith) hrate.le
    linarith
  · rw [if_neg hdeficit, Int.cast_max] at hlater
    have hfloor : (1 - tokens) / limiter.rate < ⌊(1 - tokens) / limiter.rate⌋ + 1 := Int.lt_floor_add_one _
    have hwait := le_max_right ((1 : ℤ) : ℚ) (((⌊(1 - tokens) / limiter.rate⌋ + 1 : ℤ)) : ℚ)
    rw [Int.cast_add, Int.cast_one] at hwait
    have hdiv : (1 - tokens) / limiter.rate < later - now := by
      push_cast at hlater
      linarith
    have := (div_lt_iff₀ hrate).mp hdiv
    linarith

theorem one_le_secondsUntilToken (limiter : RateLimiter) (key : String) (st : LimiterState) :
    1 ≤ limiter.secondsUntilToken key st := by
  have hwait : ∀ deficit : ℚ, 1 ≤ if deficit ≤ 0 then 1 else max 1 (⌊deficit / limiter.rate⌋ + 1) := by
    intro deficit
    split
    · exact le_refl _
    · exact le_max_left _ _
  exact hwait _

/-! ### Buckets that are left alone -/

theorem mem_of_mem_admitRequest {call : AdmissionCall}
    (h : e ∈ (limiter.admitRequest call.client call.conversation call.now st).2.table)
    (hkey : e.key ∉ limiter.usedKeys call st) : e ∈ st.table := by
  rw [usedKeys, mem_cons, not_or] at hkey
  obtain ⟨hclient, hrest⟩ := hkey
  rw [admitRequest] at h
  simp only at h
  split at h
  · rename_i hgranted
    rw [if_pos hgranted, conversationKey?] at hrest
    split at h
    · exact mem_of_mem_consume h hclient
    · rename_i conversation hconversation
      rw [hconversation, Option.map_some, Option.toList_some, mem_singleton] at hrest
      have hmem : e ∈ (limiter.consume (limiter.conversationKey conversation) call.now
          (limiter.consume (limiter.clientKey call.client) call.now st).2).2.table := by
        split at h <;> exact h
      exact mem_of_mem_consume (mem_of_mem_consume hmem hrest) hclient
  · exact mem_of_mem_consume h hclient

theorem mem_of_mem_afterCalls {keys : List String} (h : limiter.LeaveAlone keys st calls)
    (he : e ∈ (limiter.afterCalls st calls).table) (hkey : e.key ∈ keys) : e ∈ st.table := by
  induction calls generalizing st with
  | nil => exact he
  | cons call calls ih => exact mem_of_mem_admitRequest (ih h.2 he) fun hused => h.1 _ hused hkey

theorem Bounded.afterCalls (h : limiter.Bounded now st) (hclock : (now :: calls.map (·.now)).IsChain (· ≤ ·)) :
    limiter.Bounded ((calls.map (·.now)).getLastD now) (limiter.afterCalls st calls) := by
  induction calls generalizing now st with
  | nil => exact h
  | cons call calls ih =>
    rw [map_cons, isChain_cons_cons] at hclock
    rw [map_cons, getLastD_cons]
    exact ih ((h.mono hclock.1).admitRequest call.client call.conversation) hclock.2

/-! ### Two buckets -/

variable {client : String} {conversation : Option String}

theorem allowed_iff : (limiter.admitRequest client conversation now st).1.allowed = true ↔
      (limiter.consume (limiter.clientKey client) now st).1 = true ∧
        ∀ key ∈ limiter.conversationKey? conversation,
          (limiter.consume key now (limiter.consume (limiter.clientKey client) now st).2).1 = true := by
  rw [admitRequest, conversationKey?]
  simp only
  split
  · rename_i hgranted
    cases conversation.filter (· ≠ "") with
    | none => simp [hgranted]
    | some conversation =>
      simp only [hgranted, true_and, Option.map_some, Option.mem_some_iff, forall_eq']
      split <;> simp_all
  · rename_i hgranted
    simp [hgranted]

theorem granted_conversation_iff (h : (st.table.map (·.key)).Nodup) (hkey : key ≠ limiter.clientKey client) :
    (limiter.consume key now (limiter.consume (limiter.clientKey client) now st).2).1 = true ↔
      ∀ e ∈ limiter.tableFor (limiter.clientKey client) now st, e.key = key →
        1 ≤ e.tokens + (now - e.updated) * limiter.rate := by
  rw [granted_iff (nodup_consume h)]
  apply forall_congr'
  intro e
  constructor
  · intro hone he hekey
    exact hone ((mem_tableFor quiet_consume hekey).mpr ((mem_consume (hekey ▸ hkey)).mpr he)) hekey
  · intro hone he hekey
    exact hone ((mem_consume (hekey ▸ hkey)).mp ((mem_tableFor quiet_consume hekey).mp he)) hekey

def requestKeys (limiter : RateLimiter) (client : String) (conversation : Option String) : List String :=
  limiter.clientKey client :: (limiter.conversationKey? conversation).toList

theorem ne_clientKey_of_mem (h : key ∈ limiter.conversationKey? conversation) : key ≠ limiter.clientKey client := by
  obtain ⟨id, -, rfl⟩ := Option.map_eq_some_iff.mp h
  exact (clientKey_ne_conversationKey client id).symm

/-- Both buckets of a request, in the table that the client finds. -/
theorem allowed_iff_buckets (h : (st.table.map (·.key)).Nodup) :
    (limiter.admitRequest client conversation now st).1.allowed = true ↔
      ∀ e ∈ limiter.tableFor (limiter.clientKey client) now st, e.key ∈ limiter.requestKeys client conversation →
        1 ≤ e.tokens + (now - e.updated) * limiter.rate := by
  rw [allowed_iff, granted_iff h]
  constructor
  · intro ⟨hclient, hconversation⟩ e he hkey
    rcases mem_cons.mp hkey with hkey | hkey
    · exact hclient e he hkey
    · have hkey := Option.mem_toList.mp hkey
      exact (granted_conversation_iff h (ne_clientKey_of_mem hkey)).mp (hconversation _ hkey) e he rfl
  · intro hall
    refine ⟨fun e he hkey => hall e he (hkey ▸ mem_cons_self), fun key hkey => ?_⟩
    refine (granted_conversation_iff h (ne_clientKey_of_mem hkey)).mpr fun e he hekey => hall e he ?_
    exact mem_cons_of_mem _ (Option.mem_toList.mpr (hekey ▸ hkey))

/-- A rejection: the bucket that rejected is left with too little, and the seconds were computed from it. The other key of the request is that of the other bucket. -/
theorem exists_rejecting (h : (limiter.admitRequest client conversation now st).1.allowed = false) :
    ∃ key tokens, ⟨⟨tokens, now⟩, key⟩ ∈ (limiter.admitRequest client conversation now st).2.table ∧
      (limiter.admitRequest client conversation now st).1.retryAfter
        = limiter.secondsUntilToken key (limiter.admitRequest client conversation now st).2 ∧
      ∀ k, k ∈ limiter.requestKeys client conversation ↔
        k = key ∨ k ∈ limiter.otherKey client conversation (limiter.admitRequest client conversation now st).1.scope := by
  rw [admitRequest] at h ⊢
  simp only at h ⊢
  split at h
  · rename_i hgranted
    rw [if_pos hgranted]
    split at h
    · cases h
    · rename_i id hconversation
      split at h
      · cases h
      · rename_i hrejected
        rw [if_neg hrejected]
        refine ⟨limiter.conversationKey id, _, mem_consume_of_rejected (Bool.eq_false_of_not_eq_true hrejected), rfl, ?_⟩
        intro k
        simp only [requestKeys, conversationKey?, hconversation, otherKey, Option.map_some, Option.toList_some,
          mem_cons, not_mem_nil, or_false, Option.mem_some_iff]
        rw [or_comm, eq_comm (a := k) (b := limiter.clientKey client)]
  · rename_i hrejected
    rw [if_neg hrejected]
    refine ⟨limiter.clientKey client, _, mem_consume_of_rejected (Bool.eq_false_of_not_eq_true hrejected), rfl, ?_⟩
    intro k
    rw [requestKeys, otherKey, mem_cons, Option.mem_toList, Option.mem_def]

/-! ### The retry -/

theorem Bounded.afterCalls_of_clock {start : ℚ} (h : limiter.Bounded start st)
    (hclock : (start :: calls.map (·.now) ++ [now]).IsChain (· ≤ ·)) :
    limiter.Bounded now (limiter.afterCalls st calls) := by
  rw [isChain_append] at hclock
  obtain ⟨hcalls, -, hlast⟩ := hclock
  refine (h.afterCalls hcalls).mono (hlast _ ?_ now rfl)
  rw [getLast?_cons, getLastD_eq_getLast?]
  rfl

section Retry

variable {others : List AdmissionCall} {later : ℚ}

variable {keys : List String}

/-- The bucket that rejected has its token when the wait is over, if it is still there. -/
theorem one_le_of_rejecting {tokens : ℚ} (hst : limiter.Bounded now st) (hmem : ⟨⟨tokens, now⟩, key⟩ ∈ st.table)
    (hkey : key ∈ keys) (halone : limiter.LeaveAlone keys st others)
    (hlater : now + limiter.secondsUntilToken key st ≤ later) {e : LiveBucket}
    (he : e ∈ (limiter.afterCalls st others).table) (hekey : e.key = key) :
    1 ≤ e.tokens + (later - e.updated) * limiter.rate := by
  have hthen := mem_of_mem_afterCalls halone he (hekey ▸ hkey)
  rw [inj_on_of_nodup_map hst.nodup hthen hmem hekey]
  exact one_le_of_wait hst.nodup hmem hlater

/-- A rejected request that waits: what the retry still needs is the other bucket. -/
theorem retry_iff (hst : limiter.Bounded now st)
    (hrejected : (limiter.admitRequest client conversation now st).1.allowed = false)
    (halone : limiter.LeaveAlone (limiter.requestKeys client conversation)
      (limiter.admitRequest client conversation now st).2 others)
    (hclock : (now :: others.map (·.now) ++ [later]).IsChain (· ≤ ·))
    (hlater : now + (limiter.admitRequest client conversation now st).1.retryAfter ≤ later) :
    (limiter.admitRequest client conversation later
        (limiter.afterCalls (limiter.admitRequest client conversation now st).2 others)).1.allowed = true ↔
      ∀ key ∈ limiter.otherKey client conversation (limiter.admitRequest client conversation now st).1.scope,
        ∀ e ∈ limiter.tableFor (limiter.clientKey client) later
            (limiter.afterCalls (limiter.admitRequest client conversation now st).2 others),
          e.key = key → 1 ≤ e.tokens + (later - e.updated) * limiter.rate := by
  have hattempt := hst.admitRequest client conversation
  obtain ⟨key, tokens, hmem, hwait, hkeys⟩ := exists_rejecting hrejected
  rw [hwait] at hlater
  rw [allowed_iff_buckets (hattempt.afterCalls_of_clock hclock).nodup]
  constructor
  · intro hall other hother e he hekey
    exact hall e he ((hkeys e.key).mpr (.inr (hekey ▸ hother)))
  · intro hall e he hekey
    rcases (hkeys e.key).mp hekey with hekey | hother
    · exact one_le_of_rejecting hattempt hmem ((hkeys key).mpr (.inl rfl)) halone hlater
        (sweep_subset (tableFor_subset he)) hekey
    · exact hall e.key hother e he rfl

/-- Whatever wait is told, it fills a bucket at sixty requests a minute. -/
theorem one_le_of_sixty (hrpm : 60 ≤ limiter.requestsPerMinute) (hst : limiter.Bounded now st)
    (halone : limiter.LeaveAlone keys st others) (hlater : now + 1 ≤ later) {e : LiveBucket}
    (he : e ∈ (limiter.afterCalls st others).table) (hekey : e.key ∈ keys) :
    1 ≤ e.tokens + (later - e.updated) * limiter.rate := by
  have hthen := mem_of_mem_afterCalls halone he hekey
  have hrate : 1 ≤ limiter.rate := by
    rw [rate, le_div_iff₀ (by norm_num), one_mul]
    exact_mod_cast hrpm
  have hpast := hst.past e hthen
  have htokens := (hst.tokens e hthen).1
  have hfill : (1 : ℚ) * 1 ≤ (later - e.updated) * limiter.rate :=
    mul_le_mul (by linarith) hrate zero_le_one (by linarith)
  linarith

end Retry

/-- A request is rejected in a state that calls on a clock led to, and told to wait; meanwhile no call uses its two buckets. The retry after the wait is admitted exactly if the bucket that did not reject has a token by then, unless it was dropped from the table. -/
theorem retry_admitted_iff (limiter : RateLimiter) (start now later : ℚ) (history others : List AdmissionCall)
    (client : String) (conversation : Option String) (hbefore : (start :: history.map (·.now) ++ [now]).IsChain (· ≤ ·))
    (hafter : (now :: others.map (·.now) ++ [later]).IsChain (· ≤ ·)) : let st := limiter.afterCalls ⟨[], start⟩ history
    let attempt := limiter.admitRequest client conversation now st
    let waited := limiter.afterCalls attempt.2 others
    attempt.1.allowed = false → limiter.LeaveAlone (limiter.requestKeys client conversation) attempt.2 others →
      now + attempt.1.retryAfter ≤ later →
        ((limiter.admitRequest client conversation later waited).1.allowed = true ↔
          ∀ key ∈ limiter.otherKey client conversation attempt.1.scope,
            ∀ e ∈ limiter.tableFor (limiter.clientKey client) later waited,
              e.key = key → 1 ≤ e.tokens + (later - e.updated) * limiter.rate) := by
  intro st attempt waited hrejected halone hlater
  exact retry_iff ((limiter.bounded_nil start start).afterCalls_of_clock hbefore) hrejected halone hafter hlater

/-- At sixty requests a minute or more the wait can be relied on. -/
theorem retry_admitted_of_sixty (hrpm : 60 ≤ limiter.requestsPerMinute) {start later : ℚ} {history others : List AdmissionCall}
    (hbefore : (start :: history.map (·.now) ++ [now]).IsChain (· ≤ ·))
    (hafter : (now :: others.map (·.now) ++ [later]).IsChain (· ≤ ·)) : let st := limiter.afterCalls ⟨[], start⟩ history
    let attempt := limiter.admitRequest client conversation now st
    attempt.1.allowed = false → limiter.LeaveAlone (limiter.requestKeys client conversation) attempt.2 others →
      now + attempt.1.retryAfter ≤ later →
        (limiter.admitRequest client conversation later (limiter.afterCalls attempt.2 others)).1.allowed = true := by
  intro st attempt hrejected halone hlater
  have hst := (limiter.bounded_nil start start).afterCalls_of_clock hbefore
  obtain ⟨key, -, -, hwait, hkeys⟩ := exists_rejecting hrejected
  have hone : now + 1 ≤ later := by
    have hwait : 1 ≤ attempt.1.retryAfter := hwait ▸ one_le_secondsUntilToken limiter key _
    have : (1 : ℚ) ≤ attempt.1.retryAfter := by exact_mod_cast hwait
    linarith
  rw [retry_iff hst hrejected halone hafter hlater]
  intro other hother e he hekey
  exact one_le_of_sixty hrpm (hst.admitRequest client conversation) halone hone (sweep_subset (tableFor_subset he))
    ((hkeys e.key).mpr (.inr (hekey ▸ hother)))

end RateLimiter

/-- At a token every second, a client whose conversation rejects it is admitted when it comes back. -/
theorem retry_admitted_everySecond :
    let limiter : RateLimiter := { requestsPerMinute := 60, burst := 1, accepted := by decide }
    let attempt := limiter.admitRequest "c" (some "v") (1 / 2) (limiter.afterCalls ⟨[], 0⟩ [⟨0, "d", some "v"⟩])
    attempt.1.allowed = false ∧
      (limiter.admitRequest "c" (some "v") (3 / 2) (limiter.afterCalls attempt.2 [⟨1, "e", none⟩])).1.allowed = true := by
  intro limiter attempt
  have hrejected : attempt.1.allowed = false := by decide +kernel
  refine ⟨hrejected, RateLimiter.retry_admitted_of_sixty ?_ ?_ ?_ hrejected ⟨?_, trivial⟩ ?_⟩ <;> decide +kernel

def twoSeconds : RateLimiter where
  requestsPerMinute := 30
  burst := 1
  accepted := by decide

/-- Another client has used the conversation `v`, which rejects `c` and asks for one more second. The attempt has taken the token of `c`, who is half a token short after that second. -/
theorem retry_rejected_twoSeconds :
    let st := twoSeconds.afterCalls ⟨[], 0⟩ [⟨0, "d", some "v"⟩]
    let attempt := twoSeconds.admitRequest "c" (some "v") (3 / 2) st
    ((0 : ℚ) ≤ 3 / 2 ∧ attempt.1 = { allowed := false, scope := some .conversation, retryAfter := 1 }) ∧
      (twoSeconds.admitRequest "c" (some "v") (5 / 2) attempt.2).1 =
        { allowed := false, scope := some .client, retryAfter := 2 } := by
  decide +kernel

/-- Two more seconds fill both buckets. -/
theorem retry_admitted_twoSeconds :
    let st := twoSeconds.afterCalls ⟨[], 0⟩ [⟨0, "d", some "v"⟩]
    let attempt := twoSeconds.admitRequest "c" (some "v") (3 / 2) st
    attempt.1.allowed = false ∧ 3 / 2 + (attempt.1.retryAfter : ℚ) ≤ 7 / 2 ∧
      (twoSeconds.admitRequest "c" (some "v") (7 / 2) (twoSeconds.afterCalls attempt.2 [⟨2, "e", none⟩])).1.allowed = true := by
  have hbefore : ([0, 0, 3 / 2] : List ℚ).IsChain (· ≤ ·) := by decide +kernel
  have hafter : ([3 / 2, 2, 7 / 2] : List ℚ).IsChain (· ≤ ·) := by decide +kernel
  intro st attempt
  have hrejected : attempt.1.allowed = false := by decide +kernel
  have hlater : 3 / 2 + (attempt.1.retryAfter : ℚ) ≤ 7 / 2 := by decide +kernel
  have halone : twoSeconds.LeaveAlone (twoSeconds.requestKeys "c" (some "v")) attempt.2 [⟨2, "e", none⟩] :=
    ⟨by decide +kernel, trivial⟩
  refine ⟨hrejected, hlater, ?_⟩
  exact (RateLimiter.retry_admitted_iff twoSeconds 0 (3 / 2) (7 / 2) [⟨0, "d", some "v"⟩] [⟨2, "e", none⟩] "c" (some "v")
    hbefore hafter hrejected halone hlater).mpr (by decide +kernel)

end ContextProxy
