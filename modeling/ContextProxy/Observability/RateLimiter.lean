import ContextProxy.Lib.TokenBucket
import Mathlib.Algebra.Order.Ring.Rat
import Mathlib.Data.Finset.Card
import Mathlib.Data.List.MinMax
import Mathlib.Data.Rat.Floor

/-!
# The rate limiter

A request takes a token from the bucket of its client and, if it names a conversation, one from that of the conversation. All buckets live in one table. One that has not been used for the time to live is dropped, and when the table is full the one used least recently makes room.

A client that comes with one key is held to the burst and the inflow of its bucket, as long as the table does not forget that bucket while it is not full (`quota_iff`). If the burst is at least the number of identities, the conversations of a single moment can crowd the client out; and if the time to live is too short to fill a bucket, waiting for it gives a full one. Times and rates are exact rationals.
-/

namespace ContextProxy

open List

structure RateLimiterArgs where
  requestsPerMinute : ℤ
  burst : ℤ
  maxIdentities : ℤ := 10000
  identityTtlSeconds : ℚ := 3600
  maxIdentityChars : ℤ := 256

/-- What the constructor checks, with the texts of its `ValueError`s. -/
def RateLimiterArgs.check (args : RateLimiterArgs) : Except String Unit :=
  if args.requestsPerMinute ≤ 0 ∨ args.burst ≤ 0 then .error "requests_per_minute and burst must be positive"
  else if args.maxIdentities < 1 then .error "max_identities must be >= 1"
  else if args.identityTtlSeconds ≤ 0 then .error "identity_ttl_seconds must be positive"
  else if args.maxIdentityChars < 1 then .error "max_identity_chars must be >= 1"
  else .ok ()

/-- A configuration the constructor accepts. -/
structure RateLimiter extends RateLimiterArgs where
  accepted : toRateLimiterArgs.check = .ok ()

/-- An entry of the table: `_tokens` and `_updated` always have the same keys, in the same order. -/
structure LiveBucket extends Bucket ℚ where
  key : String

structure LimiterState where
  table : List LiveBucket
  lastSweep : ℚ

inductive RateScope where
  | client
  | conversation
  deriving DecidableEq, Repr

/-- Outcome of a two-dimension admission check; the scope is the bucket that rejected. -/
structure AdmissionDecision where
  allowed : Bool
  scope : Option RateScope := none
  retryAfter : ℤ := 1
  deriving DecidableEq, Repr

/-- Assignment in a dictionary: a key that is there keeps its place. -/
def putBucket (table : List LiveBucket) (bucket : LiveBucket) : List LiveBucket :=
  if table.any (·.key = bucket.key) then table.map fun old => if old.key = bucket.key then bucket else old
  else table ++ [bucket]

/-- `del` of the bucket that `min(self._updated, key=self._updated.get)` names: the first of those used least recently. -/
def evictColdest (table : List LiveBucket) : List LiveBucket :=
  match table.argmin (·.updated) with
  | none => table
  | some coldest => table.eraseP (·.key = coldest.key)

namespace RateLimiter

variable (limiter : RateLimiter)

def rate : ℚ := limiter.requestsPerMinute / 60

def sweepInterval : ℚ := limiter.identityTtlSeconds / 2

def normalize (key : String) : String := String.ofList (key.toList.take limiter.maxIdentityChars.toNat)

def clientKey (client : String) : String := "c\x00" ++ limiter.normalize client

def conversationKey (conversation : String) : String := "v\x00" ++ limiter.normalize conversation

def expireStale (now : ℚ) (table : List LiveBucket) : List LiveBucket :=
  table.filter fun bucket => ¬limiter.identityTtlSeconds < now - bucket.updated

/-- The loop of `_make_room`, which removes one bucket each time. -/
def makeRoomLoop : ℕ → List LiveBucket → List LiveBucket
  | 0, table => table
  | fuel + 1, table =>
    if limiter.maxIdentities ≤ table.length then makeRoomLoop fuel (evictColdest table) else table

def makeRoom (table : List LiveBucket) : List LiveBucket := limiter.makeRoomLoop table.length table

/-- The sweep at the start of `_consume`, at most once in half a time to live. -/
def sweep (now : ℚ) (st : LimiterState) : LimiterState :=
  if limiter.sweepInterval ≤ now - st.lastSweep then ⟨limiter.expireStale now st.table, now⟩ else st

def consume (key : String) (now : ℚ) (st : LimiterState) : Bool × LimiterState :=
  let swept := limiter.sweep now st
  let table := if swept.table.any (·.key = key) then swept.table else limiter.makeRoom swept.table
  let tokens := match table.find? (·.key = key) with
    | some bucket => min (limiter.burst : ℚ) (bucket.tokens + (now - bucket.updated) * limiter.rate)
    | none => limiter.burst
  if 1 ≤ tokens then (true, { swept with table := putBucket table ⟨⟨tokens - 1, now⟩, key⟩ })
  else (false, { swept with table := putBucket table ⟨⟨tokens, now⟩, key⟩ })

def secondsUntilToken (key : String) (st : LimiterState) : ℤ :=
  let tokens := match st.table.find? (·.key = key) with
    | some bucket => bucket.tokens
    | none => limiter.burst
  let deficit := 1 - tokens
  if deficit ≤ 0 then 1 else max 1 (⌊deficit / limiter.rate⌋ + 1)

/-- `admit`; an empty conversation key counts as none. -/
def admitRequest (client : String) (conversation : Option String) (now : ℚ) (st : LimiterState) :
    AdmissionDecision × LimiterState :=
  let clientKey := limiter.clientKey client
  let (granted, st) := limiter.consume clientKey now st
  if granted then
    match conversation.filter (· ≠ "") with
    | none => ({ allowed := true }, st)
    | some conversation =>
      let conversationKey := limiter.conversationKey conversation
      let (granted, st) := limiter.consume conversationKey now st
      if granted then ({ allowed := true }, st)
      else
        ({ allowed := false, scope := some .conversation, retryAfter := limiter.secondsUntilToken conversationKey st }, st)
  else ({ allowed := false, scope := some .client, retryAfter := limiter.secondsUntilToken clientKey st }, st)

/-- Requests of one client: the time of each and the conversation it names, answered one after the other. -/
def run (client : String) : LimiterState → List (ℚ × Option String) → List (ℚ × AdmissionDecision)
  | _, [] => []
  | st, (now, conversation) :: requests =>
    let (decision, st) := limiter.admitRequest client conversation now st
    (now, decision) :: run client st requests

def stateAfter (client : String) (st : LimiterState) (requests : List (ℚ × Option String)) : LimiterState :=
  requests.foldl (fun st request => (limiter.admitRequest client request.2 request.1 st).2) st

/-- What the constructor sets up, at the time it reads from the clock. -/
def init (start : ℚ) : LimiterState := ⟨[], start⟩

def admittedWithin (first last : ℚ) (decisions : List (ℚ × AdmissionDecision)) : ℕ :=
  grantedWithin first last (decisions.map fun d => (d.1, d.2.allowed))

/-- For a non-decreasing clock and any requests of one client, the requests admitted in an interval are at most the burst and the inflow. -/
def HoldsQuota : Prop :=
  ∀ (start : ℚ) (client : String) (requests : List (ℚ × Option String)), (start :: requests.map (·.1)).IsChain (· ≤ ·) →
    ∀ first last, first ≤ last → (admittedWithin first last (limiter.run client (init start) requests) : ℚ)
      ≤ limiter.burst + (last - first) * (limiter.requestsPerMinute / 60)

/-- The burst reaches for as many conversations as there are places in the table, and there are as many conversation keys. -/
def CrowdsOut : Prop :=
  limiter.maxIdentities ≤ limiter.burst ∧ ∃ keys : Finset String, (keys.card : ℤ) = limiter.maxIdentities ∧
    ∀ key ∈ keys, ∃ id, id ≠ "" ∧ limiter.conversationKey id = key

end RateLimiter

/-! ### The table -/

section Table

variable {table : List LiveBucket} {bucket e : LiveBucket} {now : ℚ}

theorem mem_putBucket : e ∈ putBucket table bucket ↔ e = bucket ∨ e ∈ table ∧ e.key ≠ bucket.key := by
  rw [putBucket]
  split
  · rename_i hany
    obtain ⟨old, hold, hkey⟩ := any_eq_true.mp hany
    rw [mem_map]
    constructor
    · rintro ⟨x, hx, rfl⟩
      by_cases hxkey : x.key = bucket.key
      · exact .inl (if_pos hxkey)
      · rw [if_neg hxkey]
        exact .inr ⟨hx, hxkey⟩
    · rintro (rfl | ⟨he, hkey'⟩)
      · exact ⟨old, hold, if_pos (of_decide_eq_true hkey)⟩
      · exact ⟨e, he, if_neg hkey'⟩
  · rename_i hany
    have hnew : ∀ x ∈ table, x.key ≠ bucket.key := by simpa using hany
    rw [mem_append, mem_singleton]
    constructor
    · rintro (he | rfl)
      · exact .inr ⟨he, hnew e he⟩
      · exact .inl rfl
    · rintro (rfl | ⟨he, -⟩)
      · exact .inr rfl
      · exact .inl he

theorem keys_putBucket : (putBucket table bucket).map (·.key) =
    if table.any (·.key = bucket.key) then table.map (·.key) else table.map (·.key) ++ [bucket.key] := by
  rw [putBucket]
  split
  · rw [map_map]
    apply map_congr_left
    intro x _
    simp only [Function.comp_apply]
    split
    · rename_i hkey
      exact hkey.symm
    · rfl
  · rw [map_append, map_singleton]

theorem nodup_putBucket (h : (table.map (·.key)).Nodup) : ((putBucket table bucket).map (·.key)).Nodup := by
  rw [keys_putBucket]
  split
  · exact h
  · rename_i hany
    rw [nodup_append']
    refine ⟨h, nodup_singleton _, ?_⟩
    intro key hkey hnew
    obtain ⟨x, hx, rfl⟩ := mem_map.mp hkey
    exact hany (any_eq_true.mpr ⟨x, hx, decide_eq_true (mem_singleton.mp hnew)⟩)

theorem putBucket_of_absent (h : ∀ e ∈ table, e.key ≠ bucket.key) : putBucket table bucket = table ++ [bucket] := by
  rw [putBucket, if_neg (by simpa using h)]

theorem length_putBucket_le : (putBucket table bucket).length ≤ table.length + 1 := by
  rw [putBucket]
  split
  · rw [length_map]
    exact Nat.le_succ _
  · rw [length_append, length_singleton]

theorem length_putBucket_of_any (h : table.any (·.key = bucket.key)) : (putBucket table bucket).length = table.length := by
  rw [putBucket, if_pos h, length_map]

theorem find?_of_mem (h : (table.map (·.key)).Nodup) (he : e ∈ table) : table.find? (·.key = e.key) = some e := by
  obtain ⟨x, hx⟩ : ∃ x, table.find? (·.key = e.key) = some x := by
    rw [← Option.isSome_iff_exists, find?_isSome]
    exact ⟨e, he, by simp⟩
  have hkey : x.key = e.key := by simpa using find?_some hx
  rw [hx, inj_on_of_nodup_map h (mem_of_find?_eq_some hx) he hkey]

/-- The buckets used at a given time, the one of the client apart. -/
def recentKeys (now : ℚ) (client : String) (table : List LiveBucket) : Finset String :=
  ((table.filter fun e => e.updated = now ∧ e.key ≠ client).map (·.key)).toFinset

theorem mem_recentKeys {client key : String} :
    key ∈ recentKeys now client table ↔ ∃ e ∈ table, e.updated = now ∧ e.key ≠ client ∧ e.key = key := by
  simp [recentKeys, and_assoc]

theorem evictColdest_subset (h : e ∈ evictColdest table) : e ∈ table := by
  rw [evictColdest] at h
  split at h
  · exact h
  · exact mem_of_mem_eraseP h

theorem nodup_evictColdest (h : (table.map (·.key)).Nodup) : ((evictColdest table).map (·.key)).Nodup := by
  rw [evictColdest]
  split
  · exact h
  · exact h.sublist (eraseP_sublist.map _)

theorem length_evictColdest (h : table ≠ []) : (evictColdest table).length + 1 = table.length := by
  rw [evictColdest]
  split
  · rename_i hnone
    exact absurd (argmin_eq_none.mp hnone) h
  · rename_i coldest hcoldest
    have hmem := argmin_mem hcoldest
    rw [length_eraseP_of_mem hmem (by simp)]
    have := length_pos_of_mem hmem
    omega

theorem mem_evictColdest (h : (table.map (·.key)).Nodup) (he : e ∈ table) {older : LiveBucket} (holder : older ∈ table)
    (hlt : older.updated < e.updated) : e ∈ evictColdest table := by
  rw [evictColdest]
  split
  · exact he
  · rename_i coldest hcoldest
    have hle := le_of_mem_argmin holder hcoldest
    refine (mem_eraseP_of_neg ?_).mpr he
    intro hkey
    rw [inj_on_of_nodup_map h he (argmin_mem hcoldest) (of_decide_eq_true hkey)] at hlt
    exact absurd hlt (not_lt_of_ge hle)

end Table

namespace RateLimiter

variable {limiter : RateLimiter} {table : List LiveBucket} {e : LiveBucket} {st : LimiterState} {b : Bucket ℚ}
  {now : ℚ} {client key : String}

theorem positive (limiter : RateLimiter) : 0 < limiter.requestsPerMinute ∧ 0 < limiter.burst ∧
    1 ≤ limiter.maxIdentities ∧ 0 < limiter.identityTtlSeconds ∧ 1 ≤ limiter.maxIdentityChars := by
  have haccepted := limiter.accepted
  rw [RateLimiterArgs.check] at haccepted
  split_ifs at haccepted with hrate hidentities httl hchars
  refine ⟨?_, ?_, ?_, lt_of_not_ge httl, ?_⟩ <;> omega

theorem rate_pos (limiter : RateLimiter) : 0 < limiter.rate := by
  have hrate : (0 : ℚ) < limiter.requestsPerMinute := Int.cast_pos.mpr limiter.positive.1
  exact div_pos hrate (by norm_num)

theorem sweepInterval_pos (limiter : RateLimiter) : 0 < limiter.sweepInterval :=
  div_pos limiter.positive.2.2.2.1 (by norm_num)

theorem makeRoomLoop_of_lt (h : (table.length : ℤ) < limiter.maxIdentities) (fuel : ℕ) :
    limiter.makeRoomLoop fuel table = table := by
  cases fuel with
  | zero => rfl
  | succ fuel => rw [makeRoomLoop, if_neg (by omega)]

theorem makeRoom_of_lt (h : (table.length : ℤ) < limiter.maxIdentities) : limiter.makeRoom table = table :=
  makeRoomLoop_of_lt h _

theorem makeRoom_of_eq (h : (table.length : ℤ) = limiter.maxIdentities) : limiter.makeRoom table = evictColdest table := by
  have hidentities := limiter.positive.2.2.1
  have hne : table ≠ [] := by
    rintro rfl
    simp only [length_nil, Nat.cast_zero] at h
    omega
  have hlength := length_evictColdest hne
  rw [makeRoom, ← hlength, makeRoomLoop, if_pos (by omega)]
  exact makeRoomLoop_of_lt (by omega) _

theorem clientKey_ne_conversationKey (client conversation : String) :
    limiter.clientKey client ≠ limiter.conversationKey conversation := by
  intro h
  have hlists := congrArg String.toList h
  rw [clientKey, conversationKey, String.toList_append, String.toList_append] at hlists
  exact absurd (List.cons.inj hlists).1 (by decide)

theorem makeRoomLoop_subset {fuel : ℕ} (h : e ∈ limiter.makeRoomLoop fuel table) : e ∈ table := by
  induction fuel generalizing table with
  | zero => exact h
  | succ fuel ih =>
    rw [makeRoomLoop] at h
    split at h
    · exact evictColdest_subset (ih h)
    · exact h

theorem makeRoom_subset (h : e ∈ limiter.makeRoom table) : e ∈ table := makeRoomLoop_subset h

theorem nodup_makeRoom (h : (table.map (·.key)).Nodup) : ((limiter.makeRoom table).map (·.key)).Nodup := by
  have hloop : ∀ fuel (table : List LiveBucket), (table.map (·.key)).Nodup →
      ((limiter.makeRoomLoop fuel table).map (·.key)).Nodup := by
    intro fuel
    induction fuel with
    | zero => exact fun _ h => h
    | succ fuel ih =>
      intro table h
      rw [makeRoomLoop]
      split
      · exact ih _ (nodup_evictColdest h)
      · exact h
  exact hloop _ _ h

/-! ### One bucket -/

def flow (limiter : RateLimiter) : Inflow ℚ := ⟨limiter.rate, limiter.burst⟩

theorem consume_of_mem (hnodup : ((limiter.sweep now st).table.map (·.key)).Nodup)
    (hb : ⟨b, key⟩ ∈ (limiter.sweep now st).table) :
    limiter.consume key now st = ((Inflow.request (limiter.flow.level b now) now).1,
      ⟨putBucket (limiter.sweep now st).table ⟨(Inflow.request (limiter.flow.level b now) now).2, key⟩,
        (limiter.sweep now st).lastSweep⟩) := by
  have hany : (limiter.sweep now st).table.any (·.key = key) = true := any_eq_true.mpr ⟨_, hb, by simp⟩
  have hfind : (limiter.sweep now st).table.find? (·.key = key) = some ⟨b, key⟩ := find?_of_mem hnodup hb
  simp only [consume, hany, if_true, hfind]
  rw [Inflow.request, Inflow.level, flow]
  split <;> rfl

theorem consume_of_absent (h : ∀ e ∈ (limiter.sweep now st).table, e.key ≠ key) :
    limiter.consume key now st = ((Inflow.request (limiter.burst : ℚ) now).1,
      ⟨putBucket (limiter.makeRoom (limiter.sweep now st).table) ⟨(Inflow.request (limiter.burst : ℚ) now).2, key⟩,
        (limiter.sweep now st).lastSweep⟩) := by
  have hany : (limiter.sweep now st).table.any (·.key = key) = false := by simpa using h
  have hfind : (limiter.makeRoom (limiter.sweep now st).table).find? (·.key = key) = none := by
    rw [find?_eq_none]
    intro e he
    simpa using h e (makeRoom_subset he)
  simp only [consume, hany, Bool.false_eq_true, if_false, hfind]
  rw [Inflow.request]
  split <;> rfl

theorem request_burst (limiter : RateLimiter) (now : ℚ) :
    Inflow.request (limiter.burst : ℚ) now = (true, ⟨limiter.burst - 1, now⟩) := by
  have hburst : (1 : ℚ) ≤ limiter.burst := Int.cast_one_le_of_pos limiter.positive.2.1
  rw [Inflow.request, if_pos hburst]

theorem sweep_subset (h : e ∈ (limiter.sweep now st).table) : e ∈ st.table := by
  rw [sweep] at h
  split at h
  · exact mem_of_mem_filter h
  · exact h

theorem sweep_nil (h : st.table = []) : (limiter.sweep now st).table = [] := by
  rw [eq_nil_iff_forall_not_mem]
  intro e he
  have hmem := sweep_subset he
  rw [h] at hmem
  cases hmem

theorem nodup_sweep (h : (st.table.map (·.key)).Nodup) : ((limiter.sweep now st).table.map (·.key)).Nodup := by
  rw [sweep]
  split
  · exact h.sublist (filter_sublist.map _)
  · exact h

theorem length_sweep_le : (limiter.sweep now st).table.length ≤ st.table.length := by
  rw [sweep]
  split
  · exact length_filter_le _ _
  · exact Nat.le_refl _

theorem sweep_of_quiet (h : now - st.lastSweep < limiter.sweepInterval) : limiter.sweep now st = st := by
  rw [sweep, if_neg (not_le_of_gt h)]

theorem quiet_sweep : now - (limiter.sweep now st).lastSweep < limiter.sweepInterval := by
  rw [sweep]
  split
  · rw [sub_self]
    exact limiter.sweepInterval_pos
  · rename_i hquiet
    exact lt_of_not_ge hquiet

/-- A sweep keeps a bucket, or all buckets not used later go with it. -/
theorem mem_sweep_or_nil (he : e ∈ st.table) (hpast : ∀ x ∈ st.table, x.updated ≤ e.updated) :
    e ∈ (limiter.sweep now st).table ∨
      (limiter.sweep now st).table = [] ∧ limiter.identityTtlSeconds < now - e.updated := by
  rw [sweep]
  split
  · by_cases hstale : limiter.identityTtlSeconds < now - e.updated
    · refine .inr ⟨filter_eq_nil_iff.mpr fun x hx => ?_, hstale⟩
      have hx := hpast x hx
      have hlonger : limiter.identityTtlSeconds < now - x.updated := by linarith
      exact fun hkept => of_decide_eq_true hkept hlonger
    · exact .inl (mem_filter.mpr ⟨he, by simpa using hstale⟩)
  · exact .inl he

/-! ### The bucket of the client -/

/-- The table follows a token bucket for the client. The bucket is there with the same level, or nothing is there and the level is full; and the requests of the last moment, each of which took a token, leave a part of the burst. -/
structure Tracks (limiter : RateLimiter) (client : String) (st : LimiterState) (b : Bucket ℚ) (spare : ℚ) : Prop where
  nodup : (st.table.map (·.key)).Nodup
  length : (st.table.length : ℤ) ≤ limiter.maxIdentities
  keys : ∀ e ∈ st.table, e.key = limiter.clientKey client ∨ ∃ id, id ≠ "" ∧ e.key = limiter.conversationKey id
  past : ∀ e ∈ st.table, e.updated ≤ b.updated
  nonneg : 0 ≤ b.tokens
  bucket : ⟨b, limiter.clientKey client⟩ ∈ st.table
  recent : b.tokens + (recentKeys b.updated (limiter.clientKey client) st.table).card + spare ≤ limiter.burst

/-- The table follows the bucket; at the start it is empty, and the bucket full. -/
def Mirrors (limiter : RateLimiter) (client : String) (st : LimiterState) (b : Bucket ℚ) : Prop :=
  st.table = [] ∧ b.tokens = limiter.burst ∨ limiter.Tracks client st b 0

theorem flow_nonneg (limiter : RateLimiter) : 0 ≤ limiter.flow.capacity ∧ 0 ≤ limiter.flow.rate :=
  ⟨Int.cast_nonneg limiter.positive.2.1.le, limiter.rate_pos.le⟩

/-- What a bucket gets by being forgotten, it would have got by the inflow. -/
theorem level_of_stale (httl : (limiter.burst : ℚ) ≤ limiter.identityTtlSeconds * limiter.rate) (hb : 0 ≤ b.tokens)
    (hstale : limiter.identityTtlSeconds < now - b.updated) : limiter.flow.level b now = limiter.burst := by
  apply min_eq_left
  have hinflow : limiter.identityTtlSeconds * limiter.rate ≤ (now - b.updated) * limiter.rate :=
    mul_le_mul_of_nonneg_right hstale.le limiter.rate_pos.le
  change (limiter.burst : ℚ) ≤ b.tokens + (now - b.updated) * limiter.rate
  linarith

theorem consume_client_of_nil (hnil : (limiter.sweep now st).table = []) (hlevel : limiter.flow.level b now = limiter.burst) :
    ∃ st', limiter.consume (limiter.clientKey client) now st
        = ((Inflow.request (limiter.flow.level b now) now).1, st') ∧
      now - st'.lastSweep < limiter.sweepInterval ∧
      limiter.Tracks client st' (Inflow.request (limiter.flow.level b now) now).2
        (if (Inflow.request (limiter.flow.level b now) now).1 then 1 else 0) := by
  have hidentities := limiter.positive.2.2.1
  have hburst : (1 : ℚ) ≤ limiter.burst := Int.cast_one_le_of_pos limiter.positive.2.1
  have hroom : limiter.makeRoom [] = [] := makeRoom_of_lt (by simp only [length_nil, Nat.cast_zero]; omega)
  rw [hlevel, consume_of_absent (by rw [hnil]; simp), hnil, hroom, request_burst]
  refine ⟨_, rfl, quiet_sweep, ?_⟩
  have hrecent : recentKeys now (limiter.clientKey client) [⟨⟨limiter.burst - 1, now⟩, limiter.clientKey client⟩] = ∅ := by
    simp [recentKeys]
  refine ⟨nodup_singleton _, hidentities, ?_, ?_, sub_nonneg.mpr hburst, mem_singleton_self _, ?_⟩
  · intro e he
    exact .inl (congrArg LiveBucket.key (mem_singleton.mp he))
  · intro e he
    rw [mem_singleton.mp he]
  · change (limiter.burst - 1 : ℚ) + (recentKeys now (limiter.clientKey client)
      [⟨⟨limiter.burst - 1, now⟩, limiter.clientKey client⟩]).card + 1 ≤ limiter.burst
    rw [hrecent, Finset.card_empty, Nat.cast_zero]
    linarith

theorem recentKeys_putBucket_subset {table table' : List LiveBucket} (hsub : table' ⊆ table) (b : Bucket ℚ) (key : String) :
    recentKeys now key (putBucket table' ⟨b, key⟩) ⊆ recentKeys now key table := by
  intro other hother
  obtain ⟨e, he, hupdated, hne, hkey⟩ := mem_recentKeys.mp hother
  rcases mem_putBucket.mp he with rfl | ⟨he, -⟩
  · exact absurd rfl hne
  · exact mem_recentKeys.mpr ⟨e, hsub he, hupdated, hne, hkey⟩

theorem Tracks.recentKeys_eq_empty {spare : ℚ} (h : limiter.Tracks client st b spare) (hlater : b.updated < now) (key : String) :
    recentKeys now key st.table = ∅ := by
  rw [Finset.eq_empty_iff_forall_notMem]
  intro other hother
  obtain ⟨e, he, hupdated, -⟩ := mem_recentKeys.mp hother
  have := h.past e he
  linarith

/-- The client finds its bucket: it is used as a bucket alone would be. -/
theorem Tracks.consume_client_of_mem (h : limiter.Tracks client st b 0) (hnow : b.updated ≤ now)
    (hb : ⟨b, limiter.clientKey client⟩ ∈ (limiter.sweep now st).table) :
    ∃ st', limiter.consume (limiter.clientKey client) now st
        = ((Inflow.request (limiter.flow.level b now) now).1, st') ∧
      now - st'.lastSweep < limiter.sweepInterval ∧
      limiter.Tracks client st' (Inflow.request (limiter.flow.level b now) now).2
        (if (Inflow.request (limiter.flow.level b now) now).1 then 1 else 0) := by
  have hnodup : ((limiter.sweep now st).table.map (·.key)).Nodup := nodup_sweep h.nodup
  rw [consume_of_mem hnodup hb]
  refine ⟨_, rfl, quiet_sweep, ?_⟩
  obtain ⟨granted, b', hrequest⟩ : ∃ granted b', Inflow.request (limiter.flow.level b now) now = (granted, b') :=
    ⟨_, _, rfl⟩
  rw [hrequest]
  obtain ⟨rfl, htokens, hnonneg⟩ := Inflow.request_spec hrequest
  have hlevel : limiter.flow.level b b'.updated ≤ limiter.burst := Inflow.level_le_capacity
  have hlevel' : limiter.flow.level b b'.updated ≤ b.tokens + (b'.updated - b.updated) * limiter.rate := Inflow.level_le
  refine ⟨nodup_putBucket hnodup, ?_, ?_, ?_, ?_, mem_putBucket.mpr (.inl rfl), ?_⟩
  · have hlength : (limiter.sweep b'.updated st).table.length ≤ st.table.length := length_sweep_le
    have := h.length
    rw [length_putBucket_of_any (any_eq_true.mpr ⟨_, hb, by simp⟩)]
    omega
  · intro e he
    rcases mem_putBucket.mp he with rfl | ⟨he, -⟩
    · exact .inl rfl
    · exact h.keys e (sweep_subset he)
  · intro e he
    rcases mem_putBucket.mp he with rfl | ⟨he, -⟩
    · exact le_refl _
    · exact (h.past e (sweep_subset he)).trans hnow
  · exact hnonneg (Inflow.level_nonneg limiter.flow_nonneg.1 limiter.flow_nonneg.2 h.nonneg hnow)
  · -- buckets of this moment were there before only if it is still the moment of the last request
    have hrecent := h.recent
    have hsub : recentKeys b'.updated (limiter.clientKey client)
        (putBucket (limiter.sweep b'.updated st).table ⟨b', limiter.clientKey client⟩)
          ⊆ recentKeys b'.updated (limiter.clientKey client) st.table :=
      recentKeys_putBucket_subset (fun _ => sweep_subset) b' _
    have hcard : ((recentKeys b'.updated (limiter.clientKey client)
        (putBucket (limiter.sweep b'.updated st).table ⟨b', limiter.clientKey client⟩)).card : ℚ)
          ≤ (recentKeys b'.updated (limiter.clientKey client) st.table).card := Nat.cast_le.mpr (Finset.card_le_card hsub)
    rcases eq_or_lt_of_le hnow with hsame | hlater
    · rw [← hsame] at hcard hlevel' htokens ⊢
      rw [sub_self, zero_mul] at hlevel'
      linarith
    · rw [h.recentKeys_eq_empty hlater, Finset.card_empty, Nat.cast_zero] at hcard
      linarith

theorem Mirrors.consume_client (h : limiter.Mirrors client st b) (hnow : b.updated ≤ now)
    (httl : (limiter.burst : ℚ) ≤ limiter.identityTtlSeconds * limiter.rate) :
    ∃ st', limiter.consume (limiter.clientKey client) now st
        = ((Inflow.request (limiter.flow.level b now) now).1, st') ∧
      now - st'.lastSweep < limiter.sweepInterval ∧
      limiter.Tracks client st' (Inflow.request (limiter.flow.level b now) now).2
        (if (Inflow.request (limiter.flow.level b now) now).1 then 1 else 0) := by
  rcases h with ⟨hnil, hfull⟩ | h
  · refine consume_client_of_nil (sweep_nil hnil) (min_eq_left ?_)
    have hinflow := mul_nonneg (sub_nonneg.mpr hnow) limiter.rate_pos.le
    change (limiter.burst : ℚ) ≤ b.tokens + (now - b.updated) * limiter.rate
    linarith
  · have hswept : _ ∈ (limiter.sweep now st).table ∨ _ := mem_sweep_or_nil h.bucket h.past
    rcases hswept with hb | ⟨hnil, hstale⟩
    · exact h.consume_client_of_mem hnow hb
    · exact consume_client_of_nil hnil (level_of_stale httl h.nonneg hstale)

/-! ### The buckets of conversations -/

variable {id : String} {requests : List (ℚ × Option String)} {first last : ℚ}

/-- A client that is not crowded out stays when a conversation needs room. -/
theorem Tracks.makeRoom (h : limiter.Tracks client st b 1) (hcrowd : ¬limiter.CrowdsOut) (hid : id ≠ "")
    (hnew : ∀ e ∈ st.table, e.key ≠ limiter.conversationKey id) :
    ⟨b, limiter.clientKey client⟩ ∈ limiter.makeRoom st.table ∧
      ((limiter.makeRoom st.table).length : ℤ) < limiter.maxIdentities ∧
      ((limiter.makeRoom st.table).map (·.key)).Nodup := by
  rcases lt_or_eq_of_le h.length with hlt | hfull
  · rw [makeRoom_of_lt hlt]
    exact ⟨h.bucket, hlt, h.nodup⟩
  · rw [makeRoom_of_eq hfull]
    have hlength := length_evictColdest (ne_nil_of_mem h.bucket)
    refine ⟨?_, by omega, nodup_evictColdest h.nodup⟩
    by_contra hevicted
    -- then all buckets are of this moment, and each was paid for by a token of the client
    have hall : ∀ e ∈ st.table, e.updated = b.updated := by
      intro e he
      refine le_antisymm (h.past e he) (le_of_not_gt fun holder => ?_)
      exact hevicted (mem_evictColdest h.nodup h.bucket he holder)
    have hothers : ((st.table.map (·.key)).toFinset.erase (limiter.clientKey client)).card + 1 = st.table.length := by
      rw [Finset.card_erase_add_one (mem_toFinset.mpr (mem_map.mpr ⟨_, h.bucket, rfl⟩)),
        toFinset_card_of_nodup h.nodup, length_map]
    have hrecent : (st.table.map (·.key)).toFinset.erase (limiter.clientKey client)
        ⊆ recentKeys b.updated (limiter.clientKey client) st.table := by
      intro key hkey
      obtain ⟨hne, hkey⟩ := Finset.mem_erase.mp hkey
      obtain ⟨e, he, rfl⟩ := mem_map.mp (mem_toFinset.mp hkey)
      exact mem_recentKeys.mpr ⟨e, he, hall e he, hne, rfl⟩
    have hpaid : ((recentKeys b.updated (limiter.clientKey client) st.table).card : ℚ) + 1 ≤ limiter.burst := by
      have := h.recent
      have := h.nonneg
      linarith
    apply hcrowd
    constructor
    · have hcard := Finset.card_le_card hrecent
      have hpaid' : ((recentKeys b.updated (limiter.clientKey client) st.table).card : ℤ) + 1 ≤ limiter.burst := by
        exact_mod_cast hpaid
      omega
    · refine ⟨insert (limiter.conversationKey id)
        ((st.table.map (·.key)).toFinset.erase (limiter.clientKey client)), ?_, ?_⟩
      · rw [Finset.card_insert_of_notMem, hothers, hfull]
        intro hmem
        obtain ⟨e, he, hkey⟩ := mem_map.mp (mem_toFinset.mp (Finset.mem_of_mem_erase hmem))
        exact hnew e he hkey
      · intro key hkey
        rcases Finset.mem_insert.mp hkey with rfl | hkey
        · exact ⟨id, hid, rfl⟩
        · obtain ⟨hne, hkey⟩ := Finset.mem_erase.mp hkey
          obtain ⟨e, he, rfl⟩ := mem_map.mp (mem_toFinset.mp hkey)
          obtain ⟨id', hid', hkey'⟩ := (h.keys e he).resolve_left hne
          exact ⟨id', hid', hkey'.symm⟩

theorem Tracks.putConversation (h : limiter.Tracks client st b 1) {table : List LiveBucket}
    (hsub : ∀ e ∈ table, e ∈ st.table) (hnodup : (table.map (·.key)).Nodup)
    (hclient : ⟨b, limiter.clientKey client⟩ ∈ table) (hid : id ≠ "") {c : Bucket ℚ} (hc : c.updated = b.updated)
    (hlength : ((putBucket table ⟨c, limiter.conversationKey id⟩).length : ℤ) ≤ limiter.maxIdentities) (lastSweep : ℚ) :
    limiter.Tracks client ⟨putBucket table ⟨c, limiter.conversationKey id⟩, lastSweep⟩ b 0 where
  nodup := nodup_putBucket hnodup
  length := hlength
  keys := by
    intro e he
    rcases mem_putBucket.mp he with rfl | ⟨he, -⟩
    · exact .inr ⟨id, hid, rfl⟩
    · exact h.keys e (hsub e he)
  past := by
    intro e he
    rcases mem_putBucket.mp he with rfl | ⟨he, -⟩
    · exact hc.le
    · exact h.past e (hsub e he)
  nonneg := h.nonneg
  bucket := mem_putBucket.mpr (.inr ⟨hclient, clientKey_ne_conversationKey client id⟩)
  recent := by
    have hrecent := h.recent
    have hinsert : recentKeys b.updated (limiter.clientKey client) (putBucket table ⟨c, limiter.conversationKey id⟩)
        ⊆ insert (limiter.conversationKey id) (recentKeys b.updated (limiter.clientKey client) st.table) := by
      intro key hkey
      obtain ⟨e, he, hupdated, hne, rfl⟩ := mem_recentKeys.mp hkey
      rcases mem_putBucket.mp he with rfl | ⟨he, -⟩
      · exact Finset.mem_insert_self _ _
      · exact Finset.mem_insert_of_mem (mem_recentKeys.mpr ⟨e, hsub e he, hupdated, hne, rfl⟩)
    have hcard : ((recentKeys b.updated (limiter.clientKey client)
        (putBucket table ⟨c, limiter.conversationKey id⟩)).card : ℚ)
          ≤ ((recentKeys b.updated (limiter.clientKey client) st.table).card + 1 : ℕ) :=
      Nat.cast_le.mpr ((Finset.card_le_card hinsert).trans (Finset.card_insert_le _ _))
    rw [Nat.cast_add, Nat.cast_one] at hcard
    linarith

theorem Tracks.consume_conversation (h : limiter.Tracks client st b 1)
    (hquiet : b.updated - st.lastSweep < limiter.sweepInterval) (hcrowd : ¬limiter.CrowdsOut) (hid : id ≠ "") :
    limiter.Tracks client (limiter.consume (limiter.conversationKey id) b.updated st).2 b 0 := by
  have hsweep : limiter.sweep b.updated st = st := sweep_of_quiet hquiet
  by_cases hold : ∃ e ∈ st.table, e.key = limiter.conversationKey id
  · obtain ⟨e, he, hkey⟩ := hold
    have hmem : ⟨e.toBucket, limiter.conversationKey id⟩ ∈ (limiter.sweep b.updated st).table := by
      rw [hsweep, ← hkey]
      exact he
    rw [consume_of_mem (nodup_sweep h.nodup) hmem, hsweep]
    obtain ⟨granted, c, hrequest⟩ : ∃ granted c,
      Inflow.request (limiter.flow.level e.toBucket b.updated) b.updated = (granted, c) := ⟨_, _, rfl⟩
    rw [hrequest]
    refine h.putConversation (fun _ he => he) h.nodup h.bucket hid (Inflow.request_spec hrequest).1 ?_ _
    rw [length_putBucket_of_any (any_eq_true.mpr ⟨e, he, by simp [hkey]⟩)]
    exact h.length
  · have hnew : ∀ e ∈ st.table, e.key ≠ limiter.conversationKey id := fun e he hkey => hold ⟨e, he, hkey⟩
    obtain ⟨hclient, hroom, hnodup⟩ := h.makeRoom hcrowd hid hnew
    have hswept : ∀ e ∈ (limiter.sweep b.updated st).table, e.key ≠ limiter.conversationKey id := by
      rw [hsweep]
      exact hnew
    rw [consume_of_absent hswept, hsweep, request_burst]
    refine h.putConversation (c := ⟨limiter.burst - 1, b.updated⟩) (fun _ he => makeRoom_subset he) hnodup hclient hid
      rfl ?_ _
    have hlength : (putBucket (limiter.makeRoom st.table)
      ⟨⟨limiter.burst - 1, b.updated⟩, limiter.conversationKey id⟩).length ≤ _ := length_putBucket_le
    omega

/-! ### Runs -/

/-- One request: the table follows the bucket, and what is admitted the bucket grants. -/
theorem Mirrors.admitRequest (h : limiter.Mirrors client st b) (hnow : b.updated ≤ now)
    (httl : (limiter.burst : ℚ) ≤ limiter.identityTtlSeconds * limiter.rate) (hcrowd : ¬limiter.CrowdsOut)
    (conversation : Option String) : limiter.Mirrors client (limiter.admitRequest client conversation now st).2
        (Inflow.request (limiter.flow.level b now) now).2 ∧
      ((limiter.admitRequest client conversation now st).1.allowed = true →
        (Inflow.request (limiter.flow.level b now) now).1 = true) := by
  obtain ⟨st', hconsume, hquiet, htracks⟩ := h.consume_client hnow httl
  obtain ⟨granted, b', hrequest⟩ : ∃ granted b', Inflow.request (limiter.flow.level b now) now = (granted, b') :=
    ⟨_, _, rfl⟩
  rw [hrequest] at hconsume htracks ⊢
  obtain ⟨rfl, -⟩ := Inflow.request_spec hrequest
  cases granted with
  | false =>
    simp only [RateLimiter.admitRequest, hconsume, Bool.false_eq_true, if_false]
    exact ⟨.inr htracks, id⟩
  | true =>
    refine ⟨.inr ?_, fun _ => rfl⟩
    simp only [RateLimiter.admitRequest, hconsume, if_true]
    cases hconversation : conversation.filter (· ≠ "") with
    | none =>
      have hrecent := htracks.recent
      rw [if_pos rfl] at hrecent
      exact { htracks with recent := by linarith }
    | some id =>
      have hid : id ≠ "" := of_decide_eq_true (Option.filter_eq_some_iff.mp hconversation).2
      have hsettled := Tracks.consume_conversation htracks hquiet hcrowd hid
      simp only
      split <;> exact hsettled

theorem Mirrors.run (httl : (limiter.burst : ℚ) ≤ limiter.identityTtlSeconds * limiter.rate) (hcrowd : ¬limiter.CrowdsOut)
    (h : limiter.Mirrors client st b) (hclock : (b.updated :: requests.map (·.1)).IsChain (· ≤ ·)) :
    List.Forall₂ (fun o o' => o.1 = o'.1 ∧ (o.2 = true → o'.2 = true))
      ((limiter.run client st requests).map fun d => (d.1, d.2.allowed)) (limiter.flow.grants b (requests.map (·.1))) := by
  induction requests generalizing st b with
  | nil => exact .nil
  | cons request requests ih =>
    obtain ⟨now, conversation⟩ := request
    rw [map_cons, isChain_cons_cons] at hclock
    obtain ⟨hmirrors, hallowed⟩ := h.admitRequest hclock.1 httl hcrowd conversation
    have hrest : ((Inflow.request (limiter.flow.level b now) now).2.updated :: requests.map (·.1)).IsChain (· ≤ ·) := by
      have hupdated : (Inflow.request (limiter.flow.level b now) now).2.updated = now := (Inflow.request_spec rfl).1
      rw [hupdated]
      exact hclock.2
    rw [RateLimiter.run, map_cons, map_cons, Inflow.grants]
    exact .cons ⟨rfl, hallowed⟩ (ih hmirrors hrest)

theorem holdsQuota_of (httl : (limiter.burst : ℚ) ≤ limiter.identityTtlSeconds * limiter.rate)
    (hcrowd : ¬limiter.CrowdsOut) : limiter.HoldsQuota := by
  intro start client requests hclock first last hfirst
  have hmirrors : limiter.Mirrors client (init start) ⟨limiter.burst, start⟩ := .inl ⟨rfl, rfl⟩
  have hgranted : admittedWithin first last (limiter.run client (init start) requests) ≤ _ :=
    grantedWithin_le_of_forall₂ (hmirrors.run httl hcrowd hclock)
  have hbound : (grantedWithin first last (limiter.flow.grants ⟨limiter.burst, start⟩ (requests.map (·.1))) : ℚ) ≤ _ :=
    Inflow.grants_within_le limiter.flow_nonneg.1 limiter.flow_nonneg.2 limiter.flow_nonneg.1 hclock hfirst
  exact (Nat.cast_le.mpr hgranted).trans hbound

/-! ### Forgotten buckets -/

theorem run_append (limiter : RateLimiter) (client : String) (st : LimiterState) (requests later : List (ℚ × Option String)) :
    limiter.run client st (requests ++ later)
      = limiter.run client st requests ++ limiter.run client (limiter.stateAfter client st requests) later := by
  induction requests generalizing st with
  | nil => rfl
  | cons request requests ih => exact congrArg (_ :: ·) (ih _)

theorem admittedWithin_append (first last : ℚ) (decisions later : List (ℚ × AdmissionDecision)) :
    admittedWithin first last (decisions ++ later) = admittedWithin first last decisions + admittedWithin first last later := by
  rw [admittedWithin, map_append, grantedWithin, countP_append]
  rfl

variable {st' : LimiterState} {t : ℚ}

theorem admittedWithin_cons {conversation : Option String} (hfirst : first ≤ now) (hlast : now ≤ last)
    (h : limiter.admitRequest client conversation now st = ({ allowed := true }, st')) :
    admittedWithin first last (limiter.run client st ((now, conversation) :: requests))
      = admittedWithin first last (limiter.run client st' requests) + 1 := by
  simp only [run, h]
  rw [admittedWithin, map_cons, grantedWithin_cons, if_pos ⟨rfl, hfirst, hlast⟩]
  rfl

theorem admitRequest_none (h : limiter.consume (limiter.clientKey client) now st = (true, st')) :
    limiter.admitRequest client none now st = ({ allowed := true }, st') := by
  simp [admitRequest, h]

theorem admitted_of_tokens (hfirst : first ≤ now) (hlast : now ≤ last) {tokens : ℕ}
    (htokens : (tokens : ℤ) ≤ limiter.burst) (hquiet : now - st.lastSweep < limiter.sweepInterval)
    (hnodup : (st.table.map (·.key)).Nodup) (hmem : ⟨⟨tokens, now⟩, limiter.clientKey client⟩ ∈ st.table) :
    admittedWithin first last (limiter.run client st (List.replicate tokens (now, none))) = tokens := by
  induction tokens generalizing st with
  | zero => rfl
  | succ tokens ih =>
    have hsweep : limiter.sweep now st = st := sweep_of_quiet hquiet
    have hlevel : limiter.flow.level ⟨(tokens + 1 : ℕ), now⟩ now = (tokens + 1 : ℕ) := by
      have hle : ((tokens + 1 : ℕ) : ℚ) ≤ limiter.burst := by exact_mod_cast htokens
      rw [Inflow.level, sub_self, zero_mul, add_zero]
      exact min_eq_right hle
    have hrequest : Inflow.request ((tokens + 1 : ℕ) : ℚ) now = (true, ⟨tokens, now⟩) := by
      rw [Inflow.request, if_pos (by simp), Nat.cast_succ, add_sub_cancel_right]
    have hconsume := consume_of_mem (nodup_sweep hnodup) (hsweep.symm ▸ hmem)
    rw [hlevel, hrequest, hsweep] at hconsume
    rw [replicate_succ, admittedWithin_cons hfirst hlast (admitRequest_none hconsume)]
    refine congrArg (· + 1) (ih (by omega) hquiet ?_ ?_)
    · exact nodup_putBucket hnodup
    · exact mem_putBucket.mpr (.inl rfl)

def spree (limiter : RateLimiter) (now : ℚ) : List (ℚ × Option String) := List.replicate limiter.burst.toNat (now, none)

theorem time_of_mem_spree {request : ℚ × Option String} (h : request ∈ limiter.spree now) : request.1 = now := by
  rw [eq_of_mem_replicate h]

theorem admitted_of_absent (hfirst : first ≤ now) (hlast : now ≤ last)
    (hnodup : ((limiter.sweep now st).table.map (·.key)).Nodup)
    (habsent : ∀ e ∈ (limiter.sweep now st).table, e.key ≠ limiter.clientKey client) :
    admittedWithin first last (limiter.run client st (limiter.spree now)) = limiter.burst.toNat := by
  have hburst := limiter.positive.2.1
  obtain ⟨rest, hrest⟩ : ∃ rest, limiter.burst.toNat = rest + 1 := ⟨limiter.burst.toNat - 1, by omega⟩
  have htokens : (limiter.burst : ℚ) - 1 = rest := by
    have : limiter.burst = rest + 1 := by omega
    rw [this, Int.cast_add, Int.cast_one, add_sub_cancel_right, Int.cast_natCast]
  have hconsume := consume_of_absent habsent
  rw [request_burst, htokens] at hconsume
  rw [spree, hrest, replicate_succ, admittedWithin_cons hfirst hlast (admitRequest_none hconsume)]
  refine congrArg (· + 1) (admitted_of_tokens hfirst hlast (by omega) ?_ ?_ ?_)
  · exact quiet_sweep
  · exact nodup_putBucket (nodup_makeRoom hnodup)
  · exact mem_putBucket.mpr (.inl rfl)

theorem admitted_of_nil (hfirst : first ≤ now) (hlast : now ≤ last) (hnil : (limiter.sweep now st).table = []) :
    admittedWithin first last (limiter.run client st (limiter.spree now)) = limiter.burst.toNat := by
  apply admitted_of_absent hfirst hlast
  · rw [hnil]
    exact nodup_nil
  · rw [hnil]
    exact fun e he => absurd he not_mem_nil

def Past (t : ℚ) (st : LimiterState) : Prop := st.lastSweep ≤ t ∧ ∀ e ∈ st.table, e.updated ≤ t

theorem Past.consume (h : Past t st) (hnow : now ≤ t) (key : String) : Past t (limiter.consume key now st).2 := by
  have hswept : Past t (limiter.sweep now st) := by
    refine ⟨?_, fun e he => h.2 e (sweep_subset he)⟩
    rw [sweep]
    split
    · exact hnow
    · exact h.1
  have hput : ∀ table tokens, (∀ e ∈ table, e.updated ≤ t) →
      ∀ e ∈ putBucket table ⟨⟨tokens, now⟩, key⟩, e.updated ≤ t := by
    intro table tokens htable e he
    rcases mem_putBucket.mp he with rfl | ⟨he, -⟩
    · exact hnow
    · exact htable e he
  have htable : ∀ e ∈ (if (limiter.sweep now st).table.any (·.key = key) then (limiter.sweep now st).table
      else limiter.makeRoom (limiter.sweep now st).table), e.updated ≤ t := by
    intro e he
    split at he
    · exact hswept.2 e he
    · exact hswept.2 e (makeRoom_subset he)
  simp only [RateLimiter.consume]
  split <;> split <;> exact ⟨hswept.1, hput _ _ htable⟩

theorem Past.admitRequest (h : Past t st) (hnow : now ≤ t) (client : String) (conversation : Option String) :
    Past t (limiter.admitRequest client conversation now st).2 := by
  have hclient : Past t (limiter.consume (limiter.clientKey client) now st).2 := h.consume hnow _
  simp only [RateLimiter.admitRequest]
  split
  · split
    · exact hclient
    · split
      · exact hclient.consume hnow _
      · exact hclient.consume hnow _
  · exact hclient

theorem Past.stateAfter (h : Past t st) (client : String) (hrequests : ∀ request ∈ requests, request.1 ≤ t) :
    Past t (limiter.stateAfter client st requests) := by
  induction requests generalizing st with
  | nil => exact h
  | cons request requests ih =>
    obtain ⟨hrequest, hrequests⟩ := forall_mem_cons.mp hrequests
    exact ih (h.admitRequest hrequest client request.2) hrequests

/-- If the time to live is too short to fill a bucket, a client that waits for a little longer has a full one. -/
theorem exceeds_of_short_ttl (h : limiter.identityTtlSeconds * limiter.rate < limiter.burst) : ¬limiter.HoldsQuota := by
  intro hquota
  have hrate := limiter.rate_pos
  have httl := limiter.positive.2.2.2.1
  obtain ⟨wait, hwait, hinflow⟩ : ∃ wait, limiter.identityTtlSeconds < wait ∧ wait * limiter.rate < limiter.burst := by
    obtain ⟨wait, hlow, hhigh⟩ := exists_between ((lt_div_iff₀ hrate).mpr h)
    exact ⟨wait, hlow, (lt_div_iff₀ hrate).mp hhigh⟩
  have hwait0 : 0 ≤ wait := (httl.trans hwait).le
  have hpast : Past 0 (limiter.stateAfter "" (init 0) (limiter.spree 0)) :=
    Past.stateAfter ⟨le_refl _, by simp [init]⟩ "" fun request hrequest => (time_of_mem_spree hrequest).le
  -- by then every bucket is stale
  have hswept : (limiter.sweep wait (limiter.stateAfter "" (init 0) (limiter.spree 0))).table = [] := by
    have hdue : limiter.sweepInterval ≤ wait - (limiter.stateAfter "" (init 0) (limiter.spree 0)).lastSweep := by
      have := hpast.1
      rw [sweepInterval]
      linarith
    rw [sweep, if_pos hdue]
    refine filter_eq_nil_iff.mpr fun e he hkept => of_decide_eq_true hkept ?_
    have := hpast.2 e he
    linarith
  have hfirst : admittedWithin 0 wait (limiter.run "" (init 0) (limiter.spree 0)) = limiter.burst.toNat :=
    admitted_of_nil (le_refl 0) hwait0 (sweep_nil rfl)
  have hsecond : admittedWithin 0 wait (limiter.run "" _ (limiter.spree wait)) = limiter.burst.toNat :=
    admitted_of_nil hwait0 (le_refl wait) hswept
  have hclock : ((0 : ℚ) :: (limiter.spree 0 ++ limiter.spree wait).map (·.1)).IsChain (· ≤ ·) := by
    rw [isChain_iff_pairwise, map_append, spree, spree, map_replicate, map_replicate,
      ← singleton_append, ← append_assoc, ← replicate_one, ← replicate_add, pairwise_append]
    refine ⟨pairwise_replicate.mpr (.inr (le_refl _)), pairwise_replicate.mpr (.inr (le_refl _)), ?_⟩
    intro a ha b hb
    rw [eq_of_mem_replicate ha, eq_of_mem_replicate hb]
    exact hwait0
  have hbound := hquota 0 "" (limiter.spree 0 ++ limiter.spree wait) hclock 0 wait hwait0
  rw [run_append, admittedWithin_append, hfirst, hsecond] at hbound
  have hburst : ((limiter.burst.toNat + limiter.burst.toNat : ℕ) : ℚ) = limiter.burst + limiter.burst := by
    have := limiter.positive.2.1
    exact_mod_cast (by omega : ((limiter.burst.toNat + limiter.burst.toNat : ℕ) : ℤ) = limiter.burst + limiter.burst)
  rw [hburst, sub_zero, ← rate] at hbound
  linarith

/-! ### Crowded out -/

/-- The bucket of a conversation after its first request, at time `0`. -/
def visited (limiter : RateLimiter) (id : String) : LiveBucket := ⟨⟨limiter.burst - 1, 0⟩, limiter.conversationKey id⟩

/-- The table after a request for each of the given conversations, the client at its head. -/
def Crowded (limiter : RateLimiter) (client : String) (done : List String) (st : LimiterState) : Prop :=
  st.lastSweep = 0 ∧ (st.table = [] ∧ done = [] ∨
    st.table = ⟨⟨limiter.burst - done.length, 0⟩, limiter.clientKey client⟩ :: done.map limiter.visited)

variable {done : List String} {id : String}

theorem keys_visited (limiter : RateLimiter) (ids : List String) :
    (ids.map limiter.visited).map (·.key) = ids.map limiter.conversationKey := by
  rw [map_map]
  rfl

theorem clientKey_notMem_visited {e : LiveBucket} (h : e ∈ done.map limiter.visited) : e.key ≠ limiter.clientKey client := by
  obtain ⟨id, -, rfl⟩ := mem_map.mp h
  exact (clientKey_ne_conversationKey client id).symm

theorem nodup_crowded (h : (done.map limiter.conversationKey).Nodup) (b : Bucket ℚ) :
    ((⟨b, limiter.clientKey client⟩ :: done.map limiter.visited).map (·.key)).Nodup := by
  rw [map_cons, nodup_cons, keys_visited]
  refine ⟨fun hmem => ?_, h⟩
  obtain ⟨id, -, hid⟩ := mem_map.mp hmem
  exact clientKey_ne_conversationKey client id hid.symm

theorem sweep_zero (limiter : RateLimiter) (h : st.lastSweep = 0) : limiter.sweep 0 st = st := by
  apply sweep_of_quiet
  rw [h, sub_zero]
  exact limiter.sweepInterval_pos

theorem Crowded.consume_client (h : limiter.Crowded client done st) (hdone : (done.length : ℤ) < limiter.burst)
    (hnodup : (done.map limiter.conversationKey).Nodup) : limiter.consume (limiter.clientKey client) 0 st = (true,
      ⟨⟨⟨limiter.burst - (done.length + 1), 0⟩, limiter.clientKey client⟩ :: done.map limiter.visited, 0⟩) := by
  obtain ⟨hsweep, ⟨htable, rfl⟩ | htable⟩ := h
  · have hroom : limiter.makeRoom [] = [] := by
      have := limiter.positive.2.2.1
      exact makeRoom_of_lt (by simp only [length_nil, Nat.cast_zero]; omega)
    have hzero := sweep_zero limiter hsweep
    rw [consume_of_absent (by rw [hzero, htable]; simp), hzero, htable, hroom, request_burst, hsweep]
    simp [putBucket]
  · have hzero := sweep_zero limiter hsweep
    have hmem : ⟨⟨limiter.burst - done.length, 0⟩, limiter.clientKey client⟩ ∈ (limiter.sweep 0 st).table := by
      rw [hzero, htable]
      exact mem_cons_self
    have hlevel : limiter.flow.level ⟨limiter.burst - done.length, 0⟩ 0 = limiter.burst - done.length := by
      rw [Inflow.level, sub_self, zero_mul, add_zero]
      exact min_eq_right (sub_le_self _ (Nat.cast_nonneg _))
    have hone : (1 : ℚ) ≤ limiter.burst - done.length := by
      exact_mod_cast (by omega : (1 : ℤ) ≤ limiter.burst - done.length)
    have hput : putBucket st.table ⟨⟨limiter.burst - done.length - 1, 0⟩, limiter.clientKey client⟩
        = ⟨⟨limiter.burst - (done.length + 1), 0⟩, limiter.clientKey client⟩ :: done.map limiter.visited := by
      rw [htable, putBucket, if_pos (by simp), map_cons, if_pos rfl, sub_sub]
      apply congrArg (_ :: ·)
      refine (map_congr_left fun e he => ?_).trans (map_id _)
      exact if_neg (clientKey_notMem_visited he)
    rw [consume_of_mem (by rw [hzero, htable]; exact nodup_crowded hnodup _) hmem, hlevel, Inflow.request, if_pos hone,
      hzero, hsweep, hput]

theorem evictColdest_crowded (tokens : ℚ) :
    evictColdest (⟨⟨tokens, 0⟩, limiter.clientKey client⟩ :: done.map limiter.visited) = done.map limiter.visited := by
  have hargmin : (⟨⟨tokens, 0⟩, limiter.clientKey client⟩ :: done.map limiter.visited).argmin (·.updated)
      = some ⟨⟨tokens, 0⟩, limiter.clientKey client⟩ := by
    rw [argmin_cons]
    cases hrest : (done.map limiter.visited).argmin (·.updated) with
    | none => rfl
    | some e =>
      obtain ⟨id, -, rfl⟩ := mem_map.mp (argmin_mem hrest)
      exact if_neg (lt_irrefl _)
  rw [evictColdest, hargmin]
  simp

theorem Crowded.admitRequest (h : limiter.Crowded client done st) (hid : id ≠ "")
    (hnodup : ((done ++ [id]).map limiter.conversationKey).Nodup) (hdone : (done.length : ℤ) < limiter.burst)
    (hlength : (done.length : ℤ) + 1 ≤ limiter.maxIdentities) :
    limiter.admitRequest client (some id) 0 st = ({ allowed := true },
      ⟨if (done.length : ℤ) + 1 = limiter.maxIdentities then (done ++ [id]).map limiter.visited
        else ⟨⟨limiter.burst - (done.length + 1), 0⟩, limiter.clientKey client⟩ :: (done ++ [id]).map limiter.visited, 0⟩) := by
  rw [map_append, nodup_append'] at hnodup
  obtain ⟨hnodup, -, hnew⟩ := hnodup
  have hother : ∀ b, ∀ e ∈ ⟨b, limiter.clientKey client⟩ :: done.map limiter.visited, e.key ≠ limiter.conversationKey id := by
    intro b e he
    rcases mem_cons.mp he with rfl | he
    · exact clientKey_ne_conversationKey client id
    · obtain ⟨id', hid', rfl⟩ := mem_map.mp he
      exact fun hkey => hnew (mem_map_of_mem hid') (mem_singleton.mpr hkey)
  have hconversation : limiter.consume (limiter.conversationKey id) 0
      ⟨⟨⟨limiter.burst - (done.length + 1), 0⟩, limiter.clientKey client⟩ :: done.map limiter.visited, 0⟩ = (true,
        ⟨if (done.length : ℤ) + 1 = limiter.maxIdentities then (done ++ [id]).map limiter.visited
          else ⟨⟨limiter.burst - (done.length + 1), 0⟩, limiter.clientKey client⟩ :: (done ++ [id]).map limiter.visited, 0⟩) := by
    have hzero : limiter.sweep 0 ⟨⟨⟨limiter.burst - (done.length + 1), 0⟩, limiter.clientKey client⟩ ::
        done.map limiter.visited, 0⟩ = _ := sweep_zero limiter rfl
    rw [consume_of_absent (by rw [hzero]; exact hother _), hzero, request_burst]
    split
    · rename_i hfull
      rw [makeRoom_of_eq (by simpa using hfull), evictColdest_crowded,
        putBucket_of_absent fun e he => hother ⟨0, 0⟩ e (mem_cons_of_mem _ he), map_append]
      rfl
    · rename_i hroom
      rw [makeRoom_of_lt (by simp only [length_cons, length_map]; omega), putBucket_of_absent (hother _),
        map_append]
      rfl
  have hfilter : (some id).filter (· ≠ "") = some id := by simp [hid]
  simp only [RateLimiter.admitRequest, h.consume_client hdone hnodup, if_true, hfilter, hconversation]

/-- Requests for as many conversations as there are places: all are admitted, and the client is gone. -/
theorem Crowded.run {ids : List String} (hburst : limiter.maxIdentities ≤ limiter.burst)
    (h : limiter.Crowded client done st) (hids : ∀ id ∈ ids, id ≠ "") (hne : ids ≠ [])
    (hnodup : ((done ++ ids).map limiter.conversationKey).Nodup)
    (hlength : ((done ++ ids).length : ℤ) = limiter.maxIdentities) :
    admittedWithin 0 0 (limiter.run client st (ids.map fun id => (0, some id))) = ids.length ∧
      limiter.stateAfter client st (ids.map fun id => (0, some id)) = ⟨(done ++ ids).map limiter.visited, 0⟩ := by
  induction ids generalizing done st with
  | nil => exact absurd rfl hne
  | cons id ids ih =>
    rw [append_cons] at hnodup hlength ⊢
    rw [length_append, length_append, length_singleton] at hlength
    have hfirst : ((done ++ [id]).map limiter.conversationKey).Nodup :=
      hnodup.sublist ((sublist_append_left _ _).map _)
    obtain ⟨hid, hids⟩ := forall_mem_cons.mp hids
    have hrequest := h.admitRequest hid hfirst (by omega) (by omega)
    rw [map_cons, admittedWithin_cons (le_refl 0) (le_refl 0) hrequest, RateLimiter.stateAfter, foldl_cons,
      hrequest, ← RateLimiter.stateAfter, length_cons]
    cases ids with
    | nil =>
      rw [if_pos (by simpa using hlength), append_nil]
      exact ⟨rfl, rfl⟩
    | cons next rest =>
      rw [if_neg (by simp only [length_cons] at hlength; omega)]
      have hcrowded : limiter.Crowded client (done ++ [id])
          ⟨⟨⟨limiter.burst - (done.length + 1), 0⟩, limiter.clientKey client⟩ :: (done ++ [id]).map limiter.visited, 0⟩ :=
        ⟨rfl, .inr (by simp)⟩
      have hrest : ((done ++ [id] ++ next :: rest).length : ℤ) = limiter.maxIdentities := by
        rw [length_append, length_append, length_singleton]
        exact hlength
      obtain ⟨hadmitted, hstate⟩ := ih hcrowded hids (by simp) hnodup hrest
      exact ⟨by rw [hadmitted], hstate⟩

theorem exists_ids {keys : List String} (h : ∀ key ∈ keys, ∃ id, id ≠ "" ∧ limiter.conversationKey id = key) :
    ∃ ids : List String, ids.map limiter.conversationKey = keys ∧ ∀ id ∈ ids, id ≠ "" := by
  induction keys with
  | nil => exact ⟨[], rfl, by simp⟩
  | cons key keys ih =>
    obtain ⟨⟨id, hid, rfl⟩, hkeys⟩ := forall_mem_cons.mp h
    obtain ⟨ids, rfl, hids⟩ := ih hkeys
    exact ⟨id :: ids, rfl, forall_mem_cons.mpr ⟨hid, hids⟩⟩

/-- If the burst reaches for all the places of the table, the conversations of one moment crowd the client out, and it starts again with a full bucket. -/
theorem exceeds_of_crowdsOut (h : limiter.CrowdsOut) : ¬limiter.HoldsQuota := by
  intro hquota
  obtain ⟨hburst, keys, hcard, hkeys⟩ := h
  obtain ⟨ids, hmap, hids⟩ := exists_ids fun key hkey => hkeys key (Finset.mem_toList.mp hkey)
  have hlength : (ids.length : ℤ) = limiter.maxIdentities := by
    rw [← hcard, ← Finset.length_toList, ← hmap, length_map]
  have hnodup : (ids.map limiter.conversationKey).Nodup := hmap ▸ keys.nodup_toList
  have hidentities := limiter.positive.2.2.1
  have hne : ids ≠ [] := by
    rintro rfl
    simp only [length_nil, Nat.cast_zero] at hlength
    omega
  have hempty : limiter.Crowded "" [] (init 0) := ⟨rfl, .inl ⟨rfl, rfl⟩⟩
  obtain ⟨hadmitted, hstate⟩ := hempty.run hburst hids hne hnodup hlength
  have hzero : limiter.sweep 0 ⟨([] ++ ids).map limiter.visited, 0⟩ = _ := sweep_zero limiter rfl
  have hsecond : admittedWithin 0 0 (limiter.run "" ⟨([] ++ ids).map limiter.visited, 0⟩ (limiter.spree 0))
      = limiter.burst.toNat := by
    apply admitted_of_absent (le_refl 0) (le_refl 0)
    · rw [hzero, keys_visited]
      exact hnodup
    · rw [hzero]
      exact fun e he => clientKey_notMem_visited he
  have hclock : ((0 : ℚ) :: (ids.map (fun id => ((0 : ℚ), some id)) ++ limiter.spree 0).map (·.1)).IsChain (· ≤ ·) := by
    have hfrozen : ∀ t ∈ (0 : ℚ) :: (ids.map (fun id => ((0 : ℚ), some id)) ++ limiter.spree 0).map (·.1), t = 0 := by
      intro t ht
      rw [mem_cons, map_append, mem_append, map_map] at ht
      rcases ht with rfl | ht | ht
      · rfl
      · obtain ⟨id, -, rfl⟩ := mem_map.mp ht
        rfl
      · obtain ⟨request, hrequest, rfl⟩ := mem_map.mp ht
        exact time_of_mem_spree hrequest
    refine isChain_iff_pairwise.mpr (pairwise_of_forall_mem_list fun s hs t ht => ?_)
    rw [hfrozen s hs, hfrozen t ht]
  have hbound := hquota 0 "" _ hclock 0 0 (le_refl 0)
  rw [run_append, admittedWithin_append, hadmitted, hstate, hsecond] at hbound
  have hcount : ((ids.length + limiter.burst.toNat : ℕ) : ℚ) = limiter.maxIdentities + limiter.burst := by
    have := limiter.positive.2.1
    exact_mod_cast (by omega : ((ids.length + limiter.burst.toNat : ℕ) : ℤ) = limiter.maxIdentities + limiter.burst)
  have hplace : (1 : ℚ) ≤ limiter.maxIdentities := by exact_mod_cast hidentities
  rw [hcount, sub_self, zero_mul, add_zero] at hbound
  linarith

def roomForTwo : RateLimiter := ⟨{ requestsPerMinute := 60, burst := 2, maxIdentities := 2 }, rfl⟩

/-- Two conversations of one moment crowd the client out: four requests are admitted at once, with a burst of two. -/
theorem roomForTwo_admits_four :
    (roomForTwo.run "ip" (init 0) [(0, some "a"), (0, some "b"), (0, none), (0, none)]).map (·.2.allowed)
        = [true, true, true, true] ∧
      ¬((admittedWithin 0 0 (roomForTwo.run "ip" (init 0) [(0, some "a"), (0, some "b"), (0, none), (0, none)]) : ℚ)
        ≤ roomForTwo.burst + (0 - 0) * (roomForTwo.requestsPerMinute / 60)) := by
  decide +kernel

/-- The quota of a client holds exactly if its bucket is not forgotten before it is full: the burst cannot crowd it out of the table, and a bucket fills within the time to live. -/
theorem quota_iff (limiter : RateLimiter) : limiter.HoldsQuota ↔
    ¬limiter.CrowdsOut ∧ (limiter.burst : ℚ) ≤ limiter.identityTtlSeconds * (limiter.requestsPerMinute / 60) := by
  constructor
  · intro hquota
    refine ⟨fun hcrowd => exceeds_of_crowdsOut hcrowd hquota, ?_⟩
    by_contra hshort
    exact exceeds_of_short_ttl (lt_of_not_ge hshort) hquota
  · intro h
    exact holdsQuota_of h.2 h.1

end RateLimiter

end ContextProxy
