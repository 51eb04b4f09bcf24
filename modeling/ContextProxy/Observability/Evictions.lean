import ContextProxy.Lib.Ranked
import ContextProxy.Observability.LimiterTables

/-!
# Counting evictions

A bucket that makes room for another one is counted under the key of a counter without labels. A sweep passes the number of its buckets as the first argument of `inc`, where the key belongs, so it counts as one, under that number. No bucket is lost (`evictions_counted`): those ever created are in the table, made room or were swept. But as soon as there is a count of both kinds, the metrics cannot be written any more.
-/

namespace ContextProxy

open List

/-! ### The counter -/

/-- The keys of `RATE_LIMIT_EVICTED_TOTAL`: the empty tuple of a counter without labels, and what is given in its place. -/
inductive EvictionKey where
  | unlabelled
  | number (count : ℕ)
  deriving DecidableEq, Repr

def EvictionKey.isNumber : EvictionKey → Bool
  | .unlabelled => false
  | .number _ => true

/-- The order of the keys; only numbers are compared. -/
def EvictionKey.rank : EvictionKey → ℕ
  | .unlabelled => 0
  | .number count => count

abbrev EvictionCounter := List (EvictionKey × ℕ)

namespace EvictionCounter

def reading (counter : EvictionCounter) (key : EvictionKey) : ℕ := (counter.lookup key).getD 0

/-- `Counter.inc`, with a key or without. -/
def inc (counter : EvictionCounter) (key : EvictionKey) : EvictionCounter := Dict.set key (counter.reading key + 1) counter

def keys (counter : EvictionCounter) : List EvictionKey := counter.map Prod.fst

/-- `Counter.render`. An empty tuple and a number cannot be compared, so `sorted` raises if there are both. -/
def render (counter : EvictionCounter) : Option (List String) :=
  if counter.keys.any EvictionKey.isNumber && counter.keys.any (!·.isNumber) then none
  else
    let name := "context_proxy_rate_limit_identities_evicted_total"
    some (["# HELP " ++ name ++ " Rate-limiter identity buckets removed by TTL expiry or capacity eviction (bounded-memory contract).",
      "# TYPE " ++ name ++ " counter"] ++
      (counter.insertionSort fun a b => a.1.rank ≤ b.1.rank).map fun entry => name ++ " " ++ toString entry.2)

theorem reading_inc (counter : EvictionCounter) (key key' : EvictionKey) :
    (counter.inc key).reading key' = counter.reading key' + if key = key' then 1 else 0 := by
  rw [inc, reading, Dict.lookup_set]
  by_cases hkey : key = key'
  · rw [if_pos hkey.symm, if_pos hkey, hkey, Option.getD_some]
  · rw [if_neg (Ne.symm hkey), if_neg hkey, Nat.add_zero, reading]

theorem mem_keys_inc (counter : EvictionCounter) (key key' : EvictionKey) :
    key' ∈ (counter.inc key).keys ↔ key' = key ∨ key' ∈ counter.keys := Dict.mem_keys_set

def after (counter : EvictionCounter) (counted : List EvictionKey) : EvictionCounter := counted.foldl inc counter

theorem after_append (counter : EvictionCounter) (counted counted' : List EvictionKey) :
    counter.after (counted ++ counted') = (counter.after counted).after counted' := foldl_append

theorem reading_after (counter : EvictionCounter) (counted : List EvictionKey) (key : EvictionKey) :
    (counter.after counted).reading key = counter.reading key + counted.count key := by
  induction counted generalizing counter with
  | nil => rfl
  | cons first counted ih =>
    rw [after, foldl_cons, ← after, ih, reading_inc, count_cons]
    simp only [beq_iff_eq]
    omega

theorem mem_keys_after (counter : EvictionCounter) (counted : List EvictionKey) (key : EvictionKey) :
    key ∈ (counter.after counted).keys ↔ key ∈ counted ∨ key ∈ counter.keys := by
  induction counted generalizing counter with
  | nil => simp [after]
  | cons first counted ih =>
    rw [after, foldl_cons, ← after, ih, mem_keys_inc, mem_cons, or_left_comm, or_assoc]

theorem render_eq_none (counter : EvictionCounter) :
    counter.render = none ↔ (∃ count, .number count ∈ counter.keys) ∧ .unlabelled ∈ counter.keys := by
  have hnumber : counter.keys.any EvictionKey.isNumber = true ↔ ∃ count, .number count ∈ counter.keys := by
    rw [any_eq_true]
    refine ⟨?_, fun ⟨count, hkey⟩ => ⟨_, hkey, rfl⟩⟩
    rintro ⟨key, hkey, hnumber⟩
    cases key with
    | unlabelled => cases hnumber
    | number count => exact ⟨count, hkey⟩
  have hplain : counter.keys.any (!·.isNumber) = true ↔ .unlabelled ∈ counter.keys := by
    rw [any_eq_true]
    refine ⟨?_, fun hkey => ⟨_, hkey, rfl⟩⟩
    rintro ⟨key, hkey, hnumber⟩
    cases key with
    | unlabelled => exact hkey
    | number count => cases hnumber
  rw [← hnumber, ← hplain, ← Bool.and_eq_true, render]
  split
  next hboth => exact iff_of_true rfl hboth
  next hboth => exact iff_of_false nofun hboth

end EvictionCounter

namespace RateLimiter

variable (limiter : RateLimiter)

/-! ### The limiter with its counter -/

/-- The sweep, with the count of `_expire_stale`. -/
def sweepNoted (now : ℚ) (st : LimiterState) (counter : EvictionCounter) : LimiterState × EvictionCounter :=
  if limiter.sweepInterval ≤ now - st.lastSweep then
    let stale := st.table.filter fun bucket => limiter.identityTtlSeconds < now - bucket.updated
    (⟨limiter.expireStale now st.table, now⟩, if stale.isEmpty then counter else counter.inc (.number stale.length))
  else (st, counter)

/-- The loop of `_make_room`, with its count. -/
def makeRoomNoted : ℕ → List LiveBucket → EvictionCounter → List LiveBucket × EvictionCounter
  | 0, table, counter => (table, counter)
  | fuel + 1, table, counter =>
    if limiter.maxIdentities ≤ table.length then makeRoomNoted fuel (evictColdest table) (counter.inc .unlabelled)
    else (table, counter)

/-- `_consume`. -/
def consumeNoted (key : String) (now : ℚ) (st : LimiterState) (counter : EvictionCounter) : Bool × LimiterState × EvictionCounter :=
  let (swept, counter) := limiter.sweepNoted now st counter
  let (table, counter) :=
    if swept.table.any (·.key = key) then (swept.table, counter)
    else limiter.makeRoomNoted swept.table.length swept.table counter
  let tokens := match table.find? (·.key = key) with
    | some bucket => min (limiter.burst : ℚ) (bucket.tokens + (now - bucket.updated) * limiter.rate)
    | none => limiter.burst
  if 1 ≤ tokens then (true, { swept with table := putBucket table ⟨⟨tokens - 1, now⟩, key⟩ }, counter)
  else (false, { swept with table := putBucket table ⟨⟨tokens, now⟩, key⟩ }, counter)

/-- `admit`. -/
def admitNoted (client : String) (conversation : Option String) (now : ℚ) (st : LimiterState) (counter : EvictionCounter) :
    AdmissionDecision × LimiterState × EvictionCounter :=
  let clientKey := limiter.clientKey client
  let (granted, st, counter) := limiter.consumeNoted clientKey now st counter
  if granted then
    match conversation.filter (· ≠ "") with
    | none => ({ allowed := true }, st, counter)
    | some conversation =>
      let conversationKey := limiter.conversationKey conversation
      let (granted, st, counter) := limiter.consumeNoted conversationKey now st counter
      if granted then ({ allowed := true }, st, counter)
      else
        ({ allowed := false, scope := some .conversation, retryAfter := limiter.secondsUntilToken conversationKey st },
          st, counter)
  else ({ allowed := false, scope := some .client, retryAfter := limiter.secondsUntilToken clientKey st }, st, counter)

/-! ### What happens to the table -/

/-- What one bucket's use does to the table: how many buckets the sweep removes, how many make room, and how many are new. -/
structure TableEffect where
  stale : ℕ
  evicted : ℕ
  created : ℕ

def TableEffect.counted (effect : TableEffect) : List EvictionKey :=
  (if effect.stale = 0 then [] else [.number effect.stale]) ++ List.replicate effect.evicted .unlabelled

def effectOf (key : String) (now : ℚ) (st : LimiterState) : TableEffect where
  stale := st.table.length - (limiter.sweep now st).table.length
  evicted := (limiter.sweep now st).table.length - (limiter.tableFor key now st).length
  created := if (limiter.sweep now st).table.any (·.key = key) then 0 else 1

/-- A request uses the bucket of its client, and that of its conversation if the first one grants it. -/
def admitEffects (client : String) (conversation : Option String) (now : ℚ) (st : LimiterState) : List TableEffect :=
  let effect := limiter.effectOf (limiter.clientKey client) now st
  let (granted, st) := limiter.consume (limiter.clientKey client) now st
  if granted then
    match conversation.filter (· ≠ "") with
    | none => [effect]
    | some conversation => [effect, limiter.effectOf (limiter.conversationKey conversation) now st]
  else [effect]

/-! ### One bucket -/

theorem length_expireStale (now : ℚ) (table : List LiveBucket) :
    (table.filter fun bucket => limiter.identityTtlSeconds < now - bucket.updated).length +
      (limiter.expireStale now table).length = table.length := by
  have hsplit := length_eq_length_filter_add (l := table) fun bucket => limiter.identityTtlSeconds < now - bucket.updated
  have hkept : limiter.expireStale now table =
      table.filter fun bucket => !decide (limiter.identityTtlSeconds < now - bucket.updated) :=
    filter_congr fun bucket _ => decide_not
  rw [hkept, ← hsplit]

theorem sweepNoted_eq (now : ℚ) (st : LimiterState) (counter : EvictionCounter) : limiter.sweepNoted now st counter =
      (limiter.sweep now st, counter.after
        (if st.table.length - (limiter.sweep now st).table.length = 0 then []
          else [.number (st.table.length - (limiter.sweep now st).table.length)])) := by
  rw [sweepNoted, sweep]
  split
  next =>
    have hlength := limiter.length_expireStale now st.table
    have hstale : st.table.length - (limiter.expireStale now st.table).length =
        (st.table.filter fun bucket => limiter.identityTtlSeconds < now - bucket.updated).length := by omega
    rw [hstale]
    cases st.table.filter fun bucket => limiter.identityTtlSeconds < now - bucket.updated <;> rfl
  next =>
    rw [Nat.sub_self]
    rfl

variable {limiter} in
theorem ne_nil_of_full {table : List LiveBucket} (h : limiter.maxIdentities ≤ table.length) : table ≠ [] := by
  rintro rfl
  have hpos := limiter.positive.2.2.1
  simp only [length_nil, Nat.cast_zero] at h
  omega

theorem length_makeRoomLoop_le (fuel : ℕ) (table : List LiveBucket) :
    (limiter.makeRoomLoop fuel table).length ≤ table.length := by
  induction fuel generalizing table with
  | zero => exact Nat.le_refl _
  | succ fuel ih =>
    rw [makeRoomLoop]
    split
    next hfull =>
      have hlength := length_evictColdest (ne_nil_of_full hfull)
      have hle := ih (evictColdest table)
      omega
    next => exact Nat.le_refl _

theorem makeRoomNoted_eq (fuel : ℕ) (table : List LiveBucket) (counter : EvictionCounter) :
    limiter.makeRoomNoted fuel table counter =
      (limiter.makeRoomLoop fuel table,
        counter.after (List.replicate (table.length - (limiter.makeRoomLoop fuel table).length) .unlabelled)) := by
  induction fuel generalizing table counter with
  | zero =>
    rw [makeRoomLoop, Nat.sub_self]
    rfl
  | succ fuel ih =>
    rw [makeRoomNoted, makeRoomLoop]
    split
    next hfull =>
      have hlength := length_evictColdest (ne_nil_of_full hfull)
      have hle := limiter.length_makeRoomLoop_le fuel (evictColdest table)
      have hcount : table.length - (limiter.makeRoomLoop fuel (evictColdest table)).length =
          (evictColdest table).length - (limiter.makeRoomLoop fuel (evictColdest table)).length + 1 := by omega
      rw [ih, hcount, replicate_succ]
      rfl
    next =>
      rw [Nat.sub_self]
      rfl

/-- `_consume` counts what it does to the table, and is otherwise as it was. -/
theorem consumeNoted_eq (key : String) (now : ℚ) (st : LimiterState) (counter : EvictionCounter) :
    limiter.consumeNoted key now st counter =
      ((limiter.consume key now st).1, (limiter.consume key now st).2,
        counter.after (limiter.effectOf key now st).counted) := by
  have hroom : ∀ counter, (if (limiter.sweep now st).table.any (·.key = key) then ((limiter.sweep now st).table, counter)
      else limiter.makeRoomNoted (limiter.sweep now st).table.length (limiter.sweep now st).table counter) =
      (limiter.tableFor key now st,
        counter.after (List.replicate (limiter.effectOf key now st).evicted .unlabelled)) := by
    intro counter
    rw [effectOf, tableFor]
    split
    next =>
      rw [Nat.sub_self]
      rfl
    next => exact limiter.makeRoomNoted_eq _ _ counter
  rw [consumeNoted, sweepNoted_eq]
  dsimp only
  rw [hroom, ← EvictionCounter.after_append, consume_eq]
  change (if 1 ≤ limiter.tokensFor key now st then _ else _) = _
  split <;> rfl

theorem admitNoted_eq (client : String) (conversation : Option String) (now : ℚ) (st : LimiterState) (counter : EvictionCounter) :
    limiter.admitNoted client conversation now st counter =
      ((limiter.admitRequest client conversation now st).1, (limiter.admitRequest client conversation now st).2,
        counter.after ((limiter.admitEffects client conversation now st).flatMap TableEffect.counted)) := by
  rw [admitNoted, admitRequest, admitEffects, consumeNoted_eq]
  generalize limiter.effectOf (limiter.clientKey client) now st = effect
  generalize limiter.consume (limiter.clientKey client) now st = first
  obtain ⟨granted, st⟩ := first
  have hone : [effect].flatMap TableEffect.counted = effect.counted := flatMap_singleton ..
  cases granted with
  | false => simp only [Bool.false_eq_true, if_false, hone]
  | true =>
    cases conversation.filter (· ≠ "") with
    | none => simp only [if_true, hone]
    | some conversation =>
      simp only [if_true, consumeNoted_eq, flatMap_cons, flatMap_nil, append_nil, EvictionCounter.after_append]
      generalize limiter.consume (limiter.conversationKey conversation) now st = second
      obtain ⟨granted, st⟩ := second
      cases granted <;> rfl

/-! ### Whole runs -/

/-- Requests of any clients, one after the other, each with its time, its client and the conversation it names. -/
def admitAll (st : LimiterState) (calls : List (ℚ × String × Option String)) : LimiterState :=
  calls.foldl (fun st call => (limiter.admitRequest call.2.1 call.2.2 call.1 st).2) st

def admitAllNoted (st : LimiterState) (counter : EvictionCounter) (calls : List (ℚ × String × Option String)) :
    LimiterState × EvictionCounter :=
  calls.foldl (fun state call => (limiter.admitNoted call.2.1 call.2.2 call.1 state.1 state.2).2) (st, counter)

def effects : LimiterState → List (ℚ × String × Option String) → List TableEffect
  | _, [] => []
  | st, call :: calls =>
    limiter.admitEffects call.2.1 call.2.2 call.1 st ++ effects (limiter.admitRequest call.2.1 call.2.2 call.1 st).2 calls

theorem admitAllNoted_eq (st : LimiterState) (counter : EvictionCounter) (calls : List (ℚ × String × Option String)) :
    limiter.admitAllNoted st counter calls =
      (limiter.admitAll st calls, counter.after ((limiter.effects st calls).flatMap TableEffect.counted)) := by
  induction calls generalizing st counter with
  | nil => rfl
  | cons call calls ih =>
    rw [admitAllNoted, foldl_cons, admitNoted_eq, ← admitAllNoted, ih, effects, flatMap_append,
      EvictionCounter.after_append]
    rfl

/-- The buckets of a table, and what becomes of them and of those that are created. -/
def Balanced (st st' : LimiterState) (effects : List TableEffect) : Prop :=
  st.table.length + (effects.map (·.created)).sum =
    st'.table.length + (effects.map (·.stale)).sum + (effects.map (·.evicted)).sum

variable {limiter} in
theorem Balanced.append {st st' st'' : LimiterState} {effects effects' : List TableEffect} (h : Balanced st st' effects)
    (h' : Balanced st' st'' effects') : Balanced st st'' (effects ++ effects') := by
  unfold Balanced at *
  simp only [map_append, sum_append]
  omega

theorem length_tableFor_le (key : String) (now : ℚ) (st : LimiterState) :
    (limiter.tableFor key now st).length ≤ (limiter.sweep now st).table.length := by
  rw [tableFor]
  split
  next => exact Nat.le_refl _
  next => exact limiter.length_makeRoomLoop_le _ _

theorem length_putBucket_tableFor_eq (key : String) (now : ℚ) (st : LimiterState) (bucket : Bucket ℚ) :
    (putBucket (limiter.tableFor key now st) ⟨bucket, key⟩).length =
      (limiter.tableFor key now st).length + (limiter.effectOf key now st).created := by
  rw [effectOf, tableFor]
  dsimp only
  split
  next hany => exact length_putBucket_of_any hany
  next hany =>
    rw [putBucket_of_absent, length_append, length_singleton]
    intro e he
    simp only [any_eq_true, decide_eq_true_eq, not_exists, not_and] at hany
    exact hany e (makeRoom_subset he)

theorem balanced_consume (key : String) (now : ℚ) (st : LimiterState) :
    Balanced st (limiter.consume key now st).2 [limiter.effectOf key now st] := by
  have hsweep : (limiter.sweep now st).table.length ≤ st.table.length := length_sweep_le
  have hroom := limiter.length_tableFor_le key now st
  have hput := limiter.length_putBucket_tableFor_eq key now st
  have hstale : (limiter.effectOf key now st).stale = st.table.length - (limiter.sweep now st).table.length := rfl
  have hevicted : (limiter.effectOf key now st).evicted =
    (limiter.sweep now st).table.length - (limiter.tableFor key now st).length := rfl
  rw [Balanced, consume_eq]
  simp only [map_singleton, sum_singleton]
  split
  next =>
    rw [hput]
    omega
  next =>
    rw [hput]
    omega

theorem balanced_admit (client : String) (conversation : Option String) (now : ℚ) (st : LimiterState) :
    Balanced st (limiter.admitRequest client conversation now st).2 (limiter.admitEffects client conversation now st) := by
  have hfirst := limiter.balanced_consume (limiter.clientKey client) now st
  rw [admitRequest, admitEffects]
  generalize limiter.effectOf (limiter.clientKey client) now st = effect at hfirst
  generalize limiter.consume (limiter.clientKey client) now st = first at hfirst
  obtain ⟨granted, st'⟩ := first
  cases granted with
  | false => exact hfirst
  | true =>
    cases conversation.filter (· ≠ "") with
    | none => exact hfirst
    | some conversation =>
      have hsecond := limiter.balanced_consume (limiter.conversationKey conversation) now st'
      have hboth := hfirst.append hsecond
      simp only [if_true]
      generalize limiter.consume (limiter.conversationKey conversation) now st' = second at hboth
      obtain ⟨granted, st''⟩ := second
      cases granted <;> exact hboth

theorem balanced_admitAll (st : LimiterState) (calls : List (ℚ × String × Option String)) :
    Balanced st (limiter.admitAll st calls) (limiter.effects st calls) := by
  induction calls generalizing st with
  | nil => exact rfl
  | cons call calls ih => exact (limiter.balanced_admit call.2.1 call.2.2 call.1 st).append (ih _)

/-! ### What the counter shows -/

theorem count_unlabelled (effect : TableEffect) : effect.counted.count .unlabelled = effect.evicted := by
  by_cases hstale : effect.stale = 0
  · simp [TableEffect.counted, hstale]
  · simp [TableEffect.counted, hstale]

theorem count_number (effect : TableEffect) (count : ℕ) :
    effect.counted.count (.number (count + 1)) = if effect.stale = count + 1 then 1 else 0 := by
  by_cases hstale : effect.stale = 0
  · simp [TableEffect.counted, hstale, count_replicate]
  · simp [TableEffect.counted, hstale, count_replicate, count_cons]

theorem count_number_flatMap (effects : List TableEffect) (count : ℕ) :
    (effects.flatMap TableEffect.counted).count (.number (count + 1)) = effects.countP (·.stale = count + 1) := by
  induction effects with
  | nil => rfl
  | cons effect effects ih =>
    rw [flatMap_cons, count_append, ih, count_number, countP_cons, Nat.add_comm]
    simp only [decide_eq_true_eq]

theorem number_mem_counted (effect : TableEffect) (count : ℕ) :
    .number count ∈ effect.counted ↔ effect.stale = count ∧ effect.stale ≠ 0 := by
  by_cases hstale : effect.stale = 0
  · simp [TableEffect.counted, hstale]
  · simp [TableEffect.counted, hstale, eq_comm]

theorem unlabelled_mem_counted (effect : TableEffect) : .unlabelled ∈ effect.counted ↔ effect.evicted ≠ 0 := by
  by_cases hstale : effect.stale = 0
  · simp [TableEffect.counted, hstale]
  · simp [TableEffect.counted, hstale]

/-- Every run of the limiter: the counter has the buckets that made room, and for each number the sweeps that removed as many; all buckets are accounted for; and the metrics can be written unless both kinds of removal have occurred. -/
theorem evictions_counted (start : ℚ) (calls : List (ℚ × String × Option String)) :
    let st := (limiter.admitAllNoted (init start) [] calls).1
    let counter := (limiter.admitAllNoted (init start) [] calls).2
    let effects := limiter.effects (init start) calls
    st = limiter.admitAll (init start) calls ∧
    counter.reading .unlabelled = (effects.map (·.evicted)).sum ∧
    (∀ count, counter.reading (.number (count + 1)) = effects.countP (·.stale = count + 1)) ∧
    (effects.map (·.created)).sum = st.table.length + (effects.map (·.stale)).sum + (effects.map (·.evicted)).sum ∧
    (counter.render = none ↔ (∃ effect ∈ effects, effect.stale ≠ 0) ∧ ∃ effect ∈ effects, effect.evicted ≠ 0) := by
  have hzero : ∀ key, EvictionCounter.reading [] key = 0 := fun _ => rfl
  rw [admitAllNoted_eq]
  refine ⟨rfl, ?_, ?_, ?_, ?_⟩
  · rw [EvictionCounter.reading_after, hzero, Nat.zero_add, count_flatMap]
    congr 2
    exact funext count_unlabelled
  · intro count
    rw [EvictionCounter.reading_after, hzero, Nat.zero_add, count_number_flatMap]
  · have hbalanced := limiter.balanced_admitAll (init start) calls
    rw [Balanced] at hbalanced
    simpa [init] using hbalanced
  · have hkeys : ∀ key, key ∈ EvictionCounter.keys [] ↔ False := fun _ => iff_of_false not_mem_nil id
    simp only [EvictionCounter.render_eq_none, EvictionCounter.mem_keys_after, hkeys, or_false, mem_flatMap,
      number_mem_counted, unlabelled_mem_counted]
    refine and_congr_left' ⟨?_, ?_⟩
    · rintro ⟨count, effect, hmem, -, hstale⟩
      exact ⟨effect, hmem, hstale⟩
    · rintro ⟨effect, hmem, hstale⟩
      exact ⟨effect.stale, effect, hmem, rfl, hstale⟩

end RateLimiter

/-- With room for one client, the second one takes the place of the first, and after an hour without requests it is swept itself: from then on the metrics cannot be written. -/
example : (onePlace.admitAllNoted (RateLimiter.init 0) [] [(0, "a", none), (1, "b", none), (4000, "c", none)]).2.render = none := by
  decide +kernel

end ContextProxy
