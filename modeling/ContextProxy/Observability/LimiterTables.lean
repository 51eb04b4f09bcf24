import ContextProxy.Lib.Ranked
import ContextProxy.Observability.RateLimiter

/-!
# The tables of the rate limiter

The limiter keeps its buckets in two dicts: `_tokens`, which inserts a full bucket when a missing key is read, and `_updated`. `del` of a missing key would raise, and so would the search for the coldest bucket in an empty dict. None of this happens: every call leaves the two dicts as the columns of one table (`LimiterTables.Columns`), on which it does what the limiter of `RateLimiter` does.
-/

namespace ContextProxy

open List

/-! ### The two dicts -/

/-- `_tokens`, `_updated` and `_last_sweep`. -/
structure LimiterTables where
  tokens : List (String × ℚ) := []
  updated : List (String × ℚ) := []
  lastSweep : ℚ

/-- `del dict[key]`, which raises on a missing key. -/
def deleteKey (key : String) (dict : List (String × ℚ)) : Option (List (String × ℚ)) :=
  if dict.any (·.1 = key) then some (dict.eraseP (·.1 = key)) else none

namespace LimiterTables

/-- `del self._tokens[k]; del self._updated[k]`. -/
def forget (tables : LimiterTables) (key : String) : Option LimiterTables := do
  let tokens ← deleteKey key tables.tokens
  let updated ← deleteKey key tables.updated
  return { tables with tokens, updated }

end LimiterTables

namespace RateLimiter

variable (limiter : RateLimiter)

/-- `_expire_stale`. -/
def expireTables (now : ℚ) (tables : LimiterTables) : Option LimiterTables :=
  let stale := (tables.updated.filter fun entry => limiter.identityTtlSeconds < now - entry.2).map Prod.fst
  stale.foldlM LimiterTables.forget tables

/-- The loop of `_make_room`; `min` raises on an empty dict. -/
def roomLoop : ℕ → LimiterTables → Option LimiterTables
  | 0, tables => some tables
  | fuel + 1, tables =>
    if limiter.maxIdentities ≤ tables.tokens.length then do
      let coldest ← tables.updated.argmin Prod.snd
      let tables ← tables.forget coldest.1
      roomLoop fuel tables
    else some tables

/-- The sweep at the start of `_consume`. -/
def sweepTables (now : ℚ) (tables : LimiterTables) : Option LimiterTables :=
  if limiter.sweepInterval ≤ now - tables.lastSweep then
    (limiter.expireTables now tables).map fun swept => { swept with lastSweep := now }
  else some tables

/-- `_make_room`, for a key that is not there. -/
def roomFor (key : String) (tables : LimiterTables) : Option LimiterTables :=
  if tables.updated.any (·.1 = key) then some tables else limiter.roomLoop tables.tokens.length tables

/-- The rest of `_consume`. Reading a missing key of the default dict inserts it. -/
def takeToken (key : String) (now : ℚ) (tables : LimiterTables) : Bool × LimiterTables :=
  let stored := (tables.tokens.lookup key).getD limiter.burst
  let inserted := if tables.tokens.any (·.1 = key) then tables.tokens else tables.tokens ++ [(key, (limiter.burst : ℚ))]
  let tokens := match tables.updated.lookup key with
    | some last => min (limiter.burst : ℚ) (stored + (now - last) * limiter.rate)
    | none => stored
  let updated := Dict.set key now tables.updated
  if 1 ≤ tokens then (true, { tables with tokens := Dict.set key (tokens - 1) inserted, updated })
  else (false, { tables with tokens := Dict.set key tokens inserted, updated })

/-- `_consume`. -/
def consumeTables (key : String) (now : ℚ) (tables : LimiterTables) : Option (Bool × LimiterTables) := do
  let tables ← limiter.sweepTables now tables
  let tables ← limiter.roomFor key tables
  return limiter.takeToken key now tables

/-- `_seconds_until_token`, which reads with `get` and inserts nothing. -/
def secondsUntilTokenIn (key : String) (tables : LimiterTables) : ℤ :=
  let tokens := (tables.tokens.lookup key).getD limiter.burst
  let deficit := 1 - tokens
  if deficit ≤ 0 then 1 else max 1 (⌊deficit / limiter.rate⌋ + 1)

/-- `admit`. -/
def admitTables (client : String) (conversation : Option String) (now : ℚ) (tables : LimiterTables) :
    Option (AdmissionDecision × LimiterTables) := do
  let clientKey := limiter.clientKey client
  let (granted, tables) ← limiter.consumeTables clientKey now tables
  if granted then
    match conversation.filter (· ≠ "") with
    | none => return ({ allowed := true }, tables)
    | some conversation =>
      let conversationKey := limiter.conversationKey conversation
      let (granted, tables) ← limiter.consumeTables conversationKey now tables
      if granted then return ({ allowed := true }, tables)
      else
        let retryAfter := limiter.secondsUntilTokenIn conversationKey tables
        return ({ allowed := false, scope := some .conversation, retryAfter }, tables)
  else
    let retryAfter := limiter.secondsUntilTokenIn clientKey tables
    return ({ allowed := false, scope := some .client, retryAfter }, tables)

inductive LimiterCall where
  | admission (client : String) (conversation : Option String)
  | allow (key : String)
  | retryAfter (key : String)
  | reset

inductive LimiterAnswer where
  | decision (decision : AdmissionDecision)
  | allowed (allowed : Bool)
  | seconds (seconds : ℤ)
  | done

def performTables (now : ℚ) (tables : LimiterTables) : LimiterCall → Option (LimiterAnswer × LimiterTables)
  | .admission client conversation => do
      let (decision, tables) ← limiter.admitTables client conversation now tables
      return (.decision decision, tables)
  | .allow key => do
      let (decision, tables) ← limiter.admitTables key none now tables
      return (.allowed decision.allowed, tables)
  | .retryAfter key => some (.seconds (limiter.secondsUntilTokenIn (limiter.clientKey key) tables), tables)
  | .reset => some (.done, { tables with tokens := [], updated := [] })

def runTables (tables : LimiterTables) (calls : List (ℚ × LimiterCall)) : Option LimiterTables :=
  calls.foldlM (fun tables call => (limiter.performTables call.1 tables call.2).map Prod.snd) tables

end RateLimiter

/-! ### One table -/

section Columns

variable {table : List LiveBucket} {key : String} {f : LiveBucket → ℚ}

def column (f : LiveBucket → ℚ) (table : List LiveBucket) : List (String × ℚ) := table.map fun e => (e.key, f e)

theorem any_column : (column f table).any (·.1 = key) = table.any (·.key = key) := by
  rw [column, any_map]
  rfl

theorem length_column : (column f table).length = table.length := length_map _

theorem keys_column : (column f table).map Prod.fst = table.map (·.key) := by
  rw [column, map_map]
  rfl

theorem lookup_column : (column f table).lookup key = (table.find? (·.key = key)).map f := by
  induction table with
  | nil => rfl
  | cons e table ih =>
    rw [column] at ih ⊢
    rw [map_cons, Dict.lookup_cons, find?_cons]
    by_cases hkey : e.key = key
    · simp [hkey]
    · rw [if_neg (Ne.symm hkey)]
      simpa [hkey] using ih

theorem deleteKey_column (h : table.any (·.key = key) = true) :
    deleteKey key (column f table) = some (column f (table.eraseP (·.key = key))) := by
  rw [deleteKey, any_column, if_pos h, column, column, eraseP_map]
  rfl

theorem column_putBucket (h : (table.map (·.key)).Nodup) (bucket : LiveBucket) :
    column f (putBucket table bucket) = Dict.set bucket.key (f bucket) (column f table) := by
  induction table with
  | nil => rfl
  | cons e table ih =>
    rw [map_cons, nodup_cons] at h
    have ih := ih h.2
    by_cases hkey : e.key = bucket.key
    · have hrest : table.map (fun old => if old.key = bucket.key then bucket else old) = table := by
        refine (map_congr_left fun x hx => ?_).trans (map_id table)
        exact if_neg fun hx' => h.1 (mem_map.mpr ⟨x, hx, hx'.trans hkey.symm⟩)
      rw [putBucket, if_pos (by simp [hkey]), map_cons, if_pos hkey, hrest]
      simp [column, Dict.set, hkey]
    · have hput : putBucket (e :: table) bucket = e :: putBucket table bucket := by
        rw [putBucket, putBucket, any_cons, decide_eq_false hkey, Bool.false_or]
        split
        · rw [map_cons, if_neg hkey]
        · rfl
      rw [hput, column, map_cons, ← column, ih]
      simp [column, Dict.set, hkey]

theorem set_inserted {dict : List (String × ℚ)} (default value : ℚ) :
    Dict.set key value (if dict.any (·.1 = key) then dict else dict ++ [(key, default)]) = Dict.set key value dict := by
  split
  · rfl
  · rename_i habsent
    induction dict with
    | nil => simp [Dict.set]
    | cons entry dict ih =>
      simp only [any_cons, Bool.or_eq_true, decide_eq_true_eq, not_or] at habsent
      rw [cons_append, Dict.set, Dict.set, if_neg habsent.1, if_neg habsent.1, ih habsent.2]

theorem argmin_column : (column (·.updated) table).argmin Prod.snd = (table.argmin (·.updated)).map fun e => (e.key, e.updated) := by
  induction table using List.reverseRecOn with
  | nil => rfl
  | append_singleton table e ih =>
    rw [column] at ih ⊢
    rw [map_append, map_singleton, argmin_concat, argmin_concat, ih]
    cases table.argmin (·.updated) with
    | none => rfl
    | some coldest =>
      simp only [Option.map_some]
      split <;> rfl

end Columns

namespace LimiterTables

def ofState (st : LimiterState) : LimiterTables where
  tokens := column (·.tokens) st.table
  updated := column (·.updated) st.table
  lastSweep := st.lastSweep

theorem forget_ofState {st : LimiterState} {key : String} (h : st.table.any (·.key = key) = true) :
    (ofState st).forget key = some (ofState { st with table := st.table.eraseP (·.key = key) }) := by
  rw [forget, ofState, deleteKey_column h, deleteKey_column h]
  rfl

theorem eraseP_eq_filter {table : List LiveBucket} {key : String} (h : (table.map (·.key)).Nodup) :
    table.eraseP (·.key = key) = table.filter (·.key ≠ key) := by
  induction table with
  | nil => rfl
  | cons e table ih =>
    rw [map_cons, nodup_cons] at h
    by_cases hkey : e.key = key
    · rw [eraseP_cons_of_pos (by simpa using hkey), filter_cons_of_neg (by simpa using hkey),
        filter_eq_self.mpr fun x hx => ?_]
      simp only [decide_eq_true_eq]
      intro hx'
      exact h.1 (mem_map.mpr ⟨x, hx, hx'.trans hkey.symm⟩)
    · rw [eraseP_cons_of_neg (by simpa using hkey), filter_cons_of_pos (by simpa using hkey), ih h.2]

theorem forget_all {st : LimiterState} {keys : List String} (hnodup : (st.table.map (·.key)).Nodup) (hkeys : keys.Nodup)
    (h : ∀ key ∈ keys, key ∈ st.table.map (·.key)) :
    keys.foldlM forget (ofState st) = some (ofState { st with table := st.table.filter (·.key ∉ keys) }) := by
  induction keys generalizing st with
  | nil =>
    rw [foldlM_nil]
    simp
  | cons key keys ih =>
    obtain ⟨hkey, hrest⟩ := forall_mem_cons.mp h
    obtain ⟨hnew, hkeys⟩ := nodup_cons.mp hkeys
    obtain ⟨e, he, hekey⟩ := mem_map.mp hkey
    have hany : st.table.any (·.key = key) = true := any_eq_true.mpr ⟨e, he, decide_eq_true hekey⟩
    rw [foldlM_cons, forget_ofState hany, eraseP_eq_filter hnodup]
    refine (ih (hnodup.sublist (filter_sublist.map _)) hkeys fun k hk => ?_).trans ?_
    · obtain ⟨x, hx, hxkey⟩ := mem_map.mp (hrest k hk)
      refine mem_map.mpr ⟨x, mem_filter.mpr ⟨hx, ?_⟩, hxkey⟩
      simp only [decide_eq_true_eq]
      intro heq
      exact hnew (heq.symm.trans hxkey ▸ hk)
    · simp only [filter_filter]
      congr 3
      apply filter_congr
      intro x _
      simp [Bool.and_comm]

end LimiterTables

namespace RateLimiter

open LimiterTables

variable {limiter : RateLimiter} {st : LimiterState} {key : String} {now : ℚ}

theorem expireTables_ofState (h : (st.table.map (·.key)).Nodup) :
    limiter.expireTables now (ofState st) = some (ofState { st with table := limiter.expireStale now st.table }) := by
  have hstale : ((ofState st).updated.filter fun entry => limiter.identityTtlSeconds < now - entry.2).map Prod.fst
      = (st.table.filter fun e => limiter.identityTtlSeconds < now - e.updated).map (·.key) := by
    change ((st.table.map fun e => (e.key, e.updated)).filter _).map Prod.fst = _
    rw [filter_map, map_map]
    rfl
  rw [expireTables, hstale, forget_all h (h.sublist (filter_sublist.map _)) fun k hk => ?_]
  · congr 3
    apply filter_congr
    intro e he
    rw [decide_eq_decide, mem_map]
    -- a key names one bucket, so its key is among the stale ones exactly if the bucket is stale
    constructor
    · intro hkept hstale
      exact hkept ⟨e, mem_filter.mpr ⟨he, decide_eq_true hstale⟩, rfl⟩
    · intro hfresh ⟨x, hx, hkey⟩
      obtain ⟨hx, hstale⟩ := mem_filter.mp hx
      rw [inj_on_of_nodup_map h hx he hkey] at hstale
      exact hfresh (of_decide_eq_true hstale)
  · obtain ⟨e, he, rfl⟩ := mem_map.mp hk
    exact mem_map_of_mem (mem_of_mem_filter he)

theorem roomLoop_ofState (fuel : ℕ) (st : LimiterState) :
    limiter.roomLoop fuel (ofState st) = some (ofState { st with table := limiter.makeRoomLoop fuel st.table }) := by
  induction fuel generalizing st with
  | zero => rfl
  | succ fuel ih =>
    have hlength : (ofState st).tokens.length = st.table.length := length_column
    have hargmin : (ofState st).updated.argmin Prod.snd = (st.table.argmin (·.updated)).map fun e => (e.key, e.updated) :=
      argmin_column
    rw [roomLoop, makeRoomLoop, hlength]
    by_cases hfull : limiter.maxIdentities ≤ st.table.length
    · rw [if_pos hfull, if_pos hfull, hargmin, evictColdest]
      cases hcoldest : st.table.argmin (·.updated) with
      | none =>
        rw [argmin_eq_none.mp hcoldest] at hfull
        have := limiter.positive.2.2.1
        simp only [length_nil, Nat.cast_zero] at hfull
        omega
      | some coldest =>
        have hany : st.table.any (·.key = coldest.key) = true :=
          any_eq_true.mpr ⟨coldest, argmin_mem hcoldest, decide_eq_true rfl⟩
        simp only [Option.map_some, Option.bind_eq_bind, Option.bind_some, forget_ofState hany]
        exact ih _
    · rw [if_neg hfull, if_neg hfull]

/-- The table `_consume` works on: swept, and with room for the key. -/
def tableFor (limiter : RateLimiter) (key : String) (now : ℚ) (st : LimiterState) : List LiveBucket :=
  if (limiter.sweep now st).table.any (·.key = key) then (limiter.sweep now st).table
  else limiter.makeRoom (limiter.sweep now st).table

/-- What `_consume` finds in the bucket of the key. -/
def tokensFor (limiter : RateLimiter) (key : String) (now : ℚ) (st : LimiterState) : ℚ :=
  match (limiter.tableFor key now st).find? (·.key = key) with
  | some bucket => min (limiter.burst : ℚ) (bucket.tokens + (now - bucket.updated) * limiter.rate)
  | none => limiter.burst

theorem consume_eq : limiter.consume key now st =
    if 1 ≤ limiter.tokensFor key now st then
      (true, ⟨putBucket (limiter.tableFor key now st) ⟨⟨limiter.tokensFor key now st - 1, now⟩, key⟩,
        (limiter.sweep now st).lastSweep⟩)
    else
      (false, ⟨putBucket (limiter.tableFor key now st) ⟨⟨limiter.tokensFor key now st, now⟩, key⟩,
        (limiter.sweep now st).lastSweep⟩) := rfl

theorem nodup_tableFor (h : (st.table.map (·.key)).Nodup) : ((limiter.tableFor key now st).map (·.key)).Nodup := by
  rw [tableFor]
  split
  · exact nodup_sweep h
  · exact nodup_makeRoom (nodup_sweep h)

theorem sweepTables_ofState (h : (st.table.map (·.key)).Nodup) :
    limiter.sweepTables now (ofState st) = some (ofState (limiter.sweep now st)) := by
  have hlast : (ofState st).lastSweep = st.lastSweep := rfl
  rw [sweepTables, sweep, hlast]
  split
  · rw [expireTables_ofState h]
    rfl
  · rfl

theorem roomFor_ofState : limiter.roomFor key (ofState (limiter.sweep now st))
      = some (ofState ⟨limiter.tableFor key now st, (limiter.sweep now st).lastSweep⟩) := by
  have hany : (ofState (limiter.sweep now st)).updated.any (·.1 = key) = (limiter.sweep now st).table.any (·.key = key) :=
    any_column
  have hlength : (ofState (limiter.sweep now st)).tokens.length = (limiter.sweep now st).table.length := length_column
  rw [roomFor, tableFor, hany, hlength]
  split
  · rfl
  · exact roomLoop_ofState _ _

theorem takeToken_ofState (h : (st.table.map (·.key)).Nodup) :
    limiter.takeToken key now (ofState ⟨limiter.tableFor key now st, (limiter.sweep now st).lastSweep⟩)
      = ((limiter.consume key now st).1, ofState (limiter.consume key now st).2) := by
  have hnodup : ((limiter.tableFor key now st).map (·.key)).Nodup := nodup_tableFor h
  have htokens : (match (column (·.updated) (limiter.tableFor key now st)).lookup key with
      | some last => min (limiter.burst : ℚ) (((column (·.tokens) (limiter.tableFor key now st)).lookup key).getD limiter.burst
          + (now - last) * limiter.rate)
      | none => ((column (·.tokens) (limiter.tableFor key now st)).lookup key).getD limiter.burst)
        = limiter.tokensFor key now st := by
    rw [lookup_column, lookup_column, tokensFor]
    cases (limiter.tableFor key now st).find? (·.key = key) <;> rfl
  simp only [takeToken, set_inserted]
  simp only [ofState, htokens, consume_eq]
  split <;> simp only [column_putBucket hnodup]

/-- On the columns of a table `_consume` raises nothing, and does what it does on the table. -/
theorem consumeTables_ofState (h : (st.table.map (·.key)).Nodup) : limiter.consumeTables key now (ofState st)
      = some ((limiter.consume key now st).1, ofState (limiter.consume key now st).2) := by
  rw [consumeTables, sweepTables_ofState h, Option.bind_eq_bind, Option.bind_some, roomFor_ofState, Option.bind_some,
    takeToken_ofState h]
  rfl

theorem secondsUntilTokenIn_ofState :
    limiter.secondsUntilTokenIn key (ofState st) = limiter.secondsUntilToken key st := by
  have htokens : ((ofState st).tokens.lookup key).getD limiter.burst
      = match st.table.find? (·.key = key) with
        | some bucket => bucket.tokens
        | none => limiter.burst := by
    change ((column _ st.table).lookup key).getD _ = _
    rw [lookup_column]
    cases st.table.find? (·.key = key) <;> rfl
  exact congrArg (fun tokens : ℚ => if 1 - tokens ≤ 0 then (1 : ℤ) else max 1 (⌊(1 - tokens) / limiter.rate⌋ + 1)) htokens

theorem nodup_consume (h : (st.table.map (·.key)).Nodup) : ((limiter.consume key now st).2.table.map (·.key)).Nodup := by
  rw [consume_eq]
  split <;> exact nodup_putBucket (nodup_tableFor h)

theorem admitTables_ofState (client : String) (conversation : Option String) (h : (st.table.map (·.key)).Nodup) :
    limiter.admitTables client conversation now (ofState st)
      = some ((limiter.admitRequest client conversation now st).1,
          ofState (limiter.admitRequest client conversation now st).2) := by
  have hnodup : ((limiter.consume (limiter.clientKey client) now st).2.table.map (·.key)).Nodup := nodup_consume h
  rw [admitTables, consumeTables_ofState h, admitRequest]
  simp only [Option.bind_eq_bind, Option.bind_some]
  cases (limiter.consume (limiter.clientKey client) now st).1 with
  | false =>
    simp only [Bool.false_eq_true, if_false, secondsUntilTokenIn_ofState]
    rfl
  | true =>
    simp only [if_true]
    cases conversation.filter (· ≠ "") with
    | none => rfl
    | some conversation =>
      simp only [consumeTables_ofState hnodup, Option.bind_some]
      split <;> simp only [secondsUntilTokenIn_ofState] <;> rfl

/-! ### The bounds -/

/-- What is true of the table at every instant. -/
structure Bounded (limiter : RateLimiter) (now : ℚ) (st : LimiterState) : Prop where
  nodup : (st.table.map (·.key)).Nodup
  length : (st.table.length : ℤ) ≤ limiter.maxIdentities
  past : ∀ e ∈ st.table, e.updated ≤ now
  tokens : ∀ e ∈ st.table, 0 ≤ e.tokens ∧ e.tokens ≤ limiter.burst
  keys : ∀ e ∈ st.table, (e.key.length : ℤ) ≤ limiter.maxIdentityChars + 2

theorem bounded_nil (limiter : RateLimiter) (now lastSweep : ℚ) : limiter.Bounded now ⟨[], lastSweep⟩ where
  nodup := nodup_nil
  length := by
    have := limiter.positive.2.2.1
    simp only [length_nil, Nat.cast_zero]
    omega
  past := by simp
  tokens := by simp
  keys := by simp

theorem tableFor_subset {e : LiveBucket} (h : e ∈ limiter.tableFor key now st) : e ∈ (limiter.sweep now st).table := by
  rw [tableFor] at h
  split at h
  · exact h
  · exact makeRoom_subset h

theorem length_putBucket_tableFor (h : (st.table.length : ℤ) ≤ limiter.maxIdentities) {bucket : LiveBucket}
    (hkey : bucket.key = key) :
    ((putBucket (limiter.tableFor key now st) bucket).length : ℤ) ≤ limiter.maxIdentities := by
  have hsweep : (limiter.sweep now st).table.length ≤ st.table.length := length_sweep_le
  rw [tableFor]
  split
  · rename_i hany
    rw [length_putBucket_of_any (by rwa [hkey])]
    omega
  · have hput : (putBucket (limiter.makeRoom (limiter.sweep now st).table) bucket).length
        ≤ (limiter.makeRoom (limiter.sweep now st).table).length + 1 := length_putBucket_le
    rcases lt_or_eq_of_le (show ((limiter.sweep now st).table.length : ℤ) ≤ limiter.maxIdentities by omega) with hlt | hfull
    · rw [makeRoom_of_lt hlt] at hput ⊢
      omega
    · have hidentities := limiter.positive.2.2.1
      have hevict : (evictColdest (limiter.sweep now st).table).length + 1 = (limiter.sweep now st).table.length := by
        apply length_evictColdest
        intro hnil
        rw [hnil] at hfull
        simp only [length_nil, Nat.cast_zero] at hfull
        omega
      rw [makeRoom_of_eq hfull] at hput ⊢
      omega

theorem tokensFor_bounds (h : limiter.Bounded now st) : 0 ≤ limiter.tokensFor key now st ∧
    limiter.tokensFor key now st ≤ limiter.burst := by
  have hburst : (0 : ℚ) ≤ limiter.burst := limiter.flow_nonneg.1
  rw [tokensFor]
  split
  · rename_i bucket hbucket
    have hmem : bucket ∈ st.table := sweep_subset (tableFor_subset (mem_of_find?_eq_some hbucket))
    have hinflow := mul_nonneg (sub_nonneg.mpr (h.past bucket hmem)) limiter.rate_pos.le
    have htokens := (h.tokens bucket hmem).1
    exact ⟨le_min hburst (by linarith), min_le_left _ _⟩
  · exact ⟨hburst, le_refl _⟩

theorem Bounded.mono {later : ℚ} (h : limiter.Bounded now st) (hle : now ≤ later) : limiter.Bounded later st :=
  ⟨h.nodup, h.length, fun e he => (h.past e he).trans hle, h.tokens, h.keys⟩

theorem Bounded.put (h : limiter.Bounded now st) (hkey : (key.length : ℤ) ≤ limiter.maxIdentityChars + 2) {tokens lastSweep : ℚ}
    (htokens : 0 ≤ tokens ∧ tokens ≤ limiter.burst) :
    limiter.Bounded now ⟨putBucket (limiter.tableFor key now st) ⟨⟨tokens, now⟩, key⟩, lastSweep⟩ := by
  have hold : ∀ e ∈ limiter.tableFor key now st, e ∈ st.table := fun e he => sweep_subset (tableFor_subset he)
  refine ⟨nodup_putBucket (nodup_tableFor h.nodup), length_putBucket_tableFor h.length rfl, ?_, ?_, ?_⟩
  · intro e he
    rcases mem_putBucket.mp he with rfl | ⟨he, -⟩
    · exact le_refl now
    · exact h.past e (hold e he)
  · intro e he
    rcases mem_putBucket.mp he with rfl | ⟨he, -⟩
    · exact htokens
    · exact h.tokens e (hold e he)
  · intro e he
    rcases mem_putBucket.mp he with rfl | ⟨he, -⟩
    · exact hkey
    · exact h.keys e (hold e he)

theorem Bounded.consume (h : limiter.Bounded now st) (hkey : (key.length : ℤ) ≤ limiter.maxIdentityChars + 2) :
    limiter.Bounded now (limiter.consume key now st).2 := by
  obtain ⟨hnonneg, hle⟩ : 0 ≤ limiter.tokensFor key now st ∧ limiter.tokensFor key now st ≤ limiter.burst :=
    tokensFor_bounds h
  rw [consume_eq]
  split
  · exact h.put hkey ⟨by linarith, by linarith⟩
  · exact h.put hkey ⟨hnonneg, hle⟩

theorem length_normalize (limiter : RateLimiter) (key : String) :
    ((limiter.normalize key).length : ℤ) ≤ limiter.maxIdentityChars := by
  have hchars := limiter.positive.2.2.2.2
  have htake : (key.toList.take limiter.maxIdentityChars.toNat).length ≤ limiter.maxIdentityChars.toNat :=
    length_take_le _ _
  rw [normalize, String.length_ofList]
  omega

theorem length_clientKey (limiter : RateLimiter) (client : String) :
    ((limiter.clientKey client).length : ℤ) ≤ limiter.maxIdentityChars + 2 := by
  have := limiter.length_normalize client
  have htwo : ("c\x00" : String).length = 2 := rfl
  rw [clientKey, String.length_append, htwo]
  omega

theorem length_conversationKey (limiter : RateLimiter) (conversation : String) :
    ((limiter.conversationKey conversation).length : ℤ) ≤ limiter.maxIdentityChars + 2 := by
  have := limiter.length_normalize conversation
  have htwo : ("v\x00" : String).length = 2 := rfl
  rw [conversationKey, String.length_append, htwo]
  omega

theorem Bounded.admitRequest (h : limiter.Bounded now st) (client : String) (conversation : Option String) :
    limiter.Bounded now (limiter.admitRequest client conversation now st).2 := by
  have hclient := h.consume (limiter.length_clientKey client)
  rw [RateLimiter.admitRequest]
  simp only
  split
  · split
    · exact hclient
    · rename_i conversation _
      have hconversation := hclient.consume (limiter.length_conversationKey conversation)
      split <;> exact hconversation
  · exact hclient

/-- Every call keeps the columns of a bounded table, and raises nothing. -/
theorem Bounded.performTables (h : limiter.Bounded now st) (call : LimiterCall) :
    ∃ answer st', limiter.performTables now (ofState st) call = some (answer, ofState st') ∧ limiter.Bounded now st' := by
  cases call with
  | admission client conversation =>
    rw [RateLimiter.performTables, admitTables_ofState client conversation h.nodup]
    exact ⟨_, _, rfl, h.admitRequest client conversation⟩
  | allow key =>
    rw [RateLimiter.performTables, admitTables_ofState key none h.nodup]
    exact ⟨_, _, rfl, h.admitRequest key none⟩
  | retryAfter key => exact ⟨_, st, rfl, h⟩
  | reset => exact ⟨_, ⟨[], st.lastSweep⟩, rfl, limiter.bounded_nil now st.lastSweep⟩

theorem Bounded.runTables {calls : List (ℚ × LimiterCall)} (h : limiter.Bounded now st)
    (hclock : (now :: calls.map (·.1)).IsChain (· ≤ ·)) :
    ∃ st', limiter.runTables (ofState st) calls = some (ofState st') ∧
      limiter.Bounded ((calls.map (·.1)).getLastD now) st' := by
  induction calls generalizing now st with
  | nil => exact ⟨st, rfl, h⟩
  | cons call calls ih =>
    rw [map_cons, isChain_cons_cons] at hclock
    obtain ⟨answer, next, hcall, hnext⟩ := (h.mono hclock.1).performTables call.2
    obtain ⟨st', hrun, hst'⟩ := ih hnext hclock.2
    refine ⟨st', ?_, ?_⟩
    · rw [RateLimiter.runTables, foldlM_cons, hcall]
      exact hrun
    · rwa [map_cons, getLastD_cons]

/-- After any calls on a clock that does not go back, the two dicts have the same keys, at most `max_identities` of them and none too long, no timestamp is ahead of the clock, and every bucket holds between nothing and the burst. -/
theorem tables_consistent (limiter : RateLimiter) (start : ℚ) (calls : List (ℚ × LimiterCall))
    (hclock : (start :: calls.map (·.1)).IsChain (· ≤ ·)) :
    ∃ tables, limiter.runTables { lastSweep := start } calls = some tables ∧
      tables.tokens.map Prod.fst = tables.updated.map Prod.fst ∧
      (tables.tokens.map Prod.fst).Nodup ∧ (tables.tokens.length : ℤ) ≤ limiter.maxIdentities ∧
      (∀ entry ∈ tables.updated, entry.2 ≤ (calls.map (·.1)).getLastD start) ∧
      (∀ entry ∈ tables.tokens, 0 ≤ entry.2 ∧ entry.2 ≤ limiter.burst) ∧
      ∀ key ∈ tables.tokens.map Prod.fst, (key.length : ℤ) ≤ limiter.maxIdentityChars + 2 := by
  obtain ⟨st, hrun, hst⟩ := (limiter.bounded_nil start start).runTables hclock
  refine ⟨ofState st, hrun, keys_column.trans keys_column.symm, ?_, ?_, ?_, ?_, ?_⟩
  · rw [ofState, keys_column]
    exact hst.nodup
  · rw [ofState, length_column]
    exact hst.length
  · intro entry hentry
    obtain ⟨e, he, rfl⟩ := mem_map.mp hentry
    exact hst.past e he
  · intro entry hentry
    obtain ⟨e, he, rfl⟩ := mem_map.mp hentry
    exact hst.tokens e he
  · intro key hkey
    rw [ofState, keys_column] at hkey
    obtain ⟨e, he, rfl⟩ := mem_map.mp hkey
    exact hst.keys e he

end RateLimiter

def onePlace : RateLimiter where
  requestsPerMinute := 60
  burst := 1
  maxIdentities := 1
  accepted := by decide

theorem tables_consistent_onePlace :
    let calls : List (ℚ × RateLimiter.LimiterCall) := [(0, .admission "a" (some "x")), (2, .retryAfter "a")]
    ((0 : ℚ) :: calls.map (·.1)).IsChain (· ≤ ·) ∧
      ∃ tables, onePlace.runTables { lastSweep := 0 } calls = some tables ∧
        tables.tokens.map Prod.fst = tables.updated.map Prod.fst ∧ (tables.tokens.length : ℤ) ≤ 1 := by
  have hclock : ((0 : ℚ) :: ([(0, .admission "a" (some "x")), (2, .retryAfter "a")] :
      List (ℚ × RateLimiter.LimiterCall)).map (·.1)).IsChain (· ≤ ·) := by simp
  obtain ⟨tables, hrun, hkeys, -, hlength, -⟩ := RateLimiter.tables_consistent onePlace 0 _ hclock
  exact ⟨hclock, tables, hrun, hkeys, hlength⟩

end ContextProxy
