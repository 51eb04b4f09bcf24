import ContextProxy.Context.Candidates
import ContextProxy.Store.Writers

/-!
# Chunking completed turns

`_chunk_new_turns` cuts the history of a conversation into units, one for each user message and what follows it, and stores every unit but the last as a chunk. A pass goes back to the user message at or before the watermark, and a unique index ignores what is stored already.

As long as the passes take the row lock, the chunks are those of one pass over the whole history: complete units stay as they are while the history grows (`settled_isPrefix`), and reading again from a user message gives the units from there on (`settled_window`). A pass that starts before its conversation has a row locks nothing, and may leave fewer chunks and an older watermark (`absent_row_unlocked`).
-/

namespace ContextProxy

open Json List

/-! ### Units -/

structure TurnUnit where
  first : MessageRow
  rest : List MessageRow

namespace TurnUnit

def rows (unit : TurnUnit) : List MessageRow := unit.first :: unit.rest

def startSeq (unit : TurnUnit) : ℤ := unit.first.seq

/-- `unit_rows[-1]["seq"]`. -/
def endSeq (unit : TurnUnit) : ℤ := (unit.rows.getLast (cons_ne_nil _ _)).seq

end TurnUnit

/-- The local variables of the loop over the rows. -/
structure UnitLoop where
  units : List TurnUnit := []
  current : Option TurnUnit := none

namespace UnitLoop

def step (st : UnitLoop) (row : MessageRow) : UnitLoop :=
  match st.current with
  | none => { st with current := some ⟨row, []⟩ }
  | some unit =>
    if row.role = "user" then { units := st.units ++ [unit], current := some ⟨row, []⟩ }
    else { st with current := some { unit with rest := unit.rest ++ [row] } }

def close (st : UnitLoop) : List TurnUnit := st.units ++ st.current.toList

end UnitLoop

def turnUnits (rows : List MessageRow) : List TurnUnit := (rows.foldl UnitLoop.step {}).close

/-- `units[:-1]`: the last unit is the live interaction. -/
def settledUnits (rows : List MessageRow) : List TurnUnit := (turnUnits rows).dropLast

/-! ### Tables and statements -/

/-- A row of `conversation_chunks`, as a pass inserts it. -/
structure TurnChunk where
  id : RowId
  startSeq : ℤ
  endSeq : ℤ
  messageIds : List RowId
  rawContent : String
  tokenCount : ℕ

/-- What two tables of chunks are compared by: everything but the random id and the token count. -/
def TurnChunk.data (chunk : TurnChunk) : ℤ × ℤ × List RowId × String :=
  (chunk.startSeq, chunk.endSeq, chunk.messageIds, chunk.rawContent)

/-- The tables of the store, the chunks, and `conversations.last_chunked_seq`. -/
structure ChunkDb where
  store : Db
  chunks : List (ConversationId × TurnChunk)
  lastChunkedSeq : ConversationId → Option ℤ

structure ChunkRows where
  rows : Rows
  chunks : List TurnChunk
  lastChunkedSeq : Option ℤ

def ChunkDb.part (c : ConversationId) (db : ChunkDb) : ChunkRows where
  rows := db.store.rows c
  chunks := rowsOf c db.chunks
  lastChunkedSeq := db.lastChunkedSeq c

inductive ChunkQuery where
  | store (q : Query)
  | lockRow
  | watermark
  | boundary (watermark : Option ℤ)
  | window (boundary : ℤ)
  | insertChunk (chunk : TurnChunk)
  | setWatermark (seq : ℤ)

def ChunkAnswer : ChunkQuery → Type
  | .store q => Answer q
  | .lockRow | .setWatermark _ => Unit
  | .watermark => Option ℤ
  | .boundary _ => ℤ
  | .window _ => List MessageRow
  | .insertChunk _ => Option RowId

inductive ChunkWrite where
  | store (w : Write)
  | chunk (row : TurnChunk)
  | watermark (seq : ℤ)

/-- `COALESCE(MAX(seq), 0)` over the user messages up to the watermark. -/
def chunkBoundary (messages : List MessageRow) (watermark : Option ℤ) : ℤ :=
  ((messages.filter fun row => row.role = "user" ∧ row.seq ≤ watermark.getD (-1)).map (·.seq)).max?.getD 0

/-- The rows from the boundary on, without those of role `system`, `ORDER BY seq`. -/
def chunkWindow (messages : List MessageRow) (boundary : ℤ) : List MessageRow :=
  (messages.filter fun row => row.role ≠ "system" ∧ boundary ≤ row.seq).insertionSort (·.seq ≤ ·.seq)

def execChunkQuery : (q : ChunkQuery) → ChunkRows → Except StoreError (ChunkAnswer q × List ChunkWrite)
  | .store q, s => (execQuery q s.rows).map fun out => (out.1, out.2.map .store)
  | .lockRow, _ => .ok ((), [])
  | .watermark, s => .ok (s.lastChunkedSeq, [])
  | .boundary watermark, s => .ok (chunkBoundary s.rows.messages watermark, [])
  | .window boundary, s => .ok (chunkWindow s.rows.messages boundary, [])
  | .insertChunk chunk, s =>
    -- ON CONFLICT (conversation_id, start_seq) DO NOTHING RETURNING id
    if s.chunks.any (·.startSeq = chunk.startSeq) then .ok (none, [])
    else if !s.rows.known then .error .foreignKeyViolation
    else .ok (some chunk.id, [.chunk chunk])
  -- UPDATE conversations SET last_chunked_seq, with no row to update if the conversation has none
  | .setWatermark seq, s => .ok ((), if s.rows.known then [.watermark seq] else [])

def ChunkDb.add (c : ConversationId) (w : ChunkWrite) (db : ChunkDb) : ChunkDb :=
  match w with
  | .store w => { db with store := db.store.add c w }
  | .chunk row => { db with chunks := db.chunks ++ [(c, row)] }
  | .watermark seq => { db with lastChunkedSeq := Function.update db.lastChunkedSeq c (some seq) }

def ChunkRows.add (w : ChunkWrite) (s : ChunkRows) : ChunkRows :=
  match w with
  | .store w => { s with rows := s.rows.add w }
  | .chunk row => { s with chunks := s.chunks ++ [row] }
  | .watermark seq => { s with lastChunkedSeq := some seq }

def chunkTables : Tables ConversationId ChunkDb ChunkRows ChunkWrite ChunkAnswer StoreError where
  part := ChunkDb.part
  exec := execChunkQuery
  apply := ChunkDb.add
  applyPart := ChunkRows.add
  part_apply := by
    intro c w db
    cases w with
    | store w => simp only [ChunkDb.add, ChunkDb.part, ChunkRows.add, Db.rows_add]
    | chunk row => simp only [ChunkDb.add, ChunkDb.part, ChunkRows.add, rowsOf_concat_self]
    | watermark seq => simp only [ChunkDb.add, ChunkDb.part, ChunkRows.add, Function.update_self]
  part_apply_of_ne := by
    intro c c' w db h
    cases w with
    | store w => simp only [ChunkDb.add, ChunkDb.part, Db.rows_add_of_ne h]
    | chunk row => simp only [ChunkDb.add, ChunkDb.part, rowsOf_concat_of_ne h]
    | watermark seq => simp only [ChunkDb.add, ChunkDb.part, Function.update_of_ne h]

/-! ### A pass -/

abbrev ChunkProg := Prog ChunkAnswer StoreError

section Pass

variable (rt : Runtime) (encode : Message → String) (draw : ℤ → RowId)

/-- The row of a unit; `encode` is `json.dumps(_, ensure_ascii=False)`. -/
def unitChunk (unit : TurnUnit) (tokenCount : ℕ) : TurnChunk where
  id := draw unit.startSeq
  startSeq := unit.startSeq
  endSeq := unit.endSeq
  messageIds := unit.rows.map (·.id)
  rawContent := joinWith "\n" (unit.rows.map fun row => encode row.content)
  tokenCount

def insertChunk (unit : TurnUnit) : ChunkProg (Option RowId) := do
  let tokenCount ← Prog.ofExcept (raised (messagesTokens rt (unit.rows.map (·.content))))
  Prog.send (ChunkQuery.insertChunk (unitChunk encode draw unit tokenCount))

/-- The loop over the settled units, which counts the chunks it creates and keeps the end of the last unit. -/
def insertChunks : List TurnUnit → ℕ → Option ℤ → ChunkProg (ℕ × Option ℤ)
  | [], created, settledEnd => return (created, settledEnd)
  | unit :: units, created, _ => do
      let chunkId : Option RowId ← insertChunk rt encode draw unit
      insertChunks units (if chunkId.isSome then created + 1 else created) (some unit.endSeq)

/-- `settled_end is not None and (watermark is None or settled_end > watermark)`. -/
def advances (settledEnd watermark : Option ℤ) : Bool :=
  match settledEnd, watermark with
  | none, _ => false
  | some _, none => true
  | some settledEnd, some watermark => watermark < settledEnd

def settleRows (watermark : Option ℤ) (rows : List MessageRow) : ChunkProg (ℕ × Option ℤ) :=
  if rows.isEmpty then return (0, watermark)
  else do
    let result ← insertChunks rt encode draw (settledUnits rows) 0 none
    if advances result.2 watermark then
      let _ ← Prog.send (ChunkQuery.setWatermark (result.2.getD 0))
    return result

def chunkNewTurns : ChunkProg (ℕ × Option ℤ) := do
  let _ ← Prog.send ChunkQuery.lockRow
  let watermark : Option ℤ ← Prog.send ChunkQuery.watermark
  let boundary : ℤ ← Prog.send (ChunkQuery.boundary watermark)
  let rows : List MessageRow ← Prog.send (ChunkQuery.window boundary)
  settleRows rt encode draw watermark rows

end Pass

/-! ### How the rows fall into units -/

theorem UnitLoop.current_step (st : UnitLoop) (row : MessageRow) : ∃ unit, (st.step row).current = some unit := by
  rw [step]
  split
  · exact ⟨_, rfl⟩
  · split
    · exact ⟨_, rfl⟩
    · exact ⟨_, rfl⟩

theorem turnUnits_concat (rows : List MessageRow) (row : MessageRow) :
    (rows = [] ∧ turnUnits (rows ++ [row]) = [⟨row, []⟩]) ∨
      ∃ units unit, turnUnits rows = units ++ [unit] ∧
        ((row.role = "user" ∧ turnUnits (rows ++ [row]) = units ++ [unit] ++ [⟨row, []⟩]) ∨
          (row.role ≠ "user" ∧ turnUnits (rows ++ [row]) = units ++ [{ unit with rest := unit.rest ++ [row] }])) := by
  rcases eq_nil_or_concat' rows with rfl | ⟨before, last, rfl⟩
  · exact .inl ⟨rfl, rfl⟩
  · obtain ⟨unit, hunit⟩ := UnitLoop.current_step (before.foldl UnitLoop.step {}) last
    have hread : ∀ row, (before ++ [last] ++ [row]).foldl UnitLoop.step {}
        = ((before ++ [last]).foldl UnitLoop.step {}).step row := by
      intro row
      rw [foldl_append]
      rfl
    have hcurrent : ((before ++ [last]).foldl UnitLoop.step {}).current = some unit := by
      rw [foldl_append]
      exact hunit
    refine .inr ⟨((before ++ [last]).foldl UnitLoop.step {}).units, unit, ?_, ?_⟩
    · rw [turnUnits, UnitLoop.close, hcurrent]
      rfl
    · rw [turnUnits, hread, UnitLoop.step, hcurrent, UnitLoop.close]
      by_cases huser : row.role = "user"
      · simp [huser]
      · simp [huser]

theorem rows_turnUnits (rows : List MessageRow) : (turnUnits rows).flatMap (·.rows) = rows := by
  induction rows using List.reverseRecOn with
  | nil => rfl
  | append_singleton rows row ih =>
    rcases turnUnits_concat rows row with ⟨rfl, hunits⟩ | ⟨units, unit, hrows, ⟨-, hunits⟩ | ⟨-, hunits⟩⟩
    · rw [hunits]
      rfl
    · rw [hunits, ← hrows, flatMap_append, ih]
      rfl
    · rw [hunits, ← ih, hrows]
      simp [TurnUnit.rows]

theorem turnUnits_ne_nil {rows : List MessageRow} (h : rows ≠ []) : turnUnits rows ≠ [] := by
  intro hnil
  have hrows := rows_turnUnits rows
  rw [hnil] at hrows
  exact h hrows.symm

/-- A user message only ever starts a unit, and every unit but the first starts with one. -/
structure Shaped (units : List TurnUnit) : Prop where
  rest : ∀ unit ∈ units, ∀ row ∈ unit.rest, row.role ≠ "user"
  first : ∀ unit ∈ units.tail, unit.first.role = "user"

theorem shaped_turnUnits (rows : List MessageRow) : Shaped (turnUnits rows) := by
  induction rows using List.reverseRecOn with
  | nil => exact ⟨by simp [turnUnits, UnitLoop.close], by simp [turnUnits, UnitLoop.close]⟩
  | append_singleton rows row ih =>
    rcases turnUnits_concat rows row with ⟨rfl, hunits⟩ | ⟨units, unit, hrows, ⟨huser, hunits⟩ | ⟨huser, hunits⟩⟩
    · rw [hunits]
      exact ⟨by simp, by simp⟩
    · rw [hunits]
      rw [hrows] at ih
      refine ⟨?_, ?_⟩
      · intro v hv
        rcases mem_append.mp hv with hv | hv
        · exact ih.rest v hv
        · simp [mem_singleton.mp hv]
      · intro v hv
        rw [tail_append_of_ne_nil (by simp)] at hv
        rcases mem_append.mp hv with hv | hv
        · exact ih.first v hv
        · rw [mem_singleton.mp hv]
          exact huser
    · rw [hunits]
      rw [hrows] at ih
      refine ⟨?_, ?_⟩
      · intro v hv r hr
        rcases mem_append.mp hv with hv | hv
        · exact ih.rest v (mem_append_left _ hv) r hr
        · rw [mem_singleton.mp hv] at hr
          rcases mem_append.mp hr with hr | hr
          · exact ih.rest unit (by simp) r hr
          · rw [mem_singleton.mp hr]
            exact huser
      · intro v hv
        cases units with
        | nil => simp at hv
        | cons head units =>
          rcases mem_append.mp hv with hv | hv
          · exact ih.first v (mem_append_left _ hv)
          · rw [mem_singleton.mp hv]
            exact ih.first unit (by simp)

variable {unit : TurnUnit} {more units : List TurnUnit} {messages : List MessageRow} {row : MessageRow}

theorem turnUnits_append_unit {rows : List MessageRow} (hfirst : rows = [] ∨ unit.first.role = "user")
    (hrest : ∀ row ∈ unit.rest, row.role ≠ "user") : turnUnits (rows ++ unit.rows) = turnUnits rows ++ [unit] := by
  obtain ⟨first, rest⟩ := unit
  change ∀ row ∈ rest, row.role ≠ "user" at hrest
  induction rest using List.reverseRecOn with
  | nil =>
    rcases turnUnits_concat rows first with ⟨rfl, hunits⟩ | ⟨units, unit, hrows, ⟨-, hunits⟩ | ⟨huser, -⟩⟩
    · exact hunits
    · rw [hrows]
      exact hunits
    · rcases hfirst with rfl | hfirst
      · simp [turnUnits, UnitLoop.close] at hrows
      · exact absurd hfirst huser
  | append_singleton rest row ih =>
    have hbefore := ih hfirst fun r hr => hrest r (mem_append_left _ hr)
    have hrows : rows ++ TurnUnit.rows ⟨first, rest ++ [row]⟩ = rows ++ TurnUnit.rows ⟨first, rest⟩ ++ [row] := by
      simp [TurnUnit.rows]
    rw [hrows]
    rcases turnUnits_concat (rows ++ TurnUnit.rows ⟨first, rest⟩) row with ⟨hnil, -⟩ | ⟨units, unit, hlast, hcase⟩
    · simp [TurnUnit.rows] at hnil
    · obtain ⟨hunits, hunit⟩ := append_inj' (hlast.symm.trans hbefore) rfl
      obtain rfl := singleton_inj.mp hunit
      rcases hcase with ⟨huser, -⟩ | ⟨-, hnext⟩
      · exact absurd huser (hrest row (by simp))
      · rw [hnext, hunits]

theorem Shaped.of_append_left (h : Shaped (units ++ more)) : Shaped units := by
  refine ⟨fun unit hunit => h.rest unit (mem_append_left _ hunit), fun unit hunit => h.first unit ?_⟩
  cases units with
  | nil => simp at hunit
  | cons head units => exact mem_append_left _ hunit

theorem Shaped.of_append_right (h : Shaped (units ++ more)) : Shaped more := by
  refine ⟨fun unit hunit => h.rest unit (mem_append_right _ hunit), fun unit hunit => h.first unit ?_⟩
  cases units with
  | nil => exact hunit
  | cons head units => exact mem_append_right _ (mem_of_mem_tail hunit)

theorem turnUnits_rows (h : Shaped units) : turnUnits (units.flatMap (·.rows)) = units := by
  induction units using List.reverseRecOn with
  | nil => rfl
  | append_singleton units unit ih =>
    have hfirst : units.flatMap (·.rows) = [] ∨ unit.first.role = "user" := by
      cases units with
      | nil => exact .inl rfl
      | cons head units => exact .inr (h.first unit (by simp))
    rw [flatMap_append, flatMap_singleton, turnUnits_append_unit hfirst (h.rest unit (by simp)),
      ih h.of_append_left]

/-- The units that are settled stay as they are while rows are added. -/
theorem settled_isPrefix {past rows : List MessageRow} (h : past <+: rows) : settledUnits past <+: settledUnits rows := by
  obtain ⟨new, rfl⟩ := h
  induction new using List.reverseRecOn with
  | nil => rw [append_nil]
  | append_singleton new row ih =>
    refine ih.trans ?_
    rw [← append_assoc, settledUnits, settledUnits]
    rcases turnUnits_concat (past ++ new) row with ⟨hnil, -⟩ | ⟨units, unit, hrows, ⟨-, hunits⟩ | ⟨-, hunits⟩⟩
    · rw [hnil]
      exact nil_prefix
    · rw [hunits, hrows, dropLast_concat, dropLast_concat]
      exact prefix_append _ _
    · rw [hunits, hrows, dropLast_concat, dropLast_concat]

/-! ### Where a pass starts -/

def spokenRows (messages : List MessageRow) : List MessageRow := messages.filter (·.role ≠ "system")

theorem Contiguous.seq_nonneg (h : Contiguous messages) (hrow : row ∈ messages) : 0 ≤ row.seq := by
  have hmem : row.seq ∈ messages.map (·.seq) := mem_map_of_mem hrow
  rw [h] at hmem
  obtain ⟨k, -, hk⟩ := mem_map.mp hmem
  omega

theorem pairwise_spokenRows (h : Contiguous messages) :
    (spokenRows messages).Pairwise (·.seq < ·.seq) := h.pairwise_lt.sublist filter_sublist

theorem chunkWindow_eq (h : Contiguous messages) (boundary : ℤ) :
    chunkWindow messages boundary = (spokenRows messages).filter (boundary ≤ ·.seq) := by
  have hsorted : (messages.filter fun row => row.role ≠ "system" ∧ boundary ≤ row.seq).Pairwise (·.seq ≤ ·.seq) :=
    (h.pairwise_lt.sublist filter_sublist).imp Int.le_of_lt
  rw [chunkWindow, hsorted.insertionSort_eq, spokenRows, filter_filter]
  apply filter_congr
  intro row _
  simp [Bool.and_comm]

theorem chunkWindow_zero (h : Contiguous messages) : chunkWindow messages 0 = spokenRows messages := by
  rw [chunkWindow_eq h, filter_eq_self]
  intro row hrow
  exact decide_eq_true (h.seq_nonneg (mem_filter.mp hrow).1)

theorem chunkWindow_of_split (h : Contiguous messages) {before after : List MessageRow}
    (hsplit : spokenRows messages = before ++ row :: after) : chunkWindow messages row.seq = row :: after := by
  have hsorted := pairwise_spokenRows h
  rw [hsplit, pairwise_append, pairwise_cons] at hsorted
  obtain ⟨-, ⟨hafter, -⟩, hbefore⟩ := hsorted
  have hnone : before.filter (fun r => decide (row.seq ≤ r.seq)) = [] := by
    rw [filter_eq_nil_iff]
    intro r hr hle
    have := hbefore r hr row (mem_cons_self ..)
    have := of_decide_eq_true hle
    omega
  have hall : (row :: after).filter (fun r => decide (row.seq ≤ r.seq)) = row :: after := by
    rw [filter_eq_self]
    intro r hr
    apply decide_eq_true
    rcases mem_cons.mp hr with rfl | hr
    · exact Int.le_refl _
    · exact Int.le_of_lt (hafter r hr)
  rw [chunkWindow_eq h, hsplit, filter_append, hnone, hall, nil_append]

theorem chunkBoundary_none (h : Contiguous messages) : chunkBoundary messages none = 0 := by
  have hnone : (messages.filter fun row => decide (row.role = "user" ∧ row.seq ≤ (none : Option ℤ).getD (-1))) = [] := by
    rw [filter_eq_nil_iff]
    intro row hrow hle
    have := h.seq_nonneg hrow
    have hseq : row.seq ≤ -1 := (of_decide_eq_true hle).2
    omega
  rw [chunkBoundary, hnone]
  rfl

variable {before : List TurnUnit}

theorem user_before_end (h : Contiguous messages) (hunits : turnUnits (spokenRows messages) = before ++ unit :: more)
    (hrow : row ∈ messages) (huser : row.role = "user") (hseq : row.seq ≤ unit.endSeq) :
    row = unit.first ∨ (row ∈ before.flatMap (·.rows) ∧ row.seq < unit.startSeq) := by
  have hspoken : row ∈ spokenRows messages := mem_filter.mpr ⟨hrow, by simp [huser]⟩
  have hsplit : spokenRows messages = before.flatMap (·.rows) ++ (unit.rows ++ more.flatMap (·.rows)) := by
    rw [← rows_turnUnits (spokenRows messages), hunits, flatMap_append, flatMap_cons]
  have hsorted := pairwise_spokenRows h
  rw [hsplit] at hspoken hsorted
  obtain ⟨-, hrest, hbefore⟩ := pairwise_append.mp hsorted
  rcases mem_append.mp hspoken with hmem | hmem
  · exact .inr ⟨hmem, hbefore row hmem unit.first (mem_append_left _ (mem_cons_self ..))⟩
  · rcases mem_append.mp hmem with hmem | hmem
    · rcases mem_cons.mp hmem with rfl | hmem
      · exact .inl rfl
      · have hshaped := shaped_turnUnits (spokenRows messages)
        rw [hunits] at hshaped
        exact absurd huser (hshaped.rest unit (by simp) row hmem)
    · have hlater := (pairwise_append.mp hrest).2.2 _ (getLast_mem (cons_ne_nil _ _)) row hmem
      exact absurd hlater (Int.not_lt.mpr hseq)

theorem startSeq_le_endSeq {rows : List MessageRow} (h : rows.Pairwise (·.seq < ·.seq)) (hunit : unit ∈ turnUnits rows) :
    unit.startSeq ≤ unit.endSeq := by
  have hrows : unit.rows.Pairwise (·.seq < ·.seq) := by
    rw [← rows_turnUnits rows, pairwise_flatMap] at h
    exact h.1 unit hunit
  rcases mem_cons.mp (getLast_mem (cons_ne_nil unit.first unit.rest)) with hfirst | hrest
  · exact Int.le_of_eq (congrArg MessageRow.seq hfirst.symm)
  · exact Int.le_of_lt ((pairwise_cons.mp hrows).1 _ hrest)

/-- From the end of a unit that starts with a user message, a pass goes back to that message. -/
theorem chunkBoundary_of_user (h : Contiguous messages)
    (hunits : turnUnits (spokenRows messages) = before ++ unit :: more) (huser : unit.first.role = "user") :
    chunkBoundary messages (some unit.endSeq) = unit.startSeq := by
  have hmem : unit ∈ turnUnits (spokenRows messages) := by
    rw [hunits]
    exact mem_append_right _ (mem_cons_self ..)
  have hfirst : unit.first ∈ messages := by
    have : unit.first ∈ (turnUnits (spokenRows messages)).flatMap (·.rows) :=
      mem_flatMap.mpr ⟨unit, hmem, mem_cons_self ..⟩
    rw [rows_turnUnits] at this
    exact (mem_filter.mp this).1
  have hle := startSeq_le_endSeq (pairwise_spokenRows h) hmem
  have hmax : ((messages.filter fun row => decide (row.role = "user" ∧ row.seq ≤ (some unit.endSeq).getD (-1))).map
      (·.seq)).max? = some unit.startSeq := by
    rw [max?_eq_some_iff]
    constructor
    · exact mem_map.mpr ⟨unit.first, mem_filter.mpr ⟨hfirst, decide_eq_true ⟨huser, hle⟩⟩, rfl⟩
    · intro seq hseq
      obtain ⟨row, hrow, rfl⟩ := mem_map.mp hseq
      obtain ⟨hrow, hcond⟩ := mem_filter.mp hrow
      obtain ⟨hrole, hend⟩ := of_decide_eq_true hcond
      rcases user_before_end h hunits hrow hrole hend with rfl | ⟨-, hlt⟩
      · exact Int.le_refl _
      · exact Int.le_of_lt hlt
  rw [chunkBoundary, hmax]
  rfl

theorem chunkBoundary_of_first (h : Contiguous messages) (hunits : turnUnits (spokenRows messages) = unit :: more)
    (huser : unit.first.role ≠ "user") : chunkBoundary messages (some unit.endSeq) = 0 := by
  have hnone : (messages.filter fun row =>
      decide (row.role = "user" ∧ row.seq ≤ (some unit.endSeq).getD (-1))) = [] := by
    rw [filter_eq_nil_iff]
    intro row hrow hcond
    obtain ⟨hrole, hend⟩ := of_decide_eq_true hcond
    rcases user_before_end h (show _ = [] ++ unit :: more from hunits) hrow hrole hend with rfl | ⟨hmem, -⟩
    · exact huser hrole
    · simp at hmem
  rw [chunkBoundary, hnone]
  rfl

/-- A pass behind some settled units reads a final part of the settled units of the whole history; what it leaves out is settled already. -/
theorem settled_window (h : Contiguous messages) {done : List TurnUnit}
    (hdone : done <+: settledUnits (spokenRows messages)) :
    ∃ left read, settledUnits (spokenRows messages) = left ++ read ∧ left <+: done ∧
      settledUnits (chunkWindow messages (chunkBoundary messages (done.getLast?.map (·.endSeq)))) = read := by
  rcases eq_nil_or_concat' done with rfl | ⟨before, unit, rfl⟩
  · refine ⟨[], settledUnits (spokenRows messages), rfl, nil_prefix, ?_⟩
    rw [show ([] : List TurnUnit).getLast?.map (·.endSeq) = none from rfl, chunkBoundary_none h, chunkWindow_zero h]
  · obtain ⟨later, hlater⟩ := hdone
    obtain ⟨more, hunits, hmore⟩ : ∃ more, turnUnits (spokenRows messages) = before ++ unit :: more ∧
        settledUnits (spokenRows messages) = before ++ (unit :: more).dropLast := by
      have hne : turnUnits (spokenRows messages) ≠ [] := by
        intro hnil
        rw [settledUnits, hnil] at hlater
        simp at hlater
      refine ⟨later ++ [(turnUnits (spokenRows messages)).getLast hne], ?_, ?_⟩
      · calc turnUnits (spokenRows messages)
            = settledUnits (spokenRows messages) ++ [(turnUnits (spokenRows messages)).getLast hne] :=
              (dropLast_append_getLast hne).symm
          _ = _ := by rw [← hlater]; simp
      · rw [← hlater, ← cons_append, dropLast_concat]
        simp
    have hshaped := shaped_turnUnits (spokenRows messages)
    rw [hunits] at hshaped
    rw [getLast?_concat, Option.map_some]
    by_cases huser : unit.first.role = "user"
    · refine ⟨before, (unit :: more).dropLast, hmore, prefix_append _ _, ?_⟩
      have hsplit : spokenRows messages
          = before.flatMap (·.rows) ++ unit.first :: (unit.rest ++ more.flatMap (·.rows)) := by
        rw [← rows_turnUnits (spokenRows messages), hunits, flatMap_append, flatMap_cons]
        rfl
      rw [chunkBoundary_of_user h hunits huser, TurnUnit.startSeq, chunkWindow_of_split h hsplit, settledUnits]
      exact congrArg List.dropLast (turnUnits_rows hshaped.of_append_right)
    · have hnil : before = [] := by
        cases before with
        | nil => rfl
        | cons head before => exact absurd (hshaped.first unit (by simp)) huser
      subst hnil
      refine ⟨[], settledUnits (spokenRows messages), rfl, nil_prefix, ?_⟩
      rw [chunkBoundary_of_first h hunits huser, chunkWindow_zero h]

/-! ### What a pass stores -/

section Stored

variable {rt : Runtime} {encode : Message → String} {draw : ℤ → RowId}

def unitData (encode : Message → String) (unit : TurnUnit) : ℤ × ℤ × List RowId × String :=
  (unit.startSeq, unit.endSeq, unit.rows.map (·.id), joinWith "\n" (unit.rows.map fun row => encode row.content))

def Countable (rt : Runtime) (unit : TurnUnit) : Prop := ∃ n, messagesTokens rt (unit.rows.map (·.content)) = .ok n

structure Stored (encode : Message → String) (rows : Rows) (watermark : Option ℤ) (done : List TurnUnit)
    (s : ChunkRows) : Prop where
  rows : s.rows = rows
  watermark : s.lastChunkedSeq = watermark
  chunks : s.chunks.map (·.data) = done.map (unitData encode)

variable {done left : List TurnUnit} {s : ChunkRows}

theorem Stored.any_startSeq {rows : Rows} {watermark : Option ℤ} (h : Stored encode rows watermark done s) (seq : ℤ) :
    s.chunks.any (·.startSeq = seq) = true ↔ seq ∈ done.map (·.startSeq) := by
  have hstarts : s.chunks.map (·.startSeq) = done.map (·.startSeq) := by
    have := congrArg (List.map Prod.fst) h.chunks
    rw [map_map, map_map] at this
    exact this
  rw [← hstarts, any_eq_true, mem_map]
  simp

/-- The unique index on `start_seq`, seen on the units. -/
def addUnit (done : List TurnUnit) (unit : TurnUnit) : List TurnUnit :=
  if unit.startSeq ∈ done.map (·.startSeq) then done else done ++ [unit]

theorem ensures_insertChunk (rows : Rows) (watermark : Option ℤ) (done : List TurnUnit) (unit : TurnUnit) :
    chunkTables.Ensures (Stored encode rows watermark done) (insertChunk rt encode draw unit)
      fun _ s => (Countable rt unit ∧ (addUnit done unit = done ∨ rows.known = true)) ∧
        Stored encode rows watermark (addUnit done unit) s := by
  have hcount : chunkTables.Ensures (Stored encode rows watermark done)
      (Prog.ofExcept (raised (messagesTokens rt (unit.rows.map (·.content)))))
      fun _ s => Countable rt unit ∧ Stored encode rows watermark done s := by
    refine .ofExcept fun n hn s hs => ⟨⟨n, mapError_eq_ok.mp hn⟩, hs⟩
  refine hcount.bind fun n => .send fun s hs answer ws hexec => ?_
  change (if s.chunks.any (·.startSeq = unit.startSeq) then _ else if !s.rows.known then _ else _) = _ at hexec
  by_cases hany : s.chunks.any (·.startSeq = unit.startSeq) = true
  · rw [if_pos hany] at hexec
    cases hexec
    rw [addUnit, if_pos ((hs.2.any_startSeq _).mp hany)]
    exact ⟨⟨hs.1, .inl rfl⟩, hs.2⟩
  · rw [if_neg hany, hs.2.rows] at hexec
    -- a chunk is inserted for a conversation with a row only
    cases hknown : rows.known with
    | false => simp [hknown] at hexec
    | true =>
      rw [hknown] at hexec
      cases hexec
      refine ⟨⟨hs.1, .inr rfl⟩, hs.2.rows, hs.2.watermark, ?_⟩
      rw [addUnit, if_neg fun hmem => hany ((hs.2.any_startSeq _).mpr hmem)]
      show (s.chunks ++ [unitChunk encode draw unit n]).map (·.data) = _
      rw [map_append, map_append, hs.2.chunks]
      rfl

theorem ensures_insertChunks (rows : Rows) (watermark : Option ℤ) (units : List TurnUnit) (done : List TurnUnit)
    (created : ℕ) (settledEnd : Option ℤ) :
    chunkTables.Ensures (Stored encode rows watermark done) (insertChunks rt encode draw units created settledEnd)
      fun result s => result.2 = (units.getLast?.map (·.endSeq)).or settledEnd ∧
        ((∀ unit ∈ units, Countable rt unit) ∧ (units.foldl addUnit done = done ∨ rows.known = true)) ∧
        Stored encode rows watermark (units.foldl addUnit done) s := by
  induction units generalizing done created settledEnd with
  | nil => exact .ret fun s hs => ⟨rfl, ⟨by simp, .inl rfl⟩, hs⟩
  | cons unit units ih =>
    refine (ensures_insertChunk rows watermark done unit).bind fun chunkId s hs => ?_
    intro result ws hrun
    obtain ⟨⟨hunit, hknown⟩, hs⟩ := hs
    obtain ⟨hend, ⟨hunits, hknown'⟩, hstored⟩ := ih (addUnit done unit) _ (some unit.endSeq) s hs result ws hrun
    refine ⟨?_, ⟨forall_mem_cons.mpr ⟨hunit, hunits⟩, ?_⟩, hstored⟩
    · rw [hend, getLast?_cons]
      cases units.getLast? <;> rfl
    · rcases hknown with hsame | hknown
      · exact hknown'.imp_left fun hsame' => hsame'.trans hsame
      · exact .inr hknown

variable {read : List TurnUnit}

/-- Storing the units of a final part again adds those that are missing. -/
theorem foldl_addUnit (hleft : left <+: done) (hdone : done <+: left ++ read)
    (hstarts : ((left ++ read).map (·.startSeq)).Nodup) : read.foldl addUnit done = left ++ read := by
  obtain ⟨again, rfl⟩ := hleft
  rw [prefix_append_right_inj] at hdone
  obtain ⟨new, rfl⟩ := hdone
  have hagain : ∀ units ⊆ again, units.foldl addUnit (left ++ again) = left ++ again := by
    intro units hunits
    induction units with
    | nil => rfl
    | cons unit units ih =>
      obtain ⟨hunit, hrest⟩ := cons_subset.mp hunits
      have hmem : unit.startSeq ∈ (left ++ again).map (·.startSeq) :=
        mem_map_of_mem (mem_append_right _ hunit)
      rw [foldl_cons, addUnit, if_pos hmem, ih hrest]
  rw [foldl_append, hagain again (List.Subset.refl _), ← append_assoc]
  rw [← append_assoc] at hstarts
  generalize left ++ again = before at hstarts
  induction new generalizing before with
  | nil => rw [foldl_nil, append_nil]
  | cons unit new ih =>
    have hnew : unit.startSeq ∉ before.map (·.startSeq) := by
      rw [map_append, map_cons, nodup_middle, nodup_cons] at hstarts
      exact fun hmem => hstarts.1 (mem_append_left _ hmem)
    rw [foldl_cons, addUnit, if_neg hnew, ih _ (by simpa using hstarts)]
    simp

theorem pairwise_turnUnits {rows : List MessageRow} (h : rows.Pairwise (·.seq < ·.seq)) :
    (turnUnits rows).Pairwise fun a b => a.endSeq < b.startSeq := by
  rw [← rows_turnUnits rows, pairwise_flatMap] at h
  refine h.2.imp fun {a b} hab => ?_
  exact hab _ (getLast_mem (cons_ne_nil _ _)) _ (mem_cons_self ..)

theorem nodup_startSeq {rows : List MessageRow} (h : rows.Pairwise (·.seq < ·.seq)) :
    ((turnUnits rows).map (·.startSeq)).Nodup := by
  rw [List.Nodup, pairwise_map]
  refine (List.Pairwise.and_mem.mp (pairwise_turnUnits h)).imp ?_
  intro a b hab heq
  have := startSeq_le_endSeq h hab.1
  have := hab.2.2
  omega

theorem run_read {α : Type} {q : ChunkQuery} {f : ChunkAnswer q → ChunkProg α} {value : ChunkAnswer q}
    (h : execChunkQuery q s = .ok (value, [])) : chunkTables.run (Prog.send q >>= f) s = chunkTables.run (f value) s := by
  have hsend : chunkTables.run (Prog.send q) s = .ok (value, []) := (chunkTables.run_send q s).trans h
  rw [chunkTables.run_bind, hsend]
  change (chunkTables.run (f value) s).map id = _
  cases chunkTables.run (f value) s <;> rfl

theorem run_chunkNewTurns (s : ChunkRows) : chunkTables.run (chunkNewTurns rt encode draw) s
    = chunkTables.run (settleRows rt encode draw s.lastChunkedSeq
        (chunkWindow s.rows.messages (chunkBoundary s.rows.messages s.lastChunkedSeq))) s :=
  (run_read rfl).trans <| (run_read rfl).trans <| (run_read rfl).trans (run_read rfl)

theorem eq_of_last_endSeq {rows : List MessageRow} (h : rows.Pairwise (·.seq < ·.seq))
    (hdone : done <+: settledUnits rows) {last final : TurnUnit} (hlast : done.getLast? = some last)
    (hfinal : (settledUnits rows).getLast? = some final) (hle : final.endSeq ≤ last.endSeq) :
    done = settledUnits rows := by
  obtain ⟨more, hmore⟩ := hdone
  rcases eq_nil_or_concat' more with rfl | ⟨more, unit, rfl⟩
  · rw [← hmore, append_nil]
  · rw [← hmore, ← append_assoc, getLast?_concat] at hfinal
    obtain rfl := Option.some.inj hfinal
    have hsub : done ++ (more ++ [unit]) <+: turnUnits rows := by
      rw [hmore]
      exact dropLast_prefix _
    have hpairs := (pairwise_turnUnits h).sublist hsub.sublist
    have hbefore := (pairwise_append.mp hpairs).2.2 last (mem_of_getLast? hlast) unit (by simp)
    have := startSeq_le_endSeq h (hsub.subset (by simp : unit ∈ done ++ (more ++ [unit])))
    omega

theorem watermark_cases {rows : List MessageRow} (h : rows.Pairwise (·.seq < ·.seq))
    (hfull : settledUnits rows = left ++ read) (hdone : done <+: settledUnits rows)
    (hsame : read = [] → done = settledUnits rows) :
    (advances (read.getLast?.map (·.endSeq)) (done.getLast?.map (·.endSeq)) = true →
        read.getLast?.map (·.endSeq) = (settledUnits rows).getLast?.map (·.endSeq) ∧ read ≠ [] ∧
          settledUnits rows ≠ done) ∧
      (advances (read.getLast?.map (·.endSeq)) (done.getLast?.map (·.endSeq)) = false →
        done.getLast?.map (·.endSeq) = (settledUnits rows).getLast?.map (·.endSeq)) := by
  rcases eq_nil_or_concat' read with rfl | ⟨read, final, rfl⟩
  · rw [hsame rfl]
    exact ⟨fun hadvances => by simp [advances] at hadvances, fun _ => rfl⟩
  · have hfinal : (settledUnits rows).getLast? = some final := by
      rw [hfull, ← append_assoc, getLast?_concat]
    rw [getLast?_concat, Option.map_some]
    refine ⟨fun hadvances => ⟨by rw [hfinal, Option.map_some], by simp, ?_⟩, fun hadvances => ?_⟩
    · rintro rfl
      simp [hfinal, advances] at hadvances
    cases hlast : done.getLast? with
    | none => simp [hlast, advances] at hadvances
    | some last =>
      have hle : final.endSeq ≤ last.endSeq := by simpa [hlast, advances] using hadvances
      rw [← hlast, eq_of_last_endSeq h hdone hlast hfinal hle]

/-- What storing a final part of the settled units leaves: the chunks of all of them, and the watermark at the end of the last one. -/
theorem ensures_settleRows {rows : Rows} (hrows : Contiguous rows.messages) {window : List MessageRow}
    (hfull : settledUnits (spokenRows rows.messages) = left ++ settledUnits window) (hleft : left <+: done)
    (hdone : done <+: settledUnits (spokenRows rows.messages)) :
    chunkTables.Ensures (Stored encode rows (done.getLast?.map (·.endSeq)) done)
      (settleRows rt encode draw (done.getLast?.map (·.endSeq)) window)
      fun _ s => Stored encode rows ((settledUnits (spokenRows rows.messages)).getLast?.map (·.endSeq))
          (settledUnits (spokenRows rows.messages)) s ∧
        (∀ unit ∈ settledUnits (spokenRows rows.messages), unit ∈ done ∨ Countable rt unit) ∧
        (settledUnits (spokenRows rows.messages) = done ∨ rows.known = true) := by
  have hsorted := pairwise_spokenRows hrows
  -- what was settled before is all there is, if the pass reads nothing new
  have hsame : settledUnits window = [] → done = settledUnits (spokenRows rows.messages) := by
    intro hnil
    rw [hnil, append_nil] at hfull
    rw [hfull] at hdone ⊢
    exact hdone.sublist.antisymm hleft.sublist
  rw [settleRows]
  split
  · rename_i hempty
    rw [List.isEmpty_iff] at hempty
    have hdone := hsame (by rw [hempty]; rfl)
    refine .ret fun s hs => ?_
    rw [← hdone]
    exact ⟨hs, fun unit hunit => .inl hunit, .inl rfl⟩
  · refine (ensures_insertChunks rows _ (settledUnits window) done 0 none).bind fun result s hs => ?_
    obtain ⟨hend, ⟨hcountable, hknown⟩, hstored⟩ := hs
    have hnodup : ((left ++ settledUnits window).map (·.startSeq)).Nodup := by
      rw [← hfull]
      exact (nodup_startSeq hsorted).sublist ((dropLast_sublist _).map _)
    rw [foldl_addUnit hleft (hfull ▸ hdone) hnodup, ← hfull] at hstored hknown
    rw [Option.or_none] at hend
    have hunits : ∀ unit ∈ settledUnits (spokenRows rows.messages), unit ∈ done ∨ Countable rt unit := by
      intro unit hunit
      rw [hfull] at hunit
      rcases mem_append.mp hunit with hunit | hunit
      · exact .inl (hleft.subset hunit)
      · exact .inr (hcountable unit hunit)
    have hcases := watermark_cases hsorted hfull hdone hsame
    rw [← hend] at hcases
    -- the last statement, if it is sent, sets the watermark to the end of the last settled unit
    split
    · rename_i hadvances
      obtain ⟨hfinal, hread, hnew⟩ := hcases.1 hadvances
      have hknown := hknown.resolve_left hnew
      obtain ⟨seq, hseq⟩ : ∃ seq, result.2 = some seq := by
        rw [hend, getLast?_eq_some_getLast hread]
        exact ⟨_, rfl⟩
      intro answer ws hrun
      rw [chunkTables.run_bind, chunkTables.run_send] at hrun
      obtain ⟨rfl, rfl⟩ : result = answer ∧ [ChunkWrite.watermark (result.2.getD 0)] = ws := by
        change Except.ok (_, (if s.rows.known then _ else _) ++ []) = _ at hrun
        simpa [hstored.rows, hknown] using Except.ok.inj hrun
      refine ⟨⟨hstored.rows, ?_, hstored.chunks⟩, hunits, .inr hknown⟩
      rw [← hfinal, hseq]
      rfl
    · rename_i hadvances
      have hwatermark := hcases.2 (Bool.eq_false_iff.mpr hadvances)
      intro answer ws hrun
      obtain ⟨rfl, rfl⟩ : result = answer ∧ ([] : List ChunkWrite) = ws := by simpa using Except.ok.inj hrun
      rw [← hwatermark]
      exact ⟨hstored, hunits, hknown⟩

/-- A pass behind the units `done` leaves the chunks of all settled units. -/
theorem ensures_chunkNewTurns {rows : Rows} (hrows : Contiguous rows.messages)
    (hdone : done <+: settledUnits (spokenRows rows.messages)) :
    chunkTables.Ensures (Stored encode rows (done.getLast?.map (·.endSeq)) done) (chunkNewTurns rt encode draw)
      fun _ s => Stored encode rows ((settledUnits (spokenRows rows.messages)).getLast?.map (·.endSeq))
          (settledUnits (spokenRows rows.messages)) s ∧
        (∀ unit ∈ settledUnits (spokenRows rows.messages), unit ∈ done ∨ Countable rt unit) ∧
        (settledUnits (spokenRows rows.messages) = done ∨ rows.known = true) := by
  intro s hs result ws hrun
  obtain ⟨left, read, hfull, hleft, rfl⟩ := settled_window hrows hdone
  rw [run_chunkNewTurns, hs.rows, hs.watermark] at hrun
  exact ensures_settleRows hrows hfull hleft hdone s hs result ws hrun

theorem ChunkRows.known_add (h : s.rows.known = true) (w : ChunkWrite) : (s.add w).rows.known = true := by
  cases w with
  | store w =>
    cases w with
    | conversation => rfl
    | message | toolCall | toolResult | media => exact h
  | chunk | watermark => exact h

theorem known_applyParts (h : s.rows.known = true) (ws : List ChunkWrite) :
    (chunkTables.applyParts ws s).rows.known = true := by
  induction ws generalizing s with
  | nil => exact h
  | cons w ws ih => exact ih (s.known_add h w)

theorem failsOnly_insertChunks {units : List TurnUnit} (h : ∀ unit ∈ units, Countable rt unit) (created : ℕ)
    (settledEnd : Option ℤ) :
    chunkTables.FailsOnly (fun s => s.rows.known = true) (insertChunks rt encode draw units created settledEnd)
      fun _ => False := by
  have hkeeps : ∀ {α : Type} (p : ChunkProg α),
      chunkTables.Ensures (fun s => s.rows.known = true) p fun _ s => s.rows.known = true :=
    fun p s hs _ ws _ => known_applyParts hs ws
  induction units generalizing created settledEnd with
  | nil => exact .ret _
  | cons unit units ih =>
    obtain ⟨⟨n, hn⟩, hrest⟩ := forall_mem_cons.mp h
    have hcount : chunkTables.FailsOnly (fun s => s.rows.known = true)
        (Prog.ofExcept (raised (messagesTokens rt (unit.rows.map (·.content))))) fun _ => False := by
      refine .ofExcept fun e he => ?_
      rw [hn] at he
      cases he
    have hinsert : ∀ chunk, chunkTables.FailsOnly (fun s => s.rows.known = true)
        (Prog.send (ChunkQuery.insertChunk chunk)) fun _ => False := by
      refine fun chunk => .send fun s hs e he => ?_
      change (if _ then _ else if !s.rows.known then _ else _) = _ at he
      rw [hs] at he
      split at he
      · cases he
      · cases he
    refine .bind (.bind hcount (hkeeps _) fun _ => hinsert _) (hkeeps _) fun _ => ?_
    exact ih hrest _ _

theorem exists_run_chunkNewTurns (hs : Contiguous s.rows.messages) (hfresh : s.lastChunkedSeq = none)
    (h : ∀ unit ∈ settledUnits (spokenRows s.rows.messages), Countable rt unit)
    (hknown : settledUnits (spokenRows s.rows.messages) = [] ∨ s.rows.known = true) :
    ∃ result ws, chunkTables.run (chunkNewTurns rt encode draw) s = .ok (result, ws) := by
  have hinsert : chunkTables.FailsOnly (fun t => t = s)
      (insertChunks rt encode draw (settledUnits (spokenRows s.rows.messages)) 0 none) fun _ => False := by
    rcases hknown with hnil | hknown
    · rw [hnil]
      exact .ret _
    · exact fun t ht => failsOnly_insertChunks h 0 none t (ht ▸ hknown)
  have hfails : chunkTables.FailsOnly (fun t => t = s)
      (settleRows rt encode draw none (spokenRows s.rows.messages)) fun _ => False := by
    rw [settleRows]
    split
    · exact .ret _
    · refine .bind hinsert (.trivial _ _) fun result => ?_
      split
      · exact .bind (.send fun _ _ e he => nomatch he) (.trivial _ _) fun _ => .ret _
      · exact .ret _
  rw [run_chunkNewTurns, hfresh, chunkBoundary_none hs, chunkWindow_zero hs]
  cases hrun : chunkTables.run (settleRows rt encode draw none (spokenRows s.rows.messages)) s with
  | ok out => exact ⟨out.1, out.2, rfl⟩
  | error e => exact absurd hrun fun hrun => hfails s rfl e hrun

end Stored

/-! ### Interleaved appends and passes -/

/-- A call of the store, or a pass over a conversation with the ids the database draws for its chunks. -/
inductive ChunkCall where
  | store (call : Call)
  | pass (conversation : ConversationId) (draw : ℤ → RowId)

def ChunkCall.conversation : ChunkCall → ConversationId
  | .store call => call.conversation
  | .pass conversation _ => conversation

abbrev ChunkResult := List RowId ⊕ (ℕ × Option ℤ)

def ofStore {α : Type} (p : StoreProg α) : ChunkProg α := p.lift ChunkQuery.store fun _ answer => answer

section Calls

variable (rt : Runtime) (encode : Message → String)

def ChunkCall.prog : ChunkCall → ChunkProg ChunkResult
  | .store call => do
      let ids ← ofStore (call.prog rt)
      return .inl ids
  | .pass _ draw => do
      let result ← chunkNewTurns rt encode draw
      return .inr result

/-- The statements that wait for the row of the conversation and hold it. The foreign key of a new chunk holds it in a mode that two passes without the row lock could share; here it is taken as the lock. -/
def takesRowLock : ChunkQuery → ChunkRows → Bool
  | .store q, _ => takesLock q
  -- SELECT ... FOR UPDATE locks the rows it finds
  | .lockRow, s | .setWatermark _, s => s.rows.known
  | .insertChunk chunk, s => !s.chunks.any (·.startSeq = chunk.startSeq)
  | .watermark, _ | .boundary _, _ | .window _, _ => false

variable {s : ChunkRows} {ws : List ChunkWrite}

theorem ChunkCall.locksFirst (call : ChunkCall) (h : ∀ c draw, call = .pass c draw → s.rows.known = true) :
    (call.prog rt encode).LocksFirst fun q => takesRowLock q s := by
  cases call with
  | pass conversation draw => exact h conversation draw rfl
  | store call =>
    have hlocks := call.locksFirst rt
    rw [ChunkCall.prog]
    cases hprog : call.prog rt with
    | ret ids => trivial
    | raise e => trivial
    | ask q next =>
      rw [hprog] at hlocks
      exact hlocks

def chunkSystem {ι : Type} (calls : ι → ChunkCall) :
    System ConversationId ChunkDb ChunkRows ChunkWrite ι ChunkAnswer StoreError ChunkResult where
  tables := chunkTables
  locks := takesRowLock
  key := fun i => (calls i).conversation
  prog := fun i => (calls i).prog rt encode

/-- What every run keeps: the chunks are those of some part of the history, which only grows. -/
def Chunked (s : ChunkRows) : Prop :=
  Contiguous s.rows.messages ∧ ∃ past, past <+: spokenRows s.rows.messages ∧
    Stored encode s.rows ((settledUnits past).getLast?.map (·.endSeq)) (settledUnits past) s ∧
      (∀ unit ∈ settledUnits past, Countable rt unit) ∧ (settledUnits past = [] ∨ s.rows.known = true)

variable {rt encode}

theorem rows_applyParts_store (ws : List Write) (s : ChunkRows) :
    chunkTables.applyParts (ws.map .store) s = { s with rows := storeTables.applyParts ws s.rows } := by
  induction ws generalizing s with
  | nil => rfl
  | cons w ws ih => exact ih { s with rows := s.rows.add w }

theorem run_ofStore {α : Type} {p : StoreProg α} {a : α} (h : chunkTables.run (ofStore p) s = .ok (a, ws)) :
    ∃ own, storeTables.run p s.rows = .ok (a, own) ∧ chunkTables.applyParts ws s
      = { s with rows := storeTables.applyParts own s.rows } := by
  have hexec : ∀ q s answer ws, chunkTables.exec (.store q) s = .ok (answer, ws) →
      ∃ own, storeTables.exec q s.rows = .ok (answer, own) ∧
        (chunkTables.applyParts ws s).rows = storeTables.applyParts own s.rows ∧
        ((chunkTables.applyParts ws s).chunks, (chunkTables.applyParts ws s).lastChunkedSeq)
          = (s.chunks, s.lastChunkedSeq) := by
    intro q s answer ws hexec
    change (execQuery q s.rows).map _ = _ at hexec
    cases hq : execQuery q s.rows with
    | error e =>
      rw [hq] at hexec
      cases hexec
    | ok out =>
      rw [hq] at hexec
      cases hexec
      exact ⟨out.2, hq, by rw [rows_applyParts_store], by rw [rows_applyParts_store]⟩
  obtain ⟨own, hrun, hrows, hother⟩ := storeTables.run_lift chunkTables ChunkRows.rows
    (fun s => (s.chunks, s.lastChunkedSeq)) hexec p h
  obtain ⟨hchunks, hwatermark⟩ := Prod.mk.inj hother
  refine ⟨own, hrun, ?_⟩
  cases hs : chunkTables.applyParts ws s
  rw [hs] at hrows hchunks hwatermark
  simp only at hrows hchunks hwatermark
  rw [hrows, hchunks, hwatermark]

variable {result : ChunkResult}

theorem run_storeCall {call : Call} (hs : Contiguous s.rows.messages)
    (h : chunkTables.run ((ChunkCall.store call).prog rt encode) s = .ok (result, ws)) :
    ∃ rows, chunkTables.applyParts ws s = { s with rows } ∧ Contiguous rows.messages ∧
      s.rows.messages <+: rows.messages := by
  rw [ChunkCall.prog, chunkTables.run_bind] at h
  obtain ⟨⟨ids, first⟩, hfirst, h⟩ := bind_eq_ok.mp h
  obtain ⟨rfl, rfl⟩ : Sum.inl ids = result ∧ first = ws := by simpa using Except.ok.inj h
  obtain ⟨own, hrun, hparts⟩ := run_ofStore hfirst
  obtain ⟨hcontiguous, new, hnew, -⟩ := call.ensures rt hs s.rows rfl ids own hrun
  exact ⟨_, hparts, hcontiguous, new, hnew.symm⟩

theorem spokenRows_isPrefix {messages messages' : List MessageRow} (h : messages <+: messages') :
    spokenRows messages <+: spokenRows messages' := by
  obtain ⟨new, rfl⟩ := h
  exact ⟨spokenRows new, (filter_append messages new).symm⟩

theorem run_pass {c : ConversationId} {draw : ℤ → RowId} (hs : Chunked rt encode s)
    (h : chunkTables.run ((ChunkCall.pass c draw).prog rt encode) s = .ok (result, ws)) :
    Stored encode s.rows ((settledUnits (spokenRows s.rows.messages)).getLast?.map (·.endSeq))
        (settledUnits (spokenRows s.rows.messages)) (chunkTables.applyParts ws s) ∧
      (∀ unit ∈ settledUnits (spokenRows s.rows.messages), Countable rt unit) ∧
      (settledUnits (spokenRows s.rows.messages) = [] ∨ s.rows.known = true) := by
  obtain ⟨hcontiguous, past, hpast, hstored, hcountable, hknown⟩ := hs
  rw [ChunkCall.prog, chunkTables.run_bind] at h
  obtain ⟨⟨out, first⟩, hfirst, h⟩ := bind_eq_ok.mp h
  obtain ⟨rfl, rfl⟩ : Sum.inr out = result ∧ first = ws := by simpa using Except.ok.inj h
  obtain ⟨hafter, hunits, hnew⟩ :=
    ensures_chunkNewTurns hcontiguous (settled_isPrefix hpast) s hstored out first hfirst
  refine ⟨hafter, fun unit hunit => (hunits unit hunit).elim (hcountable unit) id, ?_⟩
  rcases hnew with hsame | hnew
  · exact hknown.imp_left hsame.trans
  · exact .inr hnew

/-- Every call keeps what holds between the chunks and the history. -/
theorem ensures_chunked (call : ChunkCall) :
    chunkTables.Ensures (Chunked rt encode) (call.prog rt encode) fun _ => Chunked rt encode := by
  intro s hs result ws hrun
  cases call with
  | store call =>
    obtain ⟨hcontiguous, past, hpast, hstored, hcountable, hknown⟩ := hs
    obtain ⟨rows, hparts, hrows, hgrows⟩ := run_storeCall hcontiguous hrun
    have hstays : s.rows.known = true → rows.known = true := by
      intro hs
      have hafter := known_applyParts hs ws
      rw [hparts] at hafter
      exact hafter
    rw [hparts]
    exact ⟨hrows, past, hpast.trans (spokenRows_isPrefix hgrows), ⟨rfl, hstored.watermark, hstored.chunks⟩, hcountable,
      hknown.imp_right hstays⟩
  | pass c draw =>
    obtain ⟨hstored, hcountable, hknown⟩ := run_pass hs hrun
    have hrows := hstored.rows
    refine ⟨hrows ▸ hs.1, spokenRows s.rows.messages, ?_, ?_, hcountable, hrows ▸ hknown⟩
    · rw [hrows]
    · rw [hrows]
      exact hstored

/-- The watermark is set once and then only goes up. -/
def WatermarkGrows (s s' : ChunkRows) : Prop :=
  ∀ seq, s.lastChunkedSeq = some seq → ∃ seq', s'.lastChunkedSeq = some seq' ∧ seq ≤ seq'

theorem endSeq_le_of_isPrefix {rows : List MessageRow} (h : rows.Pairwise (·.seq < ·.seq)) {done : List TurnUnit}
    (hdone : done <+: settledUnits rows) {last : TurnUnit} (hlast : done.getLast? = some last) :
    ∃ final, (settledUnits rows).getLast? = some final ∧ last.endSeq ≤ final.endSeq := by
  have hne : settledUnits rows ≠ [] := by
    intro hnil
    rw [hnil, prefix_nil] at hdone
    simp [hdone] at hlast
  refine ⟨_, getLast?_eq_some_getLast hne, ?_⟩
  by_contra hlt
  have heq := eq_of_last_endSeq h hdone hlast (getLast?_eq_some_getLast hne) (by omega)
  rw [heq, getLast?_eq_some_getLast hne] at hlast
  rw [Option.some.inj hlast] at hlt
  exact hlt (Int.le_refl _)

theorem ensures_watermarkGrows (call : ChunkCall) (s : ChunkRows) :
    chunkTables.Ensures (fun s' => Chunked rt encode s' ∧ s' = s) (call.prog rt encode) fun _ => WatermarkGrows s := by
  rintro _ ⟨hs, rfl⟩ result ws hrun
  cases call with
  | store call =>
    obtain ⟨rows, hparts, -, -⟩ := run_storeCall hs.1 hrun
    rw [hparts]
    exact fun seq hseq => ⟨seq, hseq, Int.le_refl _⟩
  | pass c draw =>
    obtain ⟨hstored, -⟩ := run_pass hs hrun
    obtain ⟨hcontiguous, past, hpast, hbefore, -⟩ := hs
    intro seq hseq
    rw [hbefore.watermark, Option.map_eq_some_iff] at hseq
    obtain ⟨last, hlast, rfl⟩ := hseq
    obtain ⟨final, hfinal, hle⟩ :=
      endSeq_le_of_isPrefix (pairwise_spokenRows hcontiguous) (settled_isPrefix hpast) hlast
    exact ⟨final.endSeq, by rw [hstored.watermark, hfinal]; rfl, hle⟩

/-- No chunk has been made, and there is no watermark. -/
structure ChunkRows.Unchunked (s : ChunkRows) : Prop where
  contiguous : Contiguous s.rows.messages
  chunks : s.chunks = []
  watermark : s.lastChunkedSeq = none

theorem ChunkRows.Unchunked.stored (h : s.Unchunked) : Stored encode s.rows none [] s :=
  ⟨rfl, h.watermark, by rw [h.chunks]; rfl⟩

theorem ChunkRows.Unchunked.chunked (h : s.Unchunked) : Chunked rt encode s :=
  ⟨h.contiguous, [], nil_prefix, h.stored, by simp [settledUnits, turnUnits, UnitLoop.close], .inl rfl⟩

/-- The rows of the conversation as they were, without chunks and watermark. -/
def ChunkRows.forget (s : ChunkRows) : ChunkRows := { s with chunks := [], lastChunkedSeq := none }

/-- One pass over a history without chunks stores its settled units. -/
theorem run_batch (hs : Contiguous s.rows.messages)
    (h : ∀ unit ∈ settledUnits (spokenRows s.rows.messages), Countable rt unit)
    (hknown : settledUnits (spokenRows s.rows.messages) = [] ∨ s.rows.known = true) (draw : ℤ → RowId) :
    ∃ result ws, chunkTables.run (chunkNewTurns rt encode draw) s.forget = .ok (result, ws) ∧
      (chunkTables.applyParts ws s.forget).chunks.map (·.data)
        = (settledUnits (spokenRows s.rows.messages)).map (unitData encode) := by
  have hunchunked : s.forget.Unchunked := ⟨hs, rfl, rfl⟩
  obtain ⟨result, ws, hrun⟩ : ∃ result ws, chunkTables.run (chunkNewTurns rt encode draw) s.forget = .ok (result, ws) :=
    exists_run_chunkNewTurns hs rfl h hknown
  exact ⟨result, ws, hrun, (ensures_chunkNewTurns hs nil_prefix s.forget hunchunked.stored result ws hrun).1.chunks⟩

section Reachable

variable {ι : Type} [DecidableEq ι] {calls : ι → ChunkCall} {db : ChunkDb}
  {w w' : World ConversationId ChunkDb ι ChunkWrite ChunkAnswer StoreError ChunkResult}

variable (rt encode calls) in
/-- A pass that goes past its first statement has found the row of its conversation. -/
def FindsRow (i : ι) (w w' : World ConversationId ChunkDb ι ChunkWrite ChunkAnswer StoreError ChunkResult) : Prop :=
  ∀ c draw, calls i = .pass c draw → w.proc i = .active ((calls i).prog rt encode) [] →
    (w'.proc i).Ended ∨ (w.store.part c).rows.known = true

variable (rt encode calls) in
/-- The runs in which the row of the conversation exists when a pass takes its lock. -/
def StepsOnRows (w w' : World ConversationId ChunkDb ι ChunkWrite ChunkAnswer StoreError ChunkResult) : Prop :=
  Relation.ReflTransGen (fun w w' => ∃ i, (chunkSystem rt encode calls).Step i w w' ∧ FindsRow rt encode calls i w w') w w'

omit [DecidableEq ι] in
theorem FindsRow.locksFirst {i : ι} (h : FindsRow rt encode calls i w w') :
    (chunkSystem rt encode calls).LocksFirst i w w' := by
  intro hproc
  by_cases hended : (w'.proc i).Ended
  · exact .inl hended
  · refine .inr ((calls i).locksFirst rt encode fun c draw hcall => ?_)
    have hknown := (h c draw hcall hproc).resolve_left hended
    change (w.store.part (calls i).conversation).rows.known = true
    rw [hcall]
    exact hknown

theorem StepsOnRows.locked (h : StepsOnRows rt encode calls w w') : (chunkSystem rt encode calls).LockedSteps w w' := by
  induction h with
  | refl => exact .refl
  | tail _ hstep ih =>
    obtain ⟨i, hstep, hfinds⟩ := hstep
    exact ih.tail ⟨i, hstep, hfinds.locksFirst⟩

/-- It is enough that the rows are there before the first pass starts. -/
theorem stepsOnRows_of_known (hknown : ∀ i c draw, calls i = .pass c draw → (w.store.part c).rows.known = true)
    (h : (chunkSystem rt encode calls).Steps w w') : StepsOnRows rt encode calls w w' := by
  induction h with
  | refl => exact .refl
  | tail hsteps hstep ih =>
    obtain ⟨i, hstep⟩ := hstep
    refine ih.tail ⟨i, hstep, fun c draw hcall _ => .inr ?_⟩
    exact System.Steps.part_keeps (S := chunkSystem rt encode calls) (P := fun s => s.rows.known = true)
      (fun w s hs => s.known_add hs w) hsteps c (hknown i c draw hcall)

theorem chunked_of_stepsOnRows (hdb : ∀ c, (db.part c).Unchunked)
    (h : StepsOnRows rt encode calls ((chunkSystem rt encode calls).init db) w) (c : ConversationId) :
    Chunked rt encode (w.store.part c) :=
  System.part_invariant (S := chunkSystem rt encode calls) (fun c => (hdb c).chunked)
    (fun i => ensures_chunked (calls i)) h.locked c

variable {history : List MessageRow} {watermark : Option ℤ}

theorem messageIds_of_stored {rows : Rows} {s : ChunkRows} (h : Stored encode rows watermark (settledUnits history) s) :
    s.chunks.flatMap (·.messageIds) ++ (turnUnits history).getLast?.toList.flatMap (·.rows.map (·.id))
      = history.map (·.id) := by
  have hids : s.chunks.map (·.messageIds) = (settledUnits history).map fun unit => unit.rows.map (·.id) := by
    have := congrArg (List.map fun data => data.2.2.1) h.chunks
    rw [map_map, map_map] at this
    exact this
  have hall : (turnUnits history).flatMap (fun unit => unit.rows.map (·.id)) = history.map (·.id) := by
    rw [← map_flatMap, rows_turnUnits]
  rw [flatMap_def, hids, ← flatMap_def, ← hall, settledUnits]
  rcases eq_nil_or_concat' (turnUnits history) with hnil | ⟨units, last, hlast⟩
  · rw [hnil]
    rfl
  · rw [hlast, dropLast_concat, getLast?_concat, flatMap_append]
    rfl

theorem pairwise_of_stored {rows : Rows} {s : ChunkRows} (hsorted : history.Pairwise (·.seq < ·.seq))
    (h : Stored encode rows watermark (settledUnits history) s) : s.chunks.Pairwise fun a b => a.endSeq < b.startSeq := by
  have hunits : ((settledUnits history).map (unitData encode)).Pairwise fun a b => a.2.1 < b.1 := by
    rw [pairwise_map]
    exact (pairwise_turnUnits hsorted).sublist (dropLast_sublist _)
  rw [← h.chunks, pairwise_map] at hunits
  exact hunits

theorem WatermarkGrows.trans {a b c : ChunkRows} (hab : WatermarkGrows a b) (hbc : WatermarkGrows b c) :
    WatermarkGrows a c := by
  intro seq hseq
  obtain ⟨seq', hseq', hle⟩ := hab seq hseq
  obtain ⟨seq'', hseq'', hle'⟩ := hbc seq' hseq'
  exact ⟨seq'', hseq'', hle.trans hle'⟩

/-- Incremental chunking is batch chunking, as long as the row of the conversation exists when a pass takes its lock: after a pass, in any interleaving of writers and passes, the chunks are those of a single pass over the history without chunks. They are the units of the history but the last, they do not overlap, and the watermark never goes down. -/
theorem chunks_eq_batch (hdb : ∀ c, (db.part c).Unchunked)
    (h : StepsOnRows rt encode calls ((chunkSystem rt encode calls).init db) w) :
    (∀ i w' result c draw, calls i = .pass c draw → (chunkSystem rt encode calls).Step i w w' →
        w'.proc i = .committed result →
      (∀ draw', ∃ out ws, chunkTables.run (chunkNewTurns rt encode draw') (w'.store.part c).forget = .ok (out, ws) ∧
        (w'.store.part c).chunks.map (·.data)
          = (chunkTables.applyParts ws (w'.store.part c).forget).chunks.map (·.data)) ∧
      (w'.store.part c).chunks.flatMap (·.messageIds)
          ++ (turnUnits (spokenRows (w'.store.part c).rows.messages)).getLast?.toList.flatMap (·.rows.map (·.id))
        = (spokenRows (w'.store.part c).rows.messages).map (·.id)) ∧
      (∀ c, (w.store.part c).chunks.Pairwise fun a b => a.endSeq < b.startSeq) ∧
      ∀ w', StepsOnRows rt encode calls w w' → ∀ c, WatermarkGrows (w.store.part c) (w'.store.part c) := by
  refine ⟨?_, ?_, ?_⟩
  · intro i w' result c draw hcall hstep hcommitted
    have hchunked := chunked_of_stepsOnRows hdb h c
    rcases hstep.effect (System.inv_of_steps h.locked) with ⟨-, -, hopen⟩ | ⟨out, ws, -, -, hrun, hstore⟩
    · exact absurd hcommitted (hopen result)
    · change chunkTables.run ((calls i).prog rt encode) (w.store.part (calls i).conversation) = _ at hrun
      change w'.store = chunkTables.applyAll (calls i).conversation ws w.store at hstore
      rw [hcall] at hrun hstore
      obtain ⟨hstored, hcountable, hknown⟩ := run_pass hchunked hrun
      have hpart : w'.store.part c = chunkTables.applyParts ws (w.store.part c) := by
        rw [hstore]
        exact chunkTables.part_applyAll c ws w.store
      rw [← hpart] at hstored
      have hrows : (w'.store.part c).rows = (w.store.part c).rows := hstored.rows
      have hcontiguous : Contiguous (w'.store.part c).rows.messages := hrows ▸ hchunked.1
      rw [← hrows] at hstored hcountable hknown
      refine ⟨fun draw' => ?_, messageIds_of_stored hstored⟩
      obtain ⟨result', ws', hbatch, hchunks⟩ := run_batch hcontiguous hcountable hknown draw'
      exact ⟨result', ws', hbatch, hstored.chunks.trans hchunks.symm⟩
  · intro c
    obtain ⟨hcontiguous, past, hpast, hstored, -⟩ := chunked_of_stepsOnRows hdb h c
    exact pairwise_of_stored ((pairwise_spokenRows hcontiguous).sublist hpast.sublist) hstored
  · intro w' hsteps c
    exact System.part_rel (S := chunkSystem rt encode calls) (r := WatermarkGrows)
      (fun s seq hseq => ⟨seq, hseq, Int.le_refl _⟩) (fun _ _ _ => WatermarkGrows.trans) (fun c => (hdb c).chunked)
      (fun i => ensures_chunked (calls i)) (fun i s => ensures_watermarkGrows (calls i) s) h.locked hsteps.locked c

end Reachable

end Calls

def twoQuestions : ChunkDb where
  store := {
    conversations := ["c"]
    messages := [("c", ⟨1, 0, "user", textMessage "user" "A", []⟩), ("c", ⟨2, 1, "user", textMessage "user" "B", []⟩)] }
  chunks := []
  lastChunkedSeq := fun _ => none

inductive Racer where
  | early
  | opener
  | writer
  | late
  deriving DecidableEq

def race : Racer → ChunkCall
  | .early => .pass "c" fun _ => 7
  | .opener => .store (.appendMessages "c" [textMessage "user" "A", textMessage "user" "B"] none
      ⟨0, fun seq => seq.toNat + 1, fun _ _ => 0⟩)
  | .writer => .store (.appendMessages "c" [textMessage "user" "C"] none ⟨0, fun seq => seq.toNat + 1, fun _ _ => 0⟩)
  | .late => .pass "c" fun _ => 8

/-- The passes of a conversation with two questions: one runs to its end, a third question comes, and the other pass finds the first chunk and adds the second. -/
theorem chunks_eq_batch_twoQuestions : ∃ w w',
    StepsOnRows plainRuntime (fun _ => "") race ((chunkSystem plainRuntime (fun _ => "") race).init twoQuestions) w ∧
      (chunkSystem plainRuntime (fun _ => "") race).Step .late w w' ∧ w.history = [.early, .writer] ∧
      (w.store.part "c").chunks.map (·.messageIds) = [[1]] ∧ (w'.store.part "c").chunks.map (·.messageIds) = [[1], [2]] ∧
      (∀ draw', ∃ out ws, chunkTables.run (chunkNewTurns plainRuntime (fun _ => "") draw') (w'.store.part "c").forget
          = .ok (out, ws) ∧ (w'.store.part "c").chunks.map (·.data)
          = (chunkTables.applyParts ws (w'.store.part "c").forget).chunks.map (·.data)) ∧
      (w'.store.part "c").chunks.flatMap (·.messageIds)
          ++ (turnUnits (spokenRows (w'.store.part "c").rows.messages)).getLast?.toList.flatMap (·.rows.map (·.id))
        = (spokenRows (w'.store.part "c").rows.messages).map (·.id) := by
  have hdb : ∀ c, (twoQuestions.part c).Unchunked := by
    intro c
    refine ⟨?_, rfl, rfl⟩
    by_cases hc : "c" = c
    · subst hc
      rfl
    · simp [ChunkDb.part, twoQuestions, Db.rows, rowsOf, hc, Contiguous]
  have hknown : ∀ i c draw, race i = .pass c draw →
      ((((chunkSystem plainRuntime (fun _ => "") race).init twoQuestions).store).part c).rows.known = true := by
    intro i c draw hcall
    cases i with
    | opener | writer => cases hcall
    | early | late =>
      cases hcall
      rfl
  have hfree : ∀ x, (chunkSystem plainRuntime (fun _ => "") race).OnlyHolder x fun _ => none := fun _ _ => .inl rfl
  have hearly : (chunkSystem plainRuntime (fun _ => "") race).Reachable twoQuestions _ :=
    System.steps_commit (hfree .early) rfl rfl
  have hwriter := hearly.commit (hfree .writer) rfl rfl
  have hlock := hwriter.step (i := .late) (.statement rfl (fun _ => .inl rfl) rfl)
  have hwatermark := hlock.step (i := .late) (.statement rfl (fun _ => .inr rfl) rfl)
  have hboundary := hwatermark.step (i := .late) (.statement rfl (fun _ => .inr rfl) rfl)
  have hwindow := hboundary.step (i := .late) (.statement rfl (fun _ => .inr rfl) rfl)
  have hinsert := hwindow.step (i := .late) (.statement rfl (fun _ => .inr rfl) rfl)
  have hagain := hinsert.step (i := .late) (.statement rfl (fun _ => .inr rfl) rfl)
  have hset := stepsOnRows_of_known hknown (hagain.step (i := .late) (.statement rfl (fun _ => .inr rfl) rfl))
  refine ⟨_, _, hset, .commit rfl, rfl, rfl, rfl, ?_⟩
  exact (chunks_eq_batch hdb hset).1 .late _ _ "c" _ rfl (.commit rfl) rfl

/-- A pass that starts before the first message is stored locks nothing. It reads two questions while a writer adds a third one, and ends with one chunk where a single pass makes two; if the other pass runs in between, it takes the watermark back. -/
theorem absent_row_unlocked : ∃ u, (chunkSystem plainRuntime (fun _ => "") race).Reachable ⟨{}, [], fun _ => none⟩ u ∧
    (∃ w result, (chunkSystem plainRuntime (fun _ => "") race).Steps u w ∧ w.proc .early = .committed result ∧
      (w.store.part "c").chunks.map (·.messageIds) = [[1]] ∧
      ∃ out ws, chunkTables.run (chunkNewTurns plainRuntime (fun _ => "") fun _ => 7) (w.store.part "c").forget
          = .ok (out, ws) ∧
        (chunkTables.applyParts ws (w.store.part "c").forget).chunks.map (·.messageIds) = [[1], [2]]) ∧
    ∃ w w', (chunkSystem plainRuntime (fun _ => "") race).Steps u w ∧
      (chunkSystem plainRuntime (fun _ => "") race).Steps w w' ∧
      (w.store.part "c").lastChunkedSeq = some 1 ∧ (w'.store.part "c").lastChunkedSeq = some 0 := by
  have hinit : (chunkSystem plainRuntime (fun _ => "") race).Reachable ⟨{}, [], fun _ => none⟩ _ := .refl
  have hlock := System.Steps.step hinit (i := .early) (.statement rfl (fun _ => .inl rfl) rfl)
  have hwatermark := hlock.step (i := .early) (.statement rfl (fun _ => .inl rfl) rfl)
  have hboundary := hwatermark.step (i := .early) (.statement rfl (fun _ => .inl rfl) rfl)
  have hopener := hboundary.commit (i := .opener) (fun _ => .inl rfl) rfl rfl
  have hwindow := hopener.step (i := .early) (.statement rfl (fun _ => .inl rfl) rfl)
  have hwriter := hwindow.commit (i := .writer) (fun _ => .inl rfl) rfl rfl
  refine ⟨_, hwriter, ?_, ?_⟩
  · exact ⟨_, _, System.Steps.commit .refl (i := .early) (fun _ => .inl rfl) rfl rfl, rfl, rfl, _, _, rfl, rfl⟩
  · exact ⟨_, _, System.Steps.commit .refl (i := .late) (fun _ => .inl rfl) rfl rfl,
      System.Steps.commit .refl (i := .early) (fun _ => .inl rfl) rfl rfl, rfl, rfl⟩

end ContextProxy
