import ContextProxy.Memory.Retrieval

/-!
# Isolation of conversations

`retrieve` over the tables of PostgreSQL, whatever the vector index returns. The index only names candidates, and each is looked up among the rows of the conversation. The queries have no `ORDER BY`, so rows may come in any order; the full-text hits are sorted by rank and cut to the size of the pool. Only there the order gets through, when the cut falls between two rows of one table and one rank (`retrieve_isolated_iff`).
-/

namespace ContextProxy

open Json List

/-! ### Tables -/

/-- Full-text search: which rows match a text, and with what rank. Both depend on the row and the text alone. -/
structure TextSearch (F : Type) where
  memoryMatches : String → StoredMemory → Bool
  memoryRank : String → StoredMemory → F
  chunkMatches : String → StoredChunk → Bool
  chunkRank : String → StoredChunk → F

/-- The rows of a table in the order of a scan; the key is printed as `uuid.UUID` prints it. -/
structure PrintedTable (uuid : UuidReader) {α : Type} (key : α → String) where
  rows : List α
  keys_nodup : (rows.map key).Nodup
  printed : ∀ row ∈ rows, uuid.python (key row) = some (key row)

structure RetrievalDb (uuid : UuidReader) where
  memories : PrintedTable uuid fun row : StoredMemory => row.id
  chunks : PrintedTable uuid fun row : StoredChunk => row.id

/-- What the queries of `retrieve` ask of the rows of a conversation, and the rank they give to a row. -/
structure Selection (F : Type) where
  memory : StoredMemory → Bool
  chunk : StoredChunk → Bool
  memoryRank : StoredMemory → F
  chunkRank : StoredChunk → F

def Selection.lexical {F : Type} (text : TextSearch F) (query : String) : Selection F where
  memory := text.memoryMatches query
  chunk := text.chunkMatches query
  memoryRank := text.memoryRank query
  chunkRank := text.chunkRank query

def Selection.byIds {F : Type} [Score F] (ids : List String) : Selection F where
  memory := fun row => row.id ∈ ids
  chunk := fun row => row.id ∈ ids
  memoryRank := fun _ => 0
  chunkRank := fun _ => 0

namespace RetrievalDb

variable {uuid : UuidReader} {F : Type} (db : RetrievalDb uuid)

def memoryRows (conversation : String) (s : Selection F) : List StoredMemory :=
  db.memories.rows.filter fun row => row.conversationId = conversation ∧ row.status = .active ∧ s.memory row = true

def chunkRows (conversation : String) (s : Selection F) : List StoredChunk :=
  db.chunks.rows.filter fun row => row.conversationId = conversation ∧ s.chunk row = true

def withUuid {α : Type} (uuid : UuidReader) (conversationId : String) (f : String → α) : Except DatabaseError α :=
  match uuid.driver conversationId with
  | none => .error (.interfaceError "invalid input for query argument $1")
  | some conversation => .ok (f conversation)

structure AgreesOn (conversation : String) (db db' : RetrievalDb uuid) : Prop where
  memories : (db.memories.rows.filter (·.conversationId = conversation)).Perm
    (db'.memories.rows.filter (·.conversationId = conversation))
  chunks : (db.chunks.rows.filter (·.conversationId = conversation)).Perm
    (db'.chunks.rows.filter (·.conversationId = conversation))

/-- There is a row of the conversation with this identifier and this content; a memory is active. -/
def Stores (conversation : String) (itemType : ItemType) (id content : String) : Prop :=
  match itemType with
  | .memory => ∃ row ∈ db.memories.rows, row.id = id ∧ row.conversationId = conversation ∧ row.status = .active ∧
      row.content = content
  | .chunk => ∃ row ∈ db.chunks.rows, row.id = id ∧ row.conversationId = conversation ∧ row.rawContent = content

def select (conversation : String) (s : Selection F) : List (String × Recalled F) :=
  ((db.memoryRows conversation s).map fun row => recallMemory row (s.memoryRank row)) ++
    (db.chunkRows conversation s).map fun row => recallChunk row (s.chunkRank row)

variable [Score F]

def store (text : TextSearch F) : RetrievalStore F where
  lexicalMemories := fun conversationId query => withUuid uuid conversationId fun conversation =>
    (db.memoryRows conversation (.lexical text query)).map fun row => (row, text.memoryRank query row)
  lexicalChunks := fun conversationId query => withUuid uuid conversationId fun conversation =>
    (db.chunkRows conversation (.lexical text query)).map fun row => (row, text.chunkRank query row)
  memoriesById := fun conversationId ids => withUuid uuid conversationId fun conversation =>
    db.memoryRows conversation (.byIds (F := F) ids)
  chunksById := fun conversationId ids => withUuid uuid conversationId fun conversation =>
    db.chunkRows conversation (.byIds (F := F) ids)

end RetrievalDb

/-- Memories are listed before chunks. -/
def ItemType.order : ItemType → ℕ
  | .memory => 0
  | .chunk => 1

theorem PrintedTable.eq_of_key {uuid : UuidReader} {α : Type} {key : α → String} (table : PrintedTable uuid key) {a b : α}
    (ha : a ∈ table.rows) (hb : b ∈ table.rows) (h : key a = key b) : a = b :=
  inj_on_of_nodup_map table.keys_nodup ha hb h

section Select

variable {uuid : UuidReader} {F : Type} {db db' : RetrievalDb uuid} {conversation : String} {s : Selection F}

variable {row : StoredMemory} {entry : String × Recalled F}

theorem mem_memoryRows : row ∈ db.memoryRows conversation s ↔
    row ∈ db.memories.rows ∧ row.conversationId = conversation ∧ row.status = .active ∧ s.memory row = true := by
  rw [RetrievalDb.memoryRows, mem_filter, decide_eq_true_iff]

theorem mem_chunkRows {row : StoredChunk} : row ∈ db.chunkRows conversation s ↔
    row ∈ db.chunks.rows ∧ row.conversationId = conversation ∧ s.chunk row = true := by
  rw [RetrievalDb.chunkRows, mem_filter, decide_eq_true_iff]

variable {key : String} {v : Recalled F}

theorem mem_select : (key, v) ∈ db.select conversation s ↔
    match v.itemType with
    | .memory => ∃ row ∈ db.memoryRows conversation s, recallMemory row (s.memoryRank row) = (key, v)
    | .chunk => ∃ row ∈ db.chunkRows conversation s, recallChunk row (s.chunkRank row) = (key, v) := by
  rw [RetrievalDb.select, mem_append, mem_map, mem_map]
  split
  · rename_i htype
    refine or_iff_left ?_
    intro ⟨row, _, heq⟩
    cases heq
    cases htype
  · rename_i htype
    refine or_iff_right ?_
    intro ⟨row, _, heq⟩
    cases heq
    cases htype

theorem stores_of_mem_select (h : (key, v) ∈ db.select conversation s) :
    db.Stores conversation v.itemType key v.content := by
  rw [mem_select] at h
  cases htype : v.itemType with
  | memory =>
    rw [htype] at h
    obtain ⟨row, hrow, heq⟩ := h
    cases heq
    obtain ⟨hmem, hconversation, hactive, -⟩ := mem_memoryRows.mp hrow
    exact ⟨row, hmem, rfl, hconversation, hactive, rfl⟩
  | chunk =>
    rw [htype] at h
    obtain ⟨row, hrow, heq⟩ := h
    cases heq
    obtain ⟨hmem, hconversation, -⟩ := mem_chunkRows.mp hrow
    exact ⟨row, hmem, rfl, hconversation, rfl⟩

theorem printed_of_stores {itemType : ItemType} {content : String} (h : db.Stores conversation itemType key content) :
    uuid.python key = some key := by
  cases itemType with
  | memory =>
    obtain ⟨row, hmem, rfl, -⟩ := h
    exact db.memories.printed row hmem
  | chunk =>
    obtain ⟨row, hmem, rfl, -⟩ := h
    exact db.chunks.printed row hmem

theorem eq_of_mem_select {w : Recalled F} (hv : (key, v) ∈ db.select conversation s)
    (hw : (key, w) ∈ db.select conversation s) (htype : v.itemType = w.itemType) : v = w := by
  rw [mem_select] at hv hw
  rw [← htype] at hw
  cases hitem : v.itemType with
  | memory =>
    rw [hitem] at hv hw
    obtain ⟨row, hrow, heq⟩ := hv
    obtain ⟨row', hrow', heq'⟩ := hw
    have hkey : row.id = row'.id := (congrArg Prod.fst heq).trans (congrArg Prod.fst heq').symm
    cases db.memories.eq_of_key (mem_memoryRows.mp hrow).1 (mem_memoryRows.mp hrow').1 hkey
    exact congrArg Prod.snd (heq.symm.trans heq')
  | chunk =>
    rw [hitem] at hv hw
    obtain ⟨row, hrow, heq⟩ := hv
    obtain ⟨row', hrow', heq'⟩ := hw
    have hkey : row.id = row'.id := (congrArg Prod.fst heq).trans (congrArg Prod.fst heq').symm
    cases db.chunks.eq_of_key (mem_chunkRows.mp hrow).1 (mem_chunkRows.mp hrow').1 hkey
    exact congrArg Prod.snd (heq.symm.trans heq')

theorem pairwise_order_select : (db.select conversation s).Pairwise fun a b => a.2.itemType.order ≤ b.2.itemType.order := by
  refine pairwise_append.mpr ⟨?_, ?_, ?_⟩
  · exact pairwise_map.mpr (pairwise_of_forall fun _ _ => le_rfl)
  · exact pairwise_map.mpr (pairwise_of_forall fun _ _ => le_rfl)
  · intro a ha b hb
    obtain ⟨row, -, rfl⟩ := mem_map.mp ha
    obtain ⟨row', -, rfl⟩ := mem_map.mp hb
    exact Nat.zero_le 1

theorem RetrievalDb.AgreesOn.select_perm (h : RetrievalDb.AgreesOn conversation db db') (s : Selection F) :
    (db.select conversation s).Perm (db'.select conversation s) := by
  have hmemories : ∀ db : RetrievalDb uuid, db.memoryRows conversation s
      = (db.memories.rows.filter (·.conversationId = conversation)).filter
        fun row => row.status = .active ∧ s.memory row = true := by
    intro db
    rw [RetrievalDb.memoryRows, filter_filter]
    apply filter_congr
    intro row _
    rw [← Bool.decide_and]
    exact decide_eq_decide.mpr and_comm
  have hchunks : ∀ db : RetrievalDb uuid, db.chunkRows conversation s
      = (db.chunks.rows.filter (·.conversationId = conversation)).filter fun row => s.chunk row = true := by
    intro db
    rw [RetrievalDb.chunkRows, filter_filter]
    apply filter_congr
    intro row _
    rw [← Bool.decide_and]
    exact decide_eq_decide.mpr and_comm
  rw [RetrievalDb.select, RetrievalDb.select, hmemories, hmemories, hchunks, hchunks]
  exact ((h.memories.filter _).map _).append ((h.chunks.filter _).map _)

/-! ### Exchanging two rows -/

theorem PrintedTable.nodup {α : Type} {key : α → String} (table : PrintedTable uuid key) : table.rows.Nodup :=
  table.keys_nodup.of_map

theorem eq_of_recallMemory {row' : StoredMemory} (hrow : row ∈ db.memories.rows) (hrow' : row' ∈ db.memories.rows)
    (h : recallMemory row (s.memoryRank row) = recallMemory row' (s.memoryRank row')) : row = row' := by
  have hkey : row.id = row'.id := congrArg Prod.fst h
  exact db.memories.eq_of_key hrow hrow' hkey

theorem eq_of_recallChunk {row row' : StoredChunk} (hrow : row ∈ db.chunks.rows) (hrow' : row' ∈ db.chunks.rows)
    (h : recallChunk row (s.chunkRank row) = recallChunk row' (s.chunkRank row')) : row = row' := by
  have hkey : row.id = row'.id := congrArg Prod.fst h
  exact db.chunks.eq_of_key hrow hrow' hkey

theorem itemType_of_mem_map_recallMemory {rows : List StoredMemory}
    (h : entry ∈ rows.map fun row => recallMemory row (s.memoryRank row)) : entry.2.itemType = .memory := by
  obtain ⟨row, -, rfl⟩ := mem_map.mp h
  rfl

theorem itemType_of_mem_map_recallChunk {rows : List StoredChunk}
    (h : entry ∈ rows.map fun row => recallChunk row (s.chunkRank row)) : entry.2.itemType = .chunk := by
  obtain ⟨row, -, rfl⟩ := mem_map.mp h
  rfl

theorem nodup_select : (db.select conversation s).Nodup := by
  refine nodup_append'.mpr ⟨?_, ?_, ?_⟩
  · exact (db.memories.nodup.filter _).map_on fun row hrow row' hrow' =>
      eq_of_recallMemory (mem_memoryRows.mp hrow).1 (mem_memoryRows.mp hrow').1
  · exact (db.chunks.nodup.filter _).map_on fun row hrow row' hrow' =>
      eq_of_recallChunk (mem_chunkRows.mp hrow).1 (mem_chunkRows.mp hrow').1
  · intro entry hmemory hchunk
    cases (itemType_of_mem_map_recallMemory hmemory).symm.trans (itemType_of_mem_map_recallChunk hchunk)

theorem PrintedTable.exists_exchange {α : Type} [DecidableEq α] {key : α → String} (table : PrintedTable uuid key) {a b : α}
    (ha : a ∈ table.rows) (hb : b ∈ table.rows) :
    ∃ table' : PrintedTable uuid key, table'.rows = table.rows.map (Equiv.swap a b) ∧ table.rows.Perm table'.rows := by
  have hperm := perm_map_swap table.nodup ha hb
  refine ⟨⟨table.rows.map (Equiv.swap a b), (hperm.map key).nodup_iff.mpr table.keys_nodup, ?_⟩, rfl, hperm.symm⟩
  intro row hrow
  exact table.printed row (hperm.mem_iff.mp hrow)

/-- Two selected rows of one table trade places in a database that agrees on the conversation. -/
theorem exists_exchange [DecidableEq (String × Recalled F)] {a b : String × Recalled F}
    (ha : a ∈ db.select conversation s) (hb : b ∈ db.select conversation s) (htype : a.2.itemType = b.2.itemType) :
    ∃ db', RetrievalDb.AgreesOn conversation db db' ∧
      db'.select conversation s = (db.select conversation s).map (Equiv.swap a b) := by
  classical
  have ha' := mem_select.mp ha
  have hb' := mem_select.mp hb
  rw [← htype] at hb'
  cases hitem : a.2.itemType with
  | memory =>
    rw [hitem] at ha' hb'
    obtain ⟨row, hrow, heq⟩ := ha'
    obtain ⟨row', hrow', heq'⟩ := hb'
    obtain ⟨hmem, hselected⟩ := mem_memoryRows.mp hrow
    obtain ⟨hmem', hselected'⟩ := mem_memoryRows.mp hrow'
    obtain ⟨table, htable, hperm⟩ := db.memories.exists_exchange hmem hmem'
    refine ⟨{ db with memories := table }, ⟨hperm.filter _, .refl _⟩, ?_⟩
    have hmemories := map_filter_swap
      (p := fun row : StoredMemory => row.conversationId = conversation ∧ row.status = .active ∧ s.memory row = true)
      (decide_eq_true hselected) (decide_eq_true hselected') (fun x hx y hy => eq_of_recallMemory (s := s) hx hy) hmem hmem'
    have hchunks : ∀ entry : String × Recalled F, entry.2.itemType = .memory →
        entry ∉ (db.chunkRows conversation s).map fun row => recallChunk row (s.chunkRank row) :=
      fun entry hentry h => by cases hentry.symm.trans (itemType_of_mem_map_recallChunk h)
    rw [heq, heq', ← htable] at hmemories
    rw [RetrievalDb.select, RetrievalDb.select, map_append,
      map_swap_of_notMem (hchunks a hitem) (hchunks b (htype ▸ hitem))]
    exact congrArg (· ++ _) hmemories
  | chunk =>
    rw [hitem] at ha' hb'
    obtain ⟨row, hrow, heq⟩ := ha'
    obtain ⟨row', hrow', heq'⟩ := hb'
    obtain ⟨hmem, hselected⟩ := mem_chunkRows.mp hrow
    obtain ⟨hmem', hselected'⟩ := mem_chunkRows.mp hrow'
    obtain ⟨table, htable, hperm⟩ := db.chunks.exists_exchange hmem hmem'
    refine ⟨{ db with chunks := table }, ⟨.refl _, hperm.filter _⟩, ?_⟩
    have hchunks := map_filter_swap
      (p := fun row : StoredChunk => row.conversationId = conversation ∧ s.chunk row = true)
      (decide_eq_true hselected) (decide_eq_true hselected') (fun x hx y hy => eq_of_recallChunk (s := s) hx hy) hmem hmem'
    have hmemories : ∀ entry : String × Recalled F, entry.2.itemType = .chunk →
        entry ∉ (db.memoryRows conversation s).map fun row => recallMemory row (s.memoryRank row) :=
      fun entry hentry h => by cases hentry.symm.trans (itemType_of_mem_map_recallMemory h)
    rw [heq, heq', ← htable] at hchunks
    rw [RetrievalDb.select, RetrievalDb.select, map_append,
      map_swap_of_notMem (hmemories a hitem) (hmemories b (htype ▸ hitem))]
    exact congrArg (_ ++ ·) hchunks

end Select

/-! ### What the queries return -/

/-- What a stable sort by rank puts a row by. -/
def Recalled.place {F : Type} [Score F] (row : Recalled F) : F ×ₗ ℕ := toLex (-row.rank, row.itemType.order)

theorem itemType_eq_of_place {F : Type} [Score F] {v w : Recalled F} (h : v.place = w.place) : v.itemType = w.itemType := by
  have horder : v.itemType.order = w.itemType.order := congrArg (fun place => (ofLex place).2) h
  cases hv : v.itemType <;> cases hw : w.itemType <;> rw [hv, hw] at horder <;> first | rfl | cases horder

section Queries

variable {F : Type} [Score F] {uuid : UuidReader} {db db' : RetrievalDb uuid} {text : TextSearch F}
  {c conversation query : String} {limit : ℕ} {ids : List String}

namespace RetrievalDb

def lexicalHits (db : RetrievalDb uuid) (text : TextSearch F) (conversation query : String) (limit : ℕ) :
    List (String × Recalled F) :=
  ((db.select conversation (.lexical text query)).insertionSort fun a b => -a.2.rank ≤ -b.2.rank).take limit

def fetched (db : RetrievalDb uuid) (conversation : String) (ids : List String) : List (String × Recalled F) :=
  match ids.mapM uuid.python with
  | none => []
  | some uuids => Dict.ofList (db.select conversation (.byIds uuids))

end RetrievalDb

theorem lexicalSearch_store (hc : uuid.driver c = some conversation) :
    lexicalSearch (db.store text) query c limit = .ok (db.lexicalHits text conversation query limit) := by
  have hhits : rankedHits
      ((db.memoryRows conversation (.lexical text query)).map fun row => (row, text.memoryRank query row))
      ((db.chunkRows conversation (.lexical text query)).map fun row => (row, text.chunkRank query row))
        = (db.select conversation (.lexical text query)).insertionSort fun a b => -a.2.rank ≤ -b.2.rank := by
    rw [rankedHits, map_map, map_map]
    rfl
  simp only [lexicalSearch, RetrievalDb.store, RetrievalDb.withUuid, hc]
  exact congrArg (fun hits => Except.ok (hits.take limit)) hhits

theorem fetchByIds_store (hc : uuid.driver c = some conversation) :
    fetchByIds uuid (db.store text) c ids = .ok (db.fetched conversation ids) := by
  rw [fetchByIds, RetrievalDb.fetched]
  match ids.mapM uuid.python with
  | none => rfl
  | some uuids =>
    simp only [RetrievalDb.store, RetrievalDb.withUuid, hc]
    rfl

theorem mem_select_of_mem_lexicalHits {entry : String × Recalled F}
    (h : entry ∈ db.lexicalHits text conversation query limit) : entry ∈ db.select conversation (.lexical text query) :=
  (mem_insertionSort _).mp (mem_of_mem_take h)

theorem pairwise_place_sorted : ((db.select conversation (.lexical text query)).insertionSort
    fun a b => -a.2.rank ≤ -b.2.rank).Pairwise fun a b => a.2.place ≤ b.2.place :=
  pairwise_insertionSort_lex pairwise_order_select

theorem pairwise_place_lexicalHits :
    (db.lexicalHits text conversation query limit).Pairwise fun a b => a.2.place ≤ b.2.place :=
  pairwise_place_sorted.sublist (take_sublist _ _)

theorem pairwise_place_byIds :
    (db.select conversation (.byIds (F := F) ids)).Pairwise fun a b => a.2.place ≤ b.2.place := by
  have hrank : ∀ entry ∈ db.select conversation (.byIds (F := F) ids), entry.2.rank = 0 := by
    intro entry hentry
    rcases mem_append.mp hentry with h | h
    · obtain ⟨row, -, rfl⟩ := mem_map.mp h
      rfl
    · obtain ⟨row, -, rfl⟩ := mem_map.mp h
      rfl
  apply pairwise_order_select.imp_of_mem
  intro a b ha hb horder
  apply Prod.Lex.toLex_le_toLex.mpr
  exact .inr ⟨by rw [hrank a ha, hrank b hb], horder⟩

/-- The rows of the conversation can be cut to the limit by their ranks alone; at one rank memories come first. -/
def RetrievalDb.CutDecided (db : RetrievalDb uuid) (text : TextSearch F) (conversation query : String) (limit : ℕ) : Prop :=
  Decided (fun entry => entry.2.place) limit (db.select conversation (.lexical text query))

theorem lexicalHits_perm (hagrees : RetrievalDb.AgreesOn conversation db db')
    (hdecided : db.CutDecided text conversation query limit) :
    (db.lexicalHits text conversation query limit).Perm (db'.lexicalHits text conversation query limit) := by
  have hsorted := perm_insertionSort (fun a b => -a.2.rank ≤ -b.2.rank) (db.select conversation (.lexical text query))
  have hsorted' := perm_insertionSort (fun a b => -a.2.rank ≤ -b.2.rank) (db'.select conversation (.lexical text query))
  have hperm := (hsorted.trans (hagrees.select_perm _)).trans hsorted'.symm
  exact (hdecided.perm hsorted.symm).take_perm hperm pairwise_place_sorted pairwise_place_sorted

theorem lookup_lexicalHits_congr (hagrees : RetrievalDb.AgreesOn conversation db db')
    (hdecided : db.CutDecided text conversation query limit) (key : String) :
    (Dict.ofList (db.lexicalHits text conversation query limit)).lookup key
      = (Dict.ofList (db'.lexicalHits text conversation query limit)).lookup key := by
  apply Dict.lookup_ofList_congr (lexicalHits_perm hagrees hdecided) pairwise_place_lexicalHits pairwise_place_lexicalHits
  intro k v w hv hw hplace
  exact eq_of_mem_select (mem_select_of_mem_lexicalHits hv) (mem_select_of_mem_lexicalHits hw) (itemType_eq_of_place hplace)

theorem lookup_fetched_congr (hagrees : RetrievalDb.AgreesOn conversation db db') (key : String) :
    (db.fetched (F := F) conversation ids).lookup key = (db'.fetched conversation ids).lookup key := by
  rw [RetrievalDb.fetched, RetrievalDb.fetched]
  match ids.mapM uuid.python with
  | none => rfl
  | some uuids =>
    apply Dict.lookup_ofList_congr (hagrees.select_perm _) pairwise_place_byIds pairwise_place_byIds
    intro k v w hv hw hplace
    exact eq_of_mem_select hv hw (itemType_eq_of_place hplace)

theorem nodup_keys_fetched : ((db.fetched (F := F) conversation ids).map Prod.fst).Nodup := by
  rw [RetrievalDb.fetched]
  match ids.mapM uuid.python with
  | none => exact nodup_nil
  | some uuids => exact Dict.nodup_keys_ofList _

/-- Where ranks do not decide, a database that agrees has another row within the cut. -/
theorem exists_tie (h : ¬db.CutDecided text conversation query limit) :
    ∃ db', RetrievalDb.AgreesOn conversation db db' ∧ ∃ front a b, b ∈ db.select conversation (.lexical text query) ∧
      db.lexicalHits text conversation query limit = front ++ [a] ∧
      db'.lexicalHits text conversation query limit = front ++ [b] ∧
      ∀ v, (b.1, v) ∈ front ++ [a] → v.itemType ≠ b.2.itemType := by
  classical
  have hsorted := perm_insertionSort (fun a b => -a.2.rank ≤ -b.2.rank) (db.select conversation (.lexical text query))
  obtain ⟨front, a, b, back, hsplit, hlength, hplace⟩ :=
    exists_tie_of_not_decided (fun hdecided => h (hdecided.perm hsorted)) pairwise_place_sorted
  have hmem : ∀ entry ∈ front ++ a :: b :: back, entry ∈ db.select conversation (.lexical text query) :=
    fun entry hentry => hsorted.mem_iff.mp (hsplit ▸ hentry)
  have hrank : -a.2.rank = -b.2.rank := congrArg (fun place => (ofLex place).1) hplace
  obtain ⟨db', hagrees, hselect⟩ := exists_exchange (hmem a (by simp)) (hmem b (by simp)) (itemType_eq_of_place hplace)
  have hcut : ∀ x y : String × Recalled F, (front ++ x :: y :: back).take limit = front ++ [x] := by
    intro x y
    have hassoc : front ++ x :: y :: back = (front ++ [x]) ++ y :: back := by simp
    rw [hassoc, take_left' (by rw [length_append, length_singleton, hlength])]
  refine ⟨db', hagrees, front, a, b, hmem b (by simp), ?_, ?_, ?_⟩
  · rw [RetrievalDb.lexicalHits, hsplit, hcut]
  · rw [RetrievalDb.lexicalHits, hselect, insertionSort_map_swap nodup_select hsplit hrank, hcut]
  · intro v hv htype
    have hassoc : front ++ a :: b :: back = (front ++ [a]) ++ b :: back := by simp
    have hnodup : ((front ++ [a]) ++ b :: back).Nodup := hassoc ▸ hsplit ▸ hsorted.nodup_iff.mpr nodup_select
    have hv' := hmem _ (hassoc ▸ mem_append_left _ hv)
    have hb : (b.1, v) = b := Prod.ext rfl (eq_of_mem_select hv' (hmem b (by simp)) htype)
    rw [hb] at hv
    exact disjoint_of_nodup_append hnodup hv mem_cons_self

theorem stores_of_mem_fetched {key : String} {v : Recalled F} (h : (key, v) ∈ db.fetched conversation ids) :
    db.Stores conversation v.itemType key v.content := by
  rw [RetrievalDb.fetched] at h
  match hids : ids.mapM uuid.python with
  | none =>
    rw [hids] at h
    cases h
  | some uuids =>
    rw [hids] at h
    exact stores_of_mem_select (Dict.mem_of_mem_ofList h)

end Queries

/-! ### What `retrieve` returns -/

namespace RetrievalService

variable {F : Type} [Score F] {service : RetrievalService F}

section Items

variable {c : String} {now : ℤ} {scores : List (String × F)} {maxRank : F}

variable {candidate : String × Recalled F} {item : ScoredItem F}

theorem item_eq_some (h : service.item c now scores maxRank candidate = some item) :
    item.id = candidate.1 ∧ item.itemType = candidate.2.itemType ∧ item.content = candidate.2.content := by
  obtain ⟨-, h⟩ := Option.ite_none_left_eq_some.mp h
  cases h
  exact ⟨rfl, rfl, rfl⟩

theorem exists_item (service : RetrievalService F) (c : String) (now : ℤ) (maxRank : F) {score : F}
    (hscore : scores.lookup candidate.1 = some score) (hpos : 0 < score) :
    ∃ item, service.item c now scores maxRank candidate = some item := by
  simp only [RetrievalService.item, hscore, Option.getD_some]
  rw [if_neg fun h => absurd h.1 (not_le.mpr hpos)]
  exact ⟨_, rfl⟩

def ranked (service : RetrievalService F) (conversationId : String) (now : ℤ) (scores : List (String × F)) (maxRank : F)
    (found : List (String × Recalled F)) : List (ScoredItem F) :=
  (found.filterMap (service.item conversationId now scores maxRank)).insertionSort fun a b => a.sortKey ≤ b.sortKey

variable {found found' : List (String × Recalled F)}

theorem mem_ranked : item ∈ service.ranked c now scores maxRank found ↔
    ∃ candidate ∈ found, service.item c now scores maxRank candidate = some item := by
  rw [ranked, mem_insertionSort, mem_filterMap]

theorem nodup_ids_ranked (h : (found.map Prod.fst).Nodup) :
    ((service.ranked c now scores maxRank found).map (·.id)).Nodup := by
  apply ((perm_insertionSort _ _).map _).nodup_iff.mpr
  rw [List.Nodup, pairwise_map, pairwise_filterMap]
  rw [List.Nodup, pairwise_map] at h
  apply h.imp
  intro a b hne item hitem item' hitem'
  rw [(item_eq_some hitem).1, (item_eq_some hitem').1]
  exact hne

theorem pairwise_sortKey_ranked : (service.ranked c now scores maxRank found).Pairwise fun a b => a.sortKey ≤ b.sortKey :=
  pairwise_insertionSort _ _

/-- Identifiers make the order of the items total, so that of the candidates does not matter. -/
theorem ranked_congr (h : (found.map Prod.fst).Nodup) (hperm : found.Perm found') :
    service.ranked c now scores maxRank found = service.ranked c now scores maxRank found' := by
  have hitems : (service.ranked c now scores maxRank found).Perm
      (service.ranked c now scores maxRank found') :=
    ((perm_insertionSort _ _).trans (hperm.filterMap _)).trans (perm_insertionSort _ _).symm
  apply List.Perm.eq_of_pairwise _ pairwise_sortKey_ranked pairwise_sortKey_ranked hitems
  intro a b ha hb hab hba
  have hid : a.id = b.id := congrArg (fun key => (ofLex key).2) (le_antisymm hab hba)
  exact inj_on_of_nodup_map (nodup_ids_ranked h) ha (hitems.mem_iff.mpr hb) hid

end Items

section Candidates

variable {db db' : RetrievalDb service.uuid} {text : TextSearch F} {c conversation query : String}
  {scores : List (String × F)}

def missing (scores : List (String × F)) (lexical : List (String × Recalled F)) : List String :=
  (scores.map Prod.fst).filter fun key => ((Dict.ofList lexical).lookup key).isNone

def found (service : RetrievalService F) (db : RetrievalDb service.uuid) (text : TextSearch F) (conversation query : String)
    (scores : List (String × F)) : List (String × Recalled F) :=
  let lexical := db.lexicalHits text conversation query service.candidatePool
  let keys := missing scores lexical
  Dict.update (Dict.ofList lexical) (if keys = [] then [] else db.fetched conversation keys)

def maxRank (service : RetrievalService F) (db : RetrievalDb service.uuid) (text : TextSearch F)
    (conversation query : String) : F :=
  maxOrZero ((db.lexicalHits text conversation query service.candidatePool).map (·.2.rank))

theorem candidates_store (hc : service.uuid.driver c = some conversation) :
    service.candidates (db.store text) query c scores
      = .ok (service.maxRank db text conversation query, service.found db text conversation query scores) := by
  rw [candidates, lexicalSearch_store hc]
  by_cases hkeys : missing scores (db.lexicalHits text conversation query service.candidatePool) = []
  · rw [found, if_pos hkeys]
    exact if_pos hkeys
  · rw [found, if_neg hkeys]
    refine (if_neg hkeys).trans ?_
    rw [fetchByIds_store hc]
    rfl

theorem retrieve_store {backends : Backends} {limit : Option ℤ} {now : ℤ} (hc : service.uuid.driver c = some conversation)
    (hscores : service.semanticScores backends query c = .ok scores) :
    service.retrieve backends (db.store text) query c limit now
      = .ok (sliceTo (service.limitOr limit) (service.ranked c now scores
        (service.maxRank db text conversation query) (service.found db text conversation query scores))) := by
  have hread : (service.semanticScores backends query c).mapError RetrieveError.programming = .ok scores :=
    mapError_eq_ok.mpr hscores
  exact bind_eq_ok.mpr ⟨scores, hread, bind_eq_ok.mpr ⟨_, mapError_eq_ok.mpr (candidates_store hc), rfl⟩⟩

theorem nodup_keys_found : ((service.found db text conversation query scores).map Prod.fst).Nodup :=
  Dict.nodup_keys_update _ (Dict.nodup_keys_ofList _)

theorem stores_of_mem_found {key : String} {v : Recalled F} (h : (key, v) ∈ service.found db text conversation query scores) :
    db.Stores conversation v.itemType key v.content := by
  rcases Dict.mem_of_mem_update h with h | h
  · split at h
    · cases h
    · exact stores_of_mem_fetched h
  · exact stores_of_mem_select (mem_select_of_mem_lexicalHits (Dict.mem_of_mem_ofList h))

/-- Where the cut is decided, the candidates are those of the rows of the conversation in any order. -/
theorem found_perm (hagrees : RetrievalDb.AgreesOn conversation db db')
    (hdecided : db.CutDecided text conversation query service.candidatePool) :
    (service.found db text conversation query scores).Perm (service.found db' text conversation query scores) := by
  apply Dict.perm_of_lookup nodup_keys_found nodup_keys_found
  intro key
  have hlookup := lookup_lexicalHits_congr hagrees hdecided
  have hmissing : missing scores (db.lexicalHits text conversation query service.candidatePool)
      = missing scores (db'.lexicalHits text conversation query service.candidatePool) := by
    rw [missing, missing]
    apply filter_congr
    intro key _
    rw [hlookup]
  have hfetched : ∀ db : RetrievalDb service.uuid, ∀ keys : List String,
      ((if keys = [] then [] else db.fetched (F := F) conversation keys).map Prod.fst).Nodup := by
    intro db keys
    split
    · exact nodup_nil
    · exact nodup_keys_fetched
  rw [found, found, ← hmissing, Dict.lookup_update_of_nodup _ (hfetched db _), Dict.lookup_update_of_nodup _ (hfetched db' _), hlookup]
  split
  · rfl
  · rw [lookup_fetched_congr hagrees]

theorem ranked_found_congr {now : ℤ} (hagrees : RetrievalDb.AgreesOn conversation db db')
    (hdecided : db.CutDecided text conversation query service.candidatePool) :
    service.ranked c now scores (service.maxRank db text conversation query)
        (service.found db text conversation query scores)
      = service.ranked c now scores (service.maxRank db' text conversation query)
        (service.found db' text conversation query scores) := by
  have hmax : service.maxRank db text conversation query = service.maxRank db' text conversation query :=
    maxOrZero_perm ((lexicalHits_perm hagrees hdecided).map _)
  rw [hmax]
  exact ranked_congr nodup_keys_found (found_perm hagrees hdecided)

end Candidates

section Isolated

variable {db db' : RetrievalDb service.uuid} {text : TextSearch F} {c conversation query : String}
  {backends : Backends} {hits : List Json} {limit : ℕ} {now : ℤ}

/-- The endpoint returns an embedding of the query that can be sent on, and Qdrant these hits for it. -/
def Finds (service : RetrievalService F) (backends : Backends) (query conversationId : String) (hits : List Json) : Prop :=
  ∃ vector vectors, (backends.embeddings [service.truncate query]).Embeds (vector :: vectors) ∧
    service.rt.encodeVector vector = .ok () ∧ (backends.search (service.vectorQuery conversationId vector)).Lists hits

/-- `retrieve` returns the same on both databases: rows of the conversation, active where they are memories, each once, in order and no more than asked for. -/
def Isolated (service : RetrievalService F) (backends : Backends) (text : TextSearch F)
    (query conversationId conversation : String) (limit : ℕ) (now : ℤ) (db db' : RetrievalDb service.uuid) : Prop :=
  ∃ items, service.retrieve backends (db.store text) query conversationId (some limit) now = .ok items ∧
    service.retrieve backends (db'.store text) query conversationId (some limit) now = .ok items ∧
    (∀ item ∈ items, db.Stores conversation item.itemType item.id item.content) ∧
    (items.map (·.id)).Nodup ∧ (items.Pairwise fun a b => a.sortKey ≤ b.sortKey) ∧ items.length ≤ limit

theorem semanticScores_of_finds (h : service.Finds backends query c hits) :
    service.semanticScores backends query c = hits.foldlM service.addHit [] := by
  obtain ⟨vector, vectors, hvector, hsent, hhits⟩ := h
  rw [semanticScores, safeEmbed_eq_some.mpr ⟨vectors, hvector⟩]
  change service.searchScores _ _ = _
  rw [searchScores, search_eq_ok.mpr ⟨hsent, hhits⟩]

theorem sliceTo_limitOr {α : Type} (h : 1 ≤ limit) (items : List α) :
    sliceTo (service.limitOr (some (limit : ℤ))) items = items.take limit := by
  have hlimit : service.limitOr (some (limit : ℤ)) = limit := by
    rw [limitOr]
    omega
  rw [hlimit, sliceTo, if_pos (Int.natCast_nonneg limit), Int.toNat_natCast]

theorem isolated_of_decided (hc : service.uuid.driver c = some conversation)
    (hdecided : db.CutDecided text conversation query service.candidatePool)
    (hagrees : RetrievalDb.AgreesOn conversation db db') (hlimit : 1 ≤ limit) {scores : List (String × F)}
    (hscores : service.semanticScores backends query c = .ok scores) :
    service.Isolated backends text query c conversation limit now db db' := by
  have hsame : service.ranked c now scores _ _ = _ := ranked_found_congr hagrees hdecided
  refine ⟨_, retrieve_store hc hscores, ?_, ?_, ?_, ?_, ?_⟩
  · rw [retrieve_store hc hscores, hsame]
  · rw [sliceTo_limitOr hlimit]
    intro item hitem
    obtain ⟨⟨key, v⟩, hmem, hitem⟩ := mem_ranked.mp (mem_of_mem_take hitem)
    obtain ⟨hid, htype, hcontent⟩ := item_eq_some hitem
    rw [hid, htype, hcontent]
    exact stores_of_mem_found hmem
  · rw [sliceTo_limitOr hlimit, map_take]
    exact (nodup_ids_ranked nodup_keys_found).sublist (take_sublist _ _)
  · rw [sliceTo_limitOr hlimit]
    exact pairwise_sortKey_ranked.sublist (take_sublist _ _)
  · rw [sliceTo_limitOr hlimit]
    exact length_take_le _ _

theorem exists_scores_iff (hfinds : service.Finds backends query c hits) (hhits : ∀ hit ∈ hits, WellFormedHit hit) :
    (∃ scores, service.semanticScores backends query c = .ok scores) ↔ ∀ hit ∈ hits, service.Convertible hit := by
  rw [semanticScores_of_finds hfinds]
  exact exists_foldlM_addHit service hhits []

end Isolated

/-! ### Where ranks do not decide -/

section Tie

variable {db : RetrievalDb service.uuid} {text : TextSearch F} {c conversation query : String}
  {scores : List (String × F)} {now : ℤ}

theorem addHit_memoryHit {key : String} (hkey : key ≠ "") (scores : List (String × F)) :
    service.addHit scores (memoryHit key) = .ok (Dict.set key 1 scores) := by
  have hname : service.hitKey [("memory_id", .str key)] = key := by
    have htruthy : truthy (.str key) = true := bne_iff_ne.mpr hkey
    change service.rt.str (if truthy (.str key) then .str key else .str "") = key
    rw [htruthy, if_pos rfl, service.rt.str_str]
  have hscore : service.float (.int 1) = .ok 1 := by
    rw [float, service.floats.ofInt_one]
  have hclamp : min (1 : F) (max 0 1) = 1 := by
    rw [max_eq_right service.floats.zero_lt_one.le, min_self]
  refine bind_eq_ok.mpr ⟨[("memory_id", .str key)], rfl, ?_⟩
  rw [hname, if_neg hkey]
  refine bind_eq_ok.mpr ⟨1, hscore, ?_⟩
  rw [hclamp]
  rfl

/-- An identifier that cannot be read keeps everything from being fetched. -/
theorem found_of_unreadable (key : String) (hkey : key ∈ scores.map Prod.fst) (hread : service.uuid.python key = none) :
    service.found db text conversation query scores
      = Dict.ofList (db.lexicalHits text conversation query service.candidatePool) := by
  have hlookup : (Dict.ofList (db.lexicalHits text conversation query service.candidatePool)).lookup key = none := by
    apply Option.eq_none_iff_forall_ne_some.mpr
    intro v hv
    have hmem := Dict.mem_of_mem_ofList ((Dict.mem_iff_lookup (Dict.nodup_keys_ofList _)).mpr hv)
    have hprinted := printed_of_stores (stores_of_mem_select (mem_select_of_mem_lexicalHits hmem))
    rw [hread] at hprinted
    cases hprinted
  have hmissing : key ∈ missing scores (db.lexicalHits text conversation query service.candidatePool) := by
    apply mem_filter.mpr
    exact ⟨hkey, by rw [hlookup]; rfl⟩
  rw [found, if_neg (ne_nil_of_mem hmissing), RetrievalDb.fetched, mapM_eq_none_of_mem hmissing hread]
  rfl

theorem python_short {key : String} (h : key.length < 32) : service.uuid.python key = none := by
  apply Option.eq_none_iff_forall_ne_some.mpr
  intro id hid
  have := service.uuid.le_length key id hid
  omega

theorem finds_answering (hits : List Json) : service.Finds (answering [[]] hits) query c hits :=
  ⟨[], [], ⟨_, _, ⟨200, "", rfl, by decide, by decide⟩, rfl, .cons ⟨_, rfl, rfl⟩ .nil⟩, service.rt.encodeVector_nil,
    ⟨_, ⟨200, "", rfl, by decide, by decide⟩, rfl⟩⟩

/-- The index names a row at the cut and a text that is no identifier: the row is retrieved where it is within the cut. -/
theorem exists_not_isolated (hc : service.uuid.driver c = some conversation) (now : ℤ)
    (h : ¬db.CutDecided text conversation query service.candidatePool) :
    ∃ hits limit db', (∀ hit ∈ hits, WellFormedHit hit) ∧ (∀ hit ∈ hits, service.Convertible hit) ∧ 1 ≤ limit ∧
      RetrievalDb.AgreesOn conversation db db' ∧
      ¬service.Isolated (answering [[]] hits) text query c conversation limit now db db' := by
  obtain ⟨db', hagrees, front, a, b, hb, hlexical, hlexical', htype⟩ := exists_tie h
  have hprinted := printed_of_stores (stores_of_mem_select hb)
  have hlength := service.uuid.le_length _ _ hprinted
  have hunread : service.uuid.python "x" = none := python_short (by decide)
  have hne : b.1 ≠ "" := fun heq => by
    rw [heq] at hlength
    cases hlength
  have hx : "x" ≠ b.1 := fun heq => by
    rw [← heq, hunread] at hprinted
    cases hprinted
  have hscores : service.semanticScores (answering [[]] [memoryHit b.1, memoryHit "x"]) query c
      = .ok [(b.1, 1), ("x", 1)] := by
    have hset : Dict.set "x" 1 [(b.1, (1 : F))] = [(b.1, 1), ("x", 1)] := by
      rw [Dict.set, if_neg hx.symm, Dict.set]
    rw [semanticScores_of_finds (finds_answering _), ← hset]
    refine bind_eq_ok.mpr ⟨[(b.1, 1)], addHit_memoryHit hne [], ?_⟩
    exact bind_eq_ok.mpr ⟨_, addHit_memoryHit (by decide) _, rfl⟩
  have hfound : service.found db text conversation query [(b.1, 1), ("x", 1)] = Dict.ofList (front ++ [a]) := by
    rw [found_of_unreadable "x" (by simp) hunread, hlexical]
  have hfound' : service.found db' text conversation query [(b.1, 1), ("x", 1)] = Dict.ofList (front ++ [b]) := by
    rw [found_of_unreadable "x" (by simp) hunread, hlexical']
  have hmem : b ∈ Dict.ofList (front ++ [b]) := by
    apply (Dict.mem_iff_lookup (Dict.nodup_keys_ofList _)).mpr
    rw [Dict.lookup_ofList, reverse_append, reverse_singleton, singleton_append, Dict.lookup_cons, if_pos rfl]
  have hscored : [(b.1, (1 : F)), ("x", 1)].lookup b.1 = some 1 := by
    rw [Dict.lookup_cons, if_pos rfl]
  obtain ⟨item, hitem⟩ := exists_item service c now (service.maxRank db' text conversation query) hscored
    service.floats.zero_lt_one
  let items := service.ranked c now [(b.1, 1), ("x", 1)] (service.maxRank db' text conversation query)
    (Dict.ofList (front ++ [b]))
  refine ⟨[memoryHit b.1, memoryHit "x"], items.length + 1, db', ?_, ?_, Nat.le_add_left 1 _, hagrees, ?_⟩
  · simp [wellFormedHit_memoryHit]
  · simp [convertible_memoryHit]
  · intro hisolated
    obtain ⟨returned, hreturned, hreturned', -⟩ := hisolated
    rw [retrieve_store hc hscores, sliceTo_limitOr (Nat.le_add_left 1 _), hfound] at hreturned
    rw [retrieve_store hc hscores, sliceTo_limitOr (Nat.le_add_left 1 _), hfound', take_of_length_le (Nat.le_succ _)]
      at hreturned'
    have hin : item ∈ returned := Except.ok.inj hreturned' ▸ mem_ranked.mpr ⟨b, hmem, hitem⟩
    rw [← Except.ok.inj hreturned] at hin
    obtain ⟨⟨key, v⟩, hcandidate, heq⟩ := mem_ranked.mp (mem_of_mem_take hin)
    obtain ⟨hid, hitemType, -⟩ := item_eq_some hitem
    obtain ⟨hid', hitemType', -⟩ := item_eq_some heq
    have hkey : key = b.1 := hid'.symm.trans hid
    subst hkey
    exact htype v (Dict.mem_of_mem_ofList hcandidate) (hitemType'.symm.trans hitemType)

/-- Whatever the index returns, `retrieve` is isolated exactly where its scores are floats, if and only if the cut is decided by the ranks. -/
theorem retrieve_isolated_iff (service : RetrievalService F) (text : TextSearch F) (query conversationId conversation : String)
    (hc : service.uuid.driver conversationId = some conversation) (now : ℤ) (db : RetrievalDb service.uuid) :
    (∀ backends hits limit db', service.Finds backends query conversationId hits → (∀ hit ∈ hits, WellFormedHit hit) →
      1 ≤ limit → RetrievalDb.AgreesOn conversation db db' →
        (service.Isolated backends text query conversationId conversation limit now db db' ↔
          ∀ hit ∈ hits, service.Convertible hit)) ↔
      db.CutDecided text conversation query service.candidatePool := by
  refine ⟨fun h => ?_, fun hdecided backends hits limit db' hfinds hhits hlimit hagrees => ?_⟩
  · by_contra htie
    obtain ⟨hits, limit, db', hhits, hconvertible, hlimit, hagrees, hisolated⟩ := exists_not_isolated hc now htie
    exact hisolated ((h _ hits limit db' (finds_answering _) hhits hlimit hagrees).mpr hconvertible)
  · rw [← exists_scores_iff hfinds hhits]
    refine ⟨fun ⟨items, hitems, _⟩ => ?_, fun ⟨scores, hscores⟩ => isolated_of_decided hc hdecided hagrees hlimit hscores⟩
    exact degrades_iff_exists_scores.mp (.inl ⟨items, hitems⟩)

end Tie

end RetrievalService

/-! ### Two memories of one rank -/

def activeMemory (id : String) : StoredMemory where
  id := id
  conversationId := "c"
  kind := .fact
  content := id
  sourceMessageIds := []
  importance := 0
  status := .active
  supersedes := none
  supersededBy := none
  metadata := []
  createdAt := 0

def plainText : TextSearch ℚ := ⟨fun _ _ => true, fun _ _ => 1, fun _ _ => true, fun _ _ => 1⟩

def firstId : String := "00000000-0000-0000-0000-000000000001"

def secondId : String := "00000000-0000-0000-0000-000000000002"

def memoriesDb (ids : List String) (hnodup : ids.Nodup) (hprinted : ∀ id ∈ ids, plainReader.python id = some id) :
    RetrievalDb plainReader where
  memories := {
    rows := ids.map activeMemory
    keys_nodup := by
      rw [map_map]
      exact hnodup.map fun _ _ h => h
    printed := by
      intro row hrow
      obtain ⟨id, hid, rfl⟩ := mem_map.mp hrow
      exact hprinted id hid }
  chunks := ⟨[], nodup_nil, forall_mem_nil _⟩

/-- The same two memories in either order, with a pool of one: another memory is retrieved. -/
theorem retrieve_of_tie :
    let service := plainRetrieval 1 (by decide)
    let db := memoriesDb [firstId, secondId] (by decide) (by decide)
    let db' := memoriesDb [secondId, firstId] (by decide) (by decide)
    RetrievalDb.AgreesOn "c" db db' ∧
      (service.retrieve (answering [[]] []) (db.store plainText) "q" "c" (some 8) 0).map (·.map (·.id)) = .ok [firstId] ∧
      (service.retrieve (answering [[]] []) (db'.store plainText) "q" "c" (some 8) 0).map (·.map (·.id)) = .ok [secondId] := by
  refine ⟨⟨.swap _ _ [], .refl _⟩, ?_, ?_⟩
  · decide +kernel
  · decide +kernel

def crowdedDb : RetrievalDb plainReader where
  memories := {
    rows := [{ activeMemory secondId with conversationId := "d" }, activeMemory firstId]
    keys_nodup := by decide +kernel
    printed := by
      intro row hrow
      rcases mem_pair.mp hrow with rfl | rfl
      · decide +kernel
      · decide +kernel }
  chunks := ⟨[], nodup_nil, forall_mem_nil _⟩

/-- One memory within a pool of one, alone or beside a memory of another conversation. -/
theorem retrieve_isolated_iff_oneMemory :
    let service := plainRetrieval 1 (by decide)
    let backends := answering [[]] [memoryHit secondId, memoryHit firstId]
    let db := memoriesDb [firstId] (by decide) (by decide)
    service.Isolated backends plainText "q" "c" "c" 8 0 db crowdedDb ∧
      (service.retrieve backends (crowdedDb.store plainText) "q" "c" (some 8) 0).map (·.map (·.id)) = .ok [firstId] := by
  have hdecided : (memoriesDb [firstId] (by decide) (by decide)).CutDecided plainText "c" "q" 1 := by
    intro entry _
    exact .inl countP_le_length
  have hisolated :=
    (RetrievalService.retrieve_isolated_iff (plainRetrieval 1 (by decide)) plainText "q" "c" "c" rfl 0 _).mpr hdecided
  have hagrees : RetrievalDb.AgreesOn "c" (memoriesDb [firstId] (by decide) (by decide)) crowdedDb := ⟨.refl _, .refl _⟩
  refine ⟨(hisolated _ [memoryHit secondId, memoryHit firstId] 8 _ (RetrievalService.finds_answering _) ?_ (by decide)
    hagrees).mpr ?_, by decide +kernel⟩
  · simp [wellFormedHit_memoryHit]
  · simp [convertible_memoryHit]

end ContextProxy
