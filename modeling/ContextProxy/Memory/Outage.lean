import ContextProxy.Lib.Except
import ContextProxy.Memory.Indexing

/-!
# Outages of the vector store

What the passes of the memory service do, in terms of what Qdrant answers. A pass goes through all its rows exactly when every upsert is stored, or declined because a collection does not fit (`MemoryService.Contained`). Any other failure, a refused connection as much as a status, ends it.
-/

namespace ContextProxy

open List

namespace MemoryService

/-! ### Slices and their vectors -/

variable {α β : Type} {as : List α} {bs : List β} {row : ChunkRow} {st : MemoryState}

theorem flatten_batches {size : ℕ} (hsize : 0 < size) {fuel : ℕ} {items : List α} (h : items.length ≤ fuel) :
    (batches size fuel items).flatten = items := by
  induction fuel generalizing items with
  | zero =>
    rw [length_eq_zero_iff.mp (Nat.le_zero.mp h)]
    rfl
  | succ fuel ih =>
    rw [batches]
    split
    · rename_i hempty
      rw [List.isEmpty_iff.mp hempty]
      rfl
    · rename_i hitems
      have hlength : (items.drop size).length ≤ fuel := by
        have : items ≠ [] := by simpa using hitems
        have := length_pos_of_ne_nil this
        rw [length_drop]
        omega
      rw [flatten_cons, ih hlength, take_append_drop]

variable {γ : Type} {committed : MemoryState} {memoryId : String} {spec : MemoryCreate}

theorem map_zip_fst (h : as.length ≤ bs.length) (f : α → γ) : (as.zip bs).map (fun pair => f pair.1) = as.map f := by
  rw [show (fun pair : α × β => f pair.1) = f ∘ Prod.fst from rfl, ← map_map, map_fst_zip h]

theorem map_zip_snd (h : bs.length ≤ as.length) (f : β → γ) : (as.zip bs).map (fun pair => f pair.2) = bs.map f := by
  rw [show (fun pair : α × β => f pair.2) = f ∘ Prod.snd from rfl, ← map_map, map_snd_zip h]

theorem map_zip_zip (h : as.length ≤ bs.length) (cs : List γ) :
    ((as.zip bs).zip cs).map (fun job => (job.1.1, job.2)) = as.zip cs := by
  conv_rhs => rw [← map_fst_zip h, zip_map_left]
  rfl

variable {service : MemoryService}

/-- The embedding endpoint answers every request with one vector a text. -/
def Embeds (service : MemoryService) : Prop :=
  ∀ texts, ∃ vectors, service.embed texts = .ok vectors ∧ vectors.length = texts.length

theorem Embeds.safeEmbedBatch (h : service.Embeds) (texts : List String) :
    ∃ vectors, service.safeEmbedBatch texts = some vectors ∧ vectors.length = texts.length := by
  rw [MemoryService.safeEmbedBatch]
  split
  · rename_i hempty
    exact ⟨[], rfl, by rw [List.isEmpty_iff.mp hempty]; rfl⟩
  · obtain ⟨vectors, hembed, hlength⟩ := h (texts.map service.truncate)
    rw [length_map] at hlength
    exact ⟨vectors, by simp [hembed, hlength], hlength⟩

def batchVectors (service : MemoryService) (batch : List ChunkRow) : List (List Json) :=
  (service.safeEmbedBatch (batch.map (·.rawContent))).getD []

def chunkVectors (service : MemoryService) (rows : List ChunkRow) : List (List Json) :=
  (batches service.embedBatchSize rows.length rows).flatMap service.batchVectors

theorem Embeds.batchVectors (h : service.Embeds) (batch : List ChunkRow) :
    service.safeEmbedBatch (batch.map (·.rawContent)) = some (service.batchVectors batch) ∧
      (service.batchVectors batch).length = batch.length := by
  obtain ⟨vectors, hvectors, hlength⟩ := h.safeEmbedBatch (batch.map (·.rawContent))
  rw [MemoryService.batchVectors, hvectors]
  exact ⟨rfl, hlength.trans (length_map _)⟩

theorem Embeds.length_flatMap (h : service.Embeds) (slices : List (List ChunkRow)) :
    (slices.flatMap service.batchVectors).length = slices.flatten.length := by
  induction slices with
  | nil => rfl
  | cons batch slices ih =>
    rw [flatMap_cons, flatten_cons, length_append, length_append, ih, (h.batchVectors batch).2]

theorem Embeds.length_chunkVectors (h : service.Embeds) (rows : List ChunkRow) :
    (service.chunkVectors rows).length = rows.length := by
  rw [chunkVectors, h.length_flatMap, flatten_batches service.embedBatchSize_pos le_rfl]

/-- A loop over slices, with a loop over each slice and its vectors inside, is one loop over all rows. -/
theorem Embeds.foldlM_batches (h : service.Embeds) {outer : β → List ChunkRow → Eff MemoryState ServiceError β}
    {inner : β → ChunkRow × List Json → Eff MemoryState ServiceError β}
    (houter : ∀ acc batch, outer acc batch = (batch.zip (service.batchVectors batch)).foldlM inner acc)
    (rows : List ChunkRow) (acc : β) : (batches service.embedBatchSize rows.length rows).foldlM outer acc
      = (rows.zip (service.chunkVectors rows)).foldlM inner acc := by
  have hslices : ∀ (slices : List (List ChunkRow)) acc, slices.foldlM outer acc
      = (slices.flatten.zip (slices.flatMap service.batchVectors)).foldlM inner acc := by
    intro slices
    induction slices with
    | nil => exact fun _ => rfl
    | cons batch slices ih =>
      intro acc
      rw [foldlM_cons, flatten_cons, flatMap_cons,
        zip_append (h.batchVectors batch).2.symm, foldlM_append, houter]
      congr 1
      funext acc
      exact ih acc
  rw [hslices, chunkVectors, flatten_batches service.embedBatchSize_pos le_rfl]

/-! ### Marks -/

def Marked (table : ChunkTable) (id : String) : Prop :=
  ∃ row ∈ table.rows, row.id = id ∧ row.vectorIndexedAt.isSome = true

theorem marked_mark {table : ChunkTable} {id id' : String} {now : ℚ} :
    Marked (table.mark id' now) id ↔ Marked table id ∨ (id = id' ∧ id ∈ table.rows.map (·.id)) := by
  simp only [Marked, ChunkTable.mark, ChunkTable.update, mem_map]
  constructor
  · rintro ⟨_, ⟨row, hrow, rfl⟩, rfl, hsome⟩
    split at hsome
    · rename_i hmark
      exact .inr ⟨hmark.1, row, hrow, rfl⟩
    · exact .inl ⟨row, hrow, rfl, hsome⟩
  · rintro (⟨row, hrow, rfl, hsome⟩ | ⟨rfl, row, hrow, rfl⟩)
    · refine ⟨_, ⟨row, hrow, rfl⟩, rfl, ?_⟩
      simp only
      split
      · rfl
      · exact hsome
    · refine ⟨_, ⟨row, hrow, rfl⟩, rfl, ?_⟩
      cases hmark : row.vectorIndexedAt with
      | none => simp
      | some time => simp

theorem ids_mark (table : ChunkTable) (id : String) (now : ℚ) :
    (table.mark id now).rows.map (·.id) = table.rows.map (·.id) := by
  rw [ChunkTable.mark, ChunkTable.update, map_map]
  rfl

section ChunkAsked

variable (c : String) (row : ChunkRow) (vector : List Json) (ok : Bool) (st : MemoryState)

theorem chunkAsked_calls : (service.chunkAsked c row vector ok st).calls = st.calls ++ [[chunkPoint c row vector]] := by
  cases ok <;> rfl

theorem chunkAsked_ready : (service.chunkAsked c row vector ok st).ready
      = (service.answers st.calls.length).readyAfter service.collection (service.load vector) st.ready := by
  cases ok <;> rfl

theorem chunkAsked_ids : (service.chunkAsked c row vector ok st).chunks.rows.map (·.id) = st.chunks.rows.map (·.id) := by
  cases ok with
  | true => exact ids_mark _ _ _
  | false => rfl

theorem marked_chunkAsked {id : String} (h : id ∈ st.chunks.rows.map (·.id)) :
    Marked (service.chunkAsked c row vector ok st).chunks id ↔
      Marked st.chunks id ∨ (row.id = id ∧ ok = true) := by
  cases ok with
  | true => exact marked_mark.trans (or_congr_right ⟨fun hid => ⟨hid.1.symm, rfl⟩, fun hid => ⟨hid.1.symm, h⟩⟩)
  | false => exact ⟨.inl, fun hid => hid.resolve_right (by simp)⟩

end ChunkAsked

/-- The state behind a pass over chunks: every chunk was handed to the client, and the stored ones are marked. -/
theorem foldl_chunkAsked (service : MemoryService) (conversationOf : ChunkRow → String)
    (jobs : List ((ChunkRow × List Json) × Bool)) (st : MemoryState) : let final := jobs.foldl (fun st job =>
      service.chunkAsked (conversationOf job.1.1) job.1.1 job.1.2 job.2 st) st
    final.calls = st.calls ++ jobs.map (fun job => [chunkPoint (conversationOf job.1.1) job.1.1 job.1.2]) ∧
      ∀ id ∈ st.chunks.rows.map (·.id),
        (Marked final.chunks id ↔ Marked st.chunks id ∨ ∃ job ∈ jobs, job.1.1.id = id ∧ job.2 = true) := by
  induction jobs generalizing st with
  | nil => simp
  | cons job jobs ih =>
    obtain ⟨hcalls, hmarked⟩ := ih (service.chunkAsked (conversationOf job.1.1) job.1.1 job.1.2 job.2 st)
    refine ⟨?_, fun id hid => ?_⟩
    · rw [foldl_cons, hcalls, chunkAsked_calls, map_cons, append_assoc]
      rfl
    · rw [foldl_cons, hmarked id (by rwa [chunkAsked_ids]), marked_chunkAsked _ _ _ _ _ hid]
      simp only [mem_cons, exists_eq_or_imp, or_assoc]

/-! ### The pending chunks -/

theorem nodup_pendingChunks (c : String) (st : MemoryState) : ((pendingChunks c st).map (·.id)).Nodup := by
  have hfilter := st.chunks.ids_nodup.sublist
    ((filter_sublist (p := fun row => decide (row.conversationId = c ∧ row.vectorIndexedAt = none))).map
      ChunkRow.id)
  exact (((perm_insertionSort _ _).map ChunkRow.id).nodup_iff.mpr hfilter).sublist
    ((take_sublist 100 _).map ChunkRow.id)

theorem mem_of_pendingChunks {c : String} (h : row ∈ pendingChunks c st) :
    row ∈ st.chunks.rows ∧ row.vectorIndexedAt = none := by
  have hfilter := (mem_insertionSort _).mp (mem_of_mem_take h)
  rw [mem_filter, decide_eq_true_iff] at hfilter
  exact ⟨hfilter.1, hfilter.2.2⟩

theorem not_marked_of_pendingChunks {c : String} (h : row ∈ pendingChunks c st) : ¬Marked st.chunks row.id := by
  rintro ⟨other, hother, hid, hsome⟩
  obtain ⟨hrow, hnone⟩ := mem_of_pendingChunks h
  obtain rfl := inj_on_of_nodup_map st.chunks.ids_nodup hother hrow hid
  rw [hnone] at hsome
  cases hsome

def chunkLoads (service : MemoryService) (rows : List ChunkRow) : List Load := (service.chunkVectors rows).map service.load

theorem Embeds.map_zip (h : service.Embeds) (rows : List ChunkRow) :
    (rows.zip (service.chunkVectors rows)).map (fun job => service.load job.2) = service.chunkLoads rows :=
  map_zip_snd (h.length_chunkVectors rows).le service.load

/-- What a pass promises: it hands every chunk it fetched to the client and ends, and a chunk is marked exactly when its own upsert was answered with a 2xx status. -/
def IndexesAll (service : MemoryService) (conversationId : String) (st : MemoryState) : Prop :=
  let rows := pendingChunks conversationId st
  ∃ indexed st', (service.indexPendingChunks conversationId).exec st = (.ok indexed, st') ∧
    st'.calls = st.calls ++
      (rows.zip (service.chunkVectors rows)).map (fun job => [chunkPoint conversationId job.1 job.2]) ∧
    ∀ row ok, (row, ok) ∈ rows.zip (service.stored st.calls.length st.ready (service.chunkLoads rows)) →
      (Marked st'.chunks row.id ↔ ok = true)

theorem Embeds.exec_indexPendingChunks (h : service.Embeds) (c : String) (st : MemoryState) :
    (service.indexPendingChunks c).exec st
      = (((pendingChunks c st).zip (service.chunkVectors (pendingChunks c st))).foldlM
        (fun indexed job => do
          let ok ← service.indexChunk c job.1 job.2
          return if ok then indexed + 1 else indexed) 0 : Eff MemoryState ServiceError ℕ).exec st := by
  rw [indexPendingChunks, Eff.exec_bind_of_ok (Eff.exec_get st)]
  congr 1
  apply h.foldlM_batches
  intro acc batch
  rw [(h.batchVectors batch).1]

theorem Embeds.length_stored_chunkLoads (h : service.Embeds) (call : ℕ) (ready : Bool) (rows : List ChunkRow) :
    (service.stored call ready (service.chunkLoads rows)).length = rows.length := by
  rw [length_stored, chunkLoads, length_map, h.length_chunkVectors]

theorem exists_flag_iff {rows : List ChunkRow} {flags : List Bool} (hlength : flags.length = rows.length)
    (hnodup : (rows.map (·.id)).Nodup) {ok : Bool} (hmem : (row, ok) ∈ rows.zip flags) :
    (∃ job ∈ rows.zip flags, job.1.id = row.id ∧ job.2 = true) ↔ ok = true := by
  constructor
  · rintro ⟨job, hjob, hid, htrue⟩
    have hkeys : ((rows.zip flags).map fun job => job.1.id).Nodup := by
      rw [map_zip_fst hlength.ge]
      exact hnodup
    obtain rfl := inj_on_of_nodup_map hkeys hjob hmem hid
    exact htrue
  · intro hok
    exact ⟨(row, ok), hmem, rfl, hok⟩

theorem asksOnce_indexChunk (c : String) (indexed : ℕ) (job : ChunkRow × List Json) :
    service.AsksOnce (service.load job.2) (do
      let ok ← service.indexChunk c job.1 job.2
      return if ok then indexed + 1 else indexed) (fun ok => if ok then indexed + 1 else indexed)
      (service.chunkAsked c job.1 job.2) :=
  (asksOnce_storeChunk c job.1 job.2).bind fun _ _ => rfl

theorem Embeds.indexesAll_iff (h : service.Embeds) (c : String) (st : MemoryState) : service.IndexesAll c st ↔
      service.Contained st.calls.length st.ready (service.chunkLoads (pendingChunks c st)) := by
  generalize hrows : pendingChunks c st = rows
  obtain ⟨hok, herror⟩ := exec_pass service (asksOnce_indexChunk c)
    (fun job ok st => chunkAsked_ready c job.1 job.2 ok st)
    (fun job ok st => by rw [chunkAsked_calls, length_append, length_singleton])
    (rows.zip (service.chunkVectors rows)) 0 st
  rw [h.map_zip] at hok herror
  rw [IndexesAll, h.exec_indexPendingChunks, hrows]
  constructor
  · rintro ⟨indexed, st', hexec, -⟩
    by_contra hnot
    obtain ⟨error, st'', hraised⟩ := herror hnot
    exact absurd (hexec.symm.trans hraised) (by simp)
  · intro hcontained
    obtain ⟨hcalls, hmarked⟩ := foldl_chunkAsked service (fun _ => c)
      ((rows.zip (service.chunkVectors rows)).zip
        (service.stored st.calls.length st.ready (service.chunkLoads rows))) st
    have hflags := h.length_stored_chunkLoads st.calls.length st.ready rows
    have hvectors := h.length_chunkVectors rows
    refine ⟨_, _, hok hcontained, ?_, fun row ok hmem => ?_⟩
    · rw [hcalls]
      congr 1
      apply map_zip_fst (by rw [length_zip]; omega) fun job : ChunkRow × List Json =>
        [chunkPoint c job.1 job.2]
    · have hrow : row ∈ pendingChunks c st := hrows ▸ (of_mem_zip hmem).1
      rw [hmarked row.id (mem_map_of_mem (mem_of_pendingChunks hrow).1),
        or_iff_right (not_marked_of_pendingChunks hrow),
        ← exists_flag_iff hflags (hrows ▸ nodup_pendingChunks c st) hmem,
        ← map_zip_zip hvectors.ge (service.stored st.calls.length st.ready (service.chunkLoads rows))]
      simp only [mem_map, exists_exists_and_eq_and]

/-! ### The rebuild -/

def readyEnd (service : MemoryService) : ℕ → Bool → List Load → Bool
  | _, ready, [] => ready
  | call, ready, load :: loads =>
    service.readyEnd (call + 1) ((service.answers call).readyAfter service.collection load ready) loads

theorem contained_append {call : ℕ} {ready : Bool} {first second : List Load} :
    service.Contained call ready (first ++ second) ↔
      service.Contained call ready first ∧
        service.Contained (call + first.length) (service.readyEnd call ready first) second := by
  induction first generalizing call ready with
  | nil => simp [Contained, readyEnd]
  | cons load loads ih =>
    simp only [cons_append, Contained, readyEnd, ih, length_cons, and_assoc]
    rw [show call + (loads.length + 1) = call + 1 + loads.length by omega]

theorem foldl_chunkAsked_ready (service : MemoryService) (conversationOf : ChunkRow → String)
    (jobs : List ((ChunkRow × List Json) × Bool)) (st : MemoryState) : let final := jobs.foldl (fun st job =>
      service.chunkAsked (conversationOf job.1.1) job.1.1 job.1.2 job.2 st) st
    final.calls.length = st.calls.length + jobs.length ∧
      final.ready = service.readyEnd st.calls.length st.ready (jobs.map fun job => service.load job.1.2) := by
  induction jobs generalizing st with
  | nil => exact ⟨rfl, rfl⟩
  | cons job jobs ih =>
    obtain ⟨hcalls, hready⟩ := ih (service.chunkAsked (conversationOf job.1.1) job.1.1 job.1.2 job.2 st)
    rw [chunkAsked_calls, length_append, length_singleton] at hcalls hready
    rw [chunkAsked_ready] at hready
    refine ⟨?_, hready⟩
    rw [foldl_cons, hcalls, length_cons]
    omega

def rebuildStart (scope : Option String) (force : Bool) (st : MemoryState) : MemoryState :=
  if force then unmark scope st else st

def memoryVectors (service : MemoryService) (rows : List MemoryRow) : List (List Json) :=
  (service.safeEmbedBatch (rows.map fun row => service.truncate row.content)).getD []

def rebuildLoads (service : MemoryService) (scope : Option String) (st : MemoryState) : List Load :=
  service.chunkLoads (rebuildChunks scope st) ++ (service.memoryVectors (rebuildMemories scope st)).map service.load

/-- What a rebuild promises: it ends, and every chunk row is counted as done or failed. -/
def RebuildsAll (service : MemoryService) (scope : Option String) (force : Bool) (st : MemoryState) : Prop :=
  ∃ summary st', (service.rebuildVectorIndex scope force).exec st = (.ok summary, st') ∧
    summary.chunks + summary.chunksFailed = (rebuildChunks scope (rebuildStart scope force st)).length

theorem foldl_addChunk (flags : List Bool) (summary : RebuildSummary) :
    (flags.foldl RebuildSummary.addChunk summary).chunks + (flags.foldl RebuildSummary.addChunk summary).chunksFailed
      = summary.chunks + summary.chunksFailed + flags.length := by
  induction flags generalizing summary with
  | nil => rfl
  | cons ok flags ih =>
    rw [foldl_cons, ih, length_cons]
    cases ok with
    | true =>
      simp only [RebuildSummary.addChunk, if_true]
      omega
    | false =>
      simp only [RebuildSummary.addChunk, Bool.false_eq_true, if_false]
      omega

theorem foldl_addMemory (flags : List Bool) (summary : RebuildSummary) :
    (flags.foldl RebuildSummary.addMemory summary).chunks = summary.chunks ∧
      (flags.foldl RebuildSummary.addMemory summary).chunksFailed = summary.chunksFailed := by
  induction flags generalizing summary with
  | nil => exact ⟨rfl, rfl⟩
  | cons ok flags ih => exact ih (summary.addMemory ok)

theorem asksOnce_rebuildChunk (summary : RebuildSummary) (job : ChunkRow × List Json) :
    service.AsksOnce (service.load job.2) (do
      let ok ← service.rebuildChunk job.1 job.2
      return summary.addChunk ok) summary.addChunk (service.chunkAsked job.1.conversationId job.1 job.2) :=
  (asksOnce_storeChunk job.1.conversationId job.1 job.2).bind fun _ _ => rfl

theorem asksOnce_rebuildMemory (summary : RebuildSummary) (job : MemoryRow × List Json) :
    service.AsksOnce (service.load job.2) (do
      let ok ← service.tryUpsert [memoryPoint job.1.id job.1.conversationId job.1.kind job.2] job.2.length
      return summary.addMemory ok) summary.addMemory
      (fun _ => service.asked [memoryPoint job.1.id job.1.conversationId job.1.kind job.2] (service.load job.2)) :=
  (asksOnce_tryUpsert (memoryPoint job.1.id job.1.conversationId job.1.kind job.2)).bind fun _ _ => rfl

theorem exec_rebuildVectorIndex (scope : Option String) (force : Bool) (st : MemoryState) :
    (service.rebuildVectorIndex scope force).exec st
      = (service.rebuildChunkRows (rebuildChunks scope (rebuildStart scope force st)) >>=
          service.rebuildMemoryRows (rebuildMemories scope (rebuildStart scope force st))).exec
        (rebuildStart scope force st) := by
  cases force with
  | true =>
    rw [rebuildVectorIndex, if_pos rfl, Eff.exec_bind_of_ok (Eff.exec_modify _ st), Eff.exec_bind_of_ok (Eff.exec_get _)]
    rfl
  | false =>
    rw [rebuildVectorIndex, if_neg Bool.false_ne_true, Eff.exec_bind_of_ok (Eff.exec_get _)]
    rfl

theorem Embeds.rebuildChunkRows_eq (h : service.Embeds) (rows : List ChunkRow) :
    service.rebuildChunkRows rows = (rows.zip (service.chunkVectors rows)).foldlM (fun summary job => do
      let ok ← service.rebuildChunk job.1 job.2
      return summary.addChunk ok) ({} : RebuildSummary) := by
  rw [rebuildChunkRows]
  apply h.foldlM_batches
  intro summary batch
  rw [(h.batchVectors batch).1]

theorem Embeds.memoryVectors (h : service.Embeds) (rows : List MemoryRow) :
    service.safeEmbedBatch (rows.map fun row => service.truncate row.content) = some (service.memoryVectors rows) ∧
      (service.memoryVectors rows).length = rows.length := by
  obtain ⟨vectors, hvectors, hlength⟩ := h.safeEmbedBatch (rows.map fun row => service.truncate row.content)
  rw [MemoryService.memoryVectors, hvectors]
  exact ⟨rfl, hlength.trans (length_map _)⟩

theorem Embeds.rebuildMemoryRows_eq (h : service.Embeds) (rows : List MemoryRow) (summary : RebuildSummary) :
    service.rebuildMemoryRows rows summary = (rows.zip (service.memoryVectors rows)).foldlM (fun summary job => do
      let ok ← service.tryUpsert [memoryPoint job.1.id job.1.conversationId job.1.kind job.2] job.2.length
      return summary.addMemory ok) summary := by
  rw [rebuildMemoryRows, (h.memoryVectors rows).1]

theorem Embeds.exec_rebuildChunkRows (h : service.Embeds) (rows : List ChunkRow) (st : MemoryState) :
    (service.Contained st.calls.length st.ready (service.chunkLoads rows) →
      ∃ summary st', (service.rebuildChunkRows rows).exec st = (.ok summary, st') ∧
        summary.chunks + summary.chunksFailed = rows.length ∧
        st'.calls.length = st.calls.length + (service.chunkLoads rows).length ∧
        st'.ready = service.readyEnd st.calls.length st.ready (service.chunkLoads rows)) ∧
    (¬service.Contained st.calls.length st.ready (service.chunkLoads rows) →
      ∃ error st', (service.rebuildChunkRows rows).exec st = (.error error, st')) := by
  obtain ⟨hok, herror⟩ := exec_pass service asksOnce_rebuildChunk
    (fun job ok st => chunkAsked_ready job.1.conversationId job.1 job.2 ok st)
    (fun job ok st => by rw [chunkAsked_calls, length_append, length_singleton])
    (rows.zip (service.chunkVectors rows)) {} st
  rw [h.map_zip, ← h.rebuildChunkRows_eq] at hok herror
  refine ⟨fun hcontained => ⟨_, _, hok hcontained, ?_, ?_⟩, herror⟩
  · rw [foldl_addChunk, h.length_stored_chunkLoads]
    exact Nat.zero_add _
  · have hflags := h.length_stored_chunkLoads st.calls.length st.ready rows
    have hvectors := h.length_chunkVectors rows
    have hzip : (rows.zip (service.chunkVectors rows)).length
        ≤ (service.stored st.calls.length st.ready (service.chunkLoads rows)).length := by
      rw [length_zip]
      omega
    have hsizes := (map_zip_fst hzip fun job : ChunkRow × List Json => service.load job.2).trans (h.map_zip rows)
    obtain ⟨hcalls, hready⟩ := foldl_chunkAsked_ready service (·.conversationId)
      ((rows.zip (service.chunkVectors rows)).zip (service.stored st.calls.length st.ready (service.chunkLoads rows))) st
    rw [hsizes] at hready
    have hnumber := congrArg List.length hsizes
    rw [length_map] at hnumber
    exact ⟨hcalls.trans (by rw [hnumber]), hready⟩

theorem Embeds.exec_rebuildMemoryRows (h : service.Embeds) (rows : List MemoryRow) (summary : RebuildSummary)
    (st : MemoryState) : (service.Contained st.calls.length st.ready ((service.memoryVectors rows).map service.load) →
      ∃ done st', (service.rebuildMemoryRows rows summary).exec st = (.ok done, st') ∧
        done.chunks = summary.chunks ∧ done.chunksFailed = summary.chunksFailed) ∧
    (¬service.Contained st.calls.length st.ready ((service.memoryVectors rows).map service.load) →
      ∃ error st', (service.rebuildMemoryRows rows summary).exec st = (.error error, st')) := by
  obtain ⟨hok, herror⟩ := exec_pass service asksOnce_rebuildMemory (fun _ _ _ => rfl)
    (fun _ _ _ => by rw [asked, length_append, length_singleton])
    (rows.zip (service.memoryVectors rows)) summary st
  rw [map_zip_snd (h.memoryVectors rows).2.le service.load, ← h.rebuildMemoryRows_eq] at hok herror
  exact ⟨fun hcontained => ⟨_, _, hok hcontained, foldl_addMemory _ _⟩, herror⟩

theorem Embeds.rebuildsAll_iff (h : service.Embeds) (scope : Option String) (force : Bool) (st : MemoryState) :
    service.RebuildsAll scope force st ↔
      service.Contained st.calls.length st.ready (service.rebuildLoads scope (rebuildStart scope force st)) := by
  have hstart : (rebuildStart scope force st).calls = st.calls ∧ (rebuildStart scope force st).ready = st.ready := by
    cases force <;> exact ⟨rfl, rfl⟩
  rw [RebuildsAll, exec_rebuildVectorIndex, ← hstart.1, ← hstart.2, rebuildLoads, contained_append]
  generalize rebuildStart scope force st = start
  obtain ⟨hchunks, hraised⟩ := h.exec_rebuildChunkRows (rebuildChunks scope start) start
  by_cases hfirst : service.Contained start.calls.length start.ready (service.chunkLoads (rebuildChunks scope start))
  · obtain ⟨summary, middle, hexec, hcounted, hcalls, hready⟩ := hchunks hfirst
    obtain ⟨hmemories, hraised⟩ := h.exec_rebuildMemoryRows (rebuildMemories scope start) summary middle
    rw [hcalls, hready] at hmemories hraised
    rw [Eff.exec_bind_of_ok hexec]
    constructor
    · rintro ⟨done, st', hdone, -⟩
      refine ⟨hfirst, ?_⟩
      by_contra hnot
      obtain ⟨error, st'', herror⟩ := hraised hnot
      exact absurd (hdone.symm.trans herror) (by simp)
    · rintro ⟨-, hsecond⟩
      obtain ⟨done, st', hdone, hkept, hfailed⟩ := hmemories hsecond
      exact ⟨done, st', hdone, by rw [hkept, hfailed, hcounted]⟩
  · obtain ⟨error, st', herror⟩ := hraised hfirst
    rw [Eff.exec_bind_of_error herror]
    simp [hfirst]

/-! ### The creation of a memory -/

theorem insertMemory_eq_ok (h : service.insertMemory spec memoryId st = .ok committed) :
    committed.ready = st.ready ∧ committed.calls = st.calls ∧ ∃ row ∈ committed.memories, row.id = memoryId := by
  rw [insertMemory] at h
  split at h
  · cases h
  · obtain ⟨target, -, h⟩ := bind_eq_ok.mp h
    split at h
    · cases h
    · obtain rfl := Except.ok.inj h
      refine ⟨rfl, rfl, ?_⟩
      simp only [map_append, map_cons, map_nil, mem_append, mem_singleton]
      refine ⟨_, .inr rfl, ?_⟩
      split <;> rfl

/-- What a creation promises once its transaction has committed: it returns the identifier of the row. -/
def ReturnsCommitted (service : MemoryService) (spec : MemoryCreate) (memoryId : String) (st : MemoryState) : Prop :=
  ∃ st', (service.createMemory spec memoryId).exec st = (.ok memoryId, st') ∧ ∃ row ∈ st'.memories, row.id = memoryId

def memoryLoad (service : MemoryService) (content : String) : Load :=
  match service.embed [service.truncate content] with
  | .ok (vector :: _) => service.load vector
  | _ => service.load []

theorem Embeds.returnsCommitted_iff (h : service.Embeds) (hcommit : service.insertMemory spec memoryId st = .ok committed) :
    service.ReturnsCommitted spec memoryId st ↔
      service.Contained st.calls.length st.ready [service.memoryLoad spec.content] := by
  obtain ⟨hready, hcalls, row, hrow, hid⟩ := insertMemory_eq_ok hcommit
  obtain ⟨vectors, hembed, hlength⟩ := h [service.truncate spec.content]
  obtain ⟨vector, rfl⟩ := length_eq_one_iff.mp hlength
  have hcreate : (service.createMemory spec memoryId).exec st
      = (service.tryUpsert [memoryPoint memoryId spec.conversationId spec.kind vector] vector.length >>=
          fun _ => pure memoryId).exec committed := by
    rw [createMemory, Eff.exec_bind_of_ok (Eff.exec_get st), hcommit]
    simp only [embedAndUpsert, safeEmbed, hembed, Eff.exec_bind, Eff.exec_set, Eff.exec_pure]
    rcases (service.tryUpsert [memoryPoint memoryId spec.conversationId spec.kind vector] vector.length).exec committed
      with ⟨_ | ok, st'⟩
    · rfl
    · rfl
  have hload : service.memoryLoad spec.content = service.load vector := by rw [memoryLoad, hembed]
  rw [ReturnsCommitted, hcreate, hload, ← hready, ← hcalls]
  simp only [Contained, and_true]
  have hasks : service.AsksOnce (service.load vector)
      (service.tryUpsert [memoryPoint memoryId spec.conversationId spec.kind vector] vector.length >>=
        fun _ => pure memoryId) (fun _ => memoryId)
      (fun _ => service.asked [memoryPoint memoryId spec.conversationId spec.kind vector] (service.load vector)) :=
    (asksOnce_tryUpsert (memoryPoint memoryId spec.conversationId spec.kind vector)).bind fun _ _ => rfl
  rcases hasks committed with
    ⟨hstores, hexec⟩ | ⟨hstores, hdeclines, hexec⟩ | ⟨hstores, hdeclines, error, st', hexec⟩
  · exact iff_of_true ⟨_, hexec, row, hrow, hid⟩ (.inl hstores)
  · exact iff_of_true ⟨_, hexec, row, hrow, hid⟩ (.inr hdeclines)
  · rw [hexec, hstores, hdeclines]
    simp

/-- With embeddings that succeed, the three writers of the index keep their promises exactly when every upsert they make is stored, or declined because a collection does not fit. -/
theorem outage_contained_iff (h : service.Embeds) (st : MemoryState) :
    (∀ conversationId, service.IndexesAll conversationId st ↔
      service.Contained st.calls.length st.ready (service.chunkLoads (pendingChunks conversationId st))) ∧
    (∀ scope force, service.RebuildsAll scope force st ↔
      service.Contained st.calls.length st.ready (service.rebuildLoads scope (rebuildStart scope force st))) ∧
    ∀ spec memoryId committed, service.insertMemory spec memoryId st = .ok committed →
      (service.ReturnsCommitted spec memoryId st ↔
        service.Contained st.calls.length st.ready [service.memoryLoad spec.content]) :=
  ⟨fun conversationId => h.indexesAll_iff conversationId st, fun scope force => h.rebuildsAll_iff scope force st,
    fun _ _ _ hcommit => h.returnsCommitted_iff hcommit⟩

/-! ### A refused connection -/

def plainAnswer (status : ℕ) : HttpAnswer := .response { status, statusError := "", body := .value .null }

def plainService (put : HttpAnswer) : MemoryService where
  rt := plainRuntime
  collection := "context_proxy"
  embed := fun texts => .ok (texts.map fun _ => [.int 1])
  maxEmbedChars := 8000
  embedBatchSize := 64
  embedBatchSize_pos := by decide
  answers := fun _ =>
    { create := plainAnswer 200, params := plainAnswer 200, put,
      createAgain := plainAnswer 200, paramsAgain := plainAnswer 200, putAgain := put }
  now := fun n => n
  uuid := some

def twoPending : MemoryState where
  chunks := {
    rows := [⟨"a", "c", 0, "first", none⟩, ⟨"b", "c", 2, "second", none⟩]
    ids_nodup := by decide }
  memories := []
  conversations := ["c"]
  ready := false
  calls := []

def plainMemory : MemoryCreate := { kind := .fact, content := "The build is green.", conversationId := "c" }

/-- A refused connection ends the pass at its first chunk, ends the rebuild, and ends a creation whose row is committed. -/
theorem outage_escapes :
    let service := plainService (.transport "connection refused")
    let refused : ServiceError := .vector (.transport "connection refused")
    (((service.indexPendingChunks "c").exec twoPending).1 = .error refused ∧
      ((service.indexPendingChunks "c").exec twoPending).2.calls.length = 1) ∧
    ((service.rebuildVectorIndex none true).exec twoPending).1 = .error refused ∧
    (((service.createMemory plainMemory "m").exec twoPending).1 = .error refused ∧
      ((service.createMemory plainMemory "m").exec twoPending).2.memories.map (·.id) = ["m"]) :=
  ⟨⟨rfl, rfl⟩, rfl, rfl, rfl⟩

theorem embeds_plainService (put : HttpAnswer) : (plainService put).Embeds := by
  intro texts
  exact ⟨_, rfl, length_map _⟩

/-- Answered by 200, the pass indexes both chunks. -/
theorem outage_contained_answered : (plainService (plainAnswer 200)).IndexesAll "c" twoPending := by
  apply ((outage_contained_iff (embeds_plainService _) twoPending).1 "c").mpr
  exact ⟨.inl rfl, .inl rfl, trivial⟩

end MemoryService

end ContextProxy
