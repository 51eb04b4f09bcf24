import ContextProxy.Lib.Ranked
import ContextProxy.Memory.Outage
import Mathlib.Data.List.Flatten
import Mathlib.Dynamics.FixedPoints.Basic

/-!
# Chunks that cannot be embedded

A pass over the pending chunks fetches the first hundred, cuts them into batches, and embeds each batch in one call. The endpoint fails a call exactly if it contains a bad text, so such a batch stays pending as a whole. The next pass cuts what is left anew, with rows from behind the first hundred.

What repeated passes leave is the queue when it no longer changes (`survivors`), and the good chunks are all indexed exactly if none is left there (`good_indexed_iff`). Up to a hundred chunks that is so exactly if no batch is mixed (`clears_iff_of_short`).
-/

namespace ContextProxy

open List

/-! ### A queue served in batches -/

section Queue

variable {α : Type} (size : ℕ) (bad : α → Bool)

/-- What a pass leaves of a queue: the batches with something bad, and what it did not fetch. -/
def survivors (queue : List α) : List α :=
  ((batches size (queue.take 100).length (queue.take 100)).filter (·.any bad)).flatten ++ queue.drop 100

/-- What passes leave in the end is all bad. -/
def Clears (queue : List α) : Prop := ∀ item ∈ (survivors size bad)^[queue.length] queue, bad item = true

instance (queue : List α) : Decidable (Clears size bad queue) := inferInstanceAs (Decidable (∀ item ∈ _, _))

variable {size bad} {queue : List α}

theorem survivors_sublist (bad : α → Bool) (hsize : 0 < size) (queue : List α) : (survivors size bad queue).Sublist queue := by
  have hwindow := (filter_sublist (p := (·.any bad)) (l := batches size (queue.take 100).length (queue.take 100))).flatten
  rw [MemoryService.flatten_batches hsize le_rfl] at hwindow
  conv_rhs => rw [← take_append_drop 100 queue]
  exact hwindow.append (List.Sublist.refl _)

theorem iterate_survivors_sublist (hsize : 0 < size) (n : ℕ) (queue : List α) :
    ((survivors size bad)^[n] queue).Sublist queue := by
  induction n with
  | zero => exact List.Sublist.refl _
  | succ n ih =>
    rw [Function.iterate_succ_apply']
    exact (survivors_sublist bad hsize _).trans ih

theorem iterate_survivors_succ (hsize : 0 < size) {n : ℕ} (h : queue.length ≤ n) :
    (survivors size bad)^[n + 1] queue = (survivors size bad)^[n] queue := by
  induction n generalizing queue with
  | zero =>
    rw [length_eq_zero_iff.mp (Nat.le_zero.mp h)]
    rfl
  | succ n ih =>
    by_cases hfixed : survivors size bad queue = queue
    · rw [Function.iterate_fixed hfixed, Function.iterate_fixed hfixed]
    · rw [Function.iterate_succ_apply, Function.iterate_succ_apply (n := n)]
      apply ih
      have hsub := survivors_sublist bad hsize queue
      have hlength := lt_of_le_of_ne hsub.length_le fun heq => hfixed (hsub.eq_of_length heq)
      omega

theorem iterate_survivors_of_le (hsize : 0 < size) {n : ℕ} (h : queue.length ≤ n) :
    (survivors size bad)^[n] queue = (survivors size bad)^[queue.length] queue := by
  induction n, h using Nat.le_induction with
  | base => rfl
  | succ n hn ih => rw [iterate_survivors_succ hsize hn, ih]

/-- Whether a queue clears can be seen after as many passes as it has items. -/
theorem clears_iff_exists (hsize : 0 < size) :
    Clears size bad queue ↔ ∃ n, ∀ item ∈ (survivors size bad)^[n] queue, bad item = true := by
  constructor
  · intro h
    exact ⟨queue.length, h⟩
  · intro ⟨n, h⟩ item hitem
    rw [← iterate_survivors_of_le hsize (Nat.le_add_left queue.length n), Nat.add_comm, Function.iterate_add_apply] at hitem
    exact h item ((iterate_survivors_sublist hsize _ _).subset hitem)

/-! ### Short queues -/

/-- Slices as a loop cuts them: all of them full, apart from the last. -/
def Aligned (size : ℕ) : List (List α) → Prop
  | [] => True
  | [slice] => slice ≠ [] ∧ slice.length ≤ size
  | slice :: slices => slice.length = size ∧ Aligned size slices

variable {slices : List (List α)}

theorem aligned_cons {slice : List α} (hne : slice ≠ []) (hfull : slices ≠ [] → slice.length = size)
    (hlength : slice.length ≤ size) (h : Aligned size slices) : Aligned size (slice :: slices) := by
  cases slices with
  | nil => exact ⟨hne, hlength⟩
  | cons next slices => exact ⟨hfull (cons_ne_nil _ _), h⟩

theorem Aligned.head {slice : List α} (hsize : 0 < size) (h : Aligned size (slice :: slices)) :
    slice ≠ [] ∧ slice.length ≤ size ∧ (slices ≠ [] → slice.length = size) ∧ Aligned size slices := by
  cases slices with
  | nil => exact ⟨h.1, h.2, fun hne => absurd rfl hne, trivial⟩
  | cons next slices =>
    refine ⟨?_, h.1.le, fun _ => h.1, h.2⟩
    intro hnil
    have hlength : slice.length = size := h.1
    rw [hnil, length_nil] at hlength
    omega

theorem aligned_batches (hsize : 0 < size) {fuel : ℕ} (items : List α) : Aligned size (batches size fuel items) := by
  induction fuel generalizing items with
  | zero => trivial
  | succ fuel ih =>
    rw [batches]
    split
    · trivial
    · rename_i hitems
      have hne : items ≠ [] := by simpa using hitems
      refine aligned_cons ?_ ?_ (length_take_le _ _) (ih _)
      · intro hnil
        rcases take_eq_nil_iff.mp hnil with hzero | hnil
        · omega
        · exact hne hnil
      · intro hmore
        rw [length_take, min_eq_left]
        by_contra hshort
        have hdrop : items.drop size = [] := drop_eq_nil_of_le (by omega)
        rw [hdrop] at hmore
        cases fuel <;> exact hmore rfl

theorem Aligned.filter (hsize : 0 < size) (h : Aligned size slices) (p : List α → Bool) :
    Aligned size (slices.filter p) := by
  induction slices with
  | nil => trivial
  | cons slice slices ih =>
    obtain ⟨hne, hlength, hfull, hrest⟩ := h.head hsize
    rw [filter_cons]
    split
    · refine aligned_cons hne (fun hfiltered => hfull ?_) hlength (ih hrest)
      intro hnil
      exact hfiltered (by rw [hnil]; rfl)
    · exact ih hrest

theorem batches_flatten (hsize : 0 < size) (h : Aligned size slices) {fuel : ℕ} (hfuel : slices.flatten.length ≤ fuel) :
    batches size fuel slices.flatten = slices := by
  induction slices generalizing fuel with
  | nil => cases fuel <;> rfl
  | cons slice slices ih =>
    obtain ⟨hne, hlength, hfull, hrest⟩ := h.head hsize
    have hpos := length_pos_of_ne_nil hne
    rw [flatten_cons, length_append] at hfuel
    cases fuel with
    | zero => omega
    | succ fuel =>
      have hitems : (slice ++ slices.flatten).isEmpty = false := by simp [hne]
      have hcut : (slice ++ slices.flatten).take size = slice ∧ (slice ++ slices.flatten).drop size = slices.flatten := by
        by_cases hslices : slices = []
        · rw [hslices, flatten_nil, append_nil]
          exact ⟨take_of_length_le hlength, drop_eq_nil_of_le hlength⟩
        · rw [← hfull hslices]
          exact ⟨take_left, drop_left⟩
      rw [flatten_cons, batches, hitems, if_neg Bool.false_ne_true, hcut.1, hcut.2, ih hrest (by omega)]

theorem survivors_survivors (hsize : 0 < size) (h : queue.length ≤ 100) :
    survivors size bad (survivors size bad queue) = survivors size bad queue := by
  have hshort : ∀ items : List α, items.length ≤ 100 →
      survivors size bad items = ((batches size items.length items).filter (·.any bad)).flatten := by
    intro items hitems
    rw [survivors, take_of_length_le hitems, drop_eq_nil_of_le hitems, append_nil]
  have hlength := (survivors_sublist bad hsize queue).length_le
  rw [hshort _ (hlength.trans h), hshort queue h, batches_flatten hsize ((aligned_batches hsize _).filter hsize _) le_rfl,
    filter_filter]
  simp only [Bool.and_self]

/-- Up to a hundred items: no batch has something bad and something good. -/
theorem clears_iff_of_short (hsize : 0 < size) (h : queue.length ≤ 100) :
    Clears size bad queue ↔ ∀ batch ∈ batches size queue.length queue,
      (∀ item ∈ batch, bad item = true) ∨ ∀ item ∈ batch, bad item = false := by
  have hfinal : Clears size bad queue ↔ ∀ item ∈ survivors size bad queue, bad item = true := by
    rw [clears_iff_exists hsize]
    constructor
    · intro ⟨n, hn⟩ item hitem
      apply hn item
      cases n with
      | zero => exact (survivors_sublist bad hsize queue).subset hitem
      | succ n =>
        rw [Function.iterate_succ_apply, Function.iterate_fixed (survivors_survivors hsize h)]
        exact hitem
    · intro hall
      exact ⟨1, hall⟩
  rw [hfinal, survivors, take_of_length_le h, drop_eq_nil_of_le h, append_nil]
  constructor
  · intro hall batch hbatch
    by_cases hany : batch.any bad = true
    · exact .inl fun item hitem => hall item (mem_flatten.mpr ⟨batch, mem_filter.mpr ⟨hbatch, hany⟩, hitem⟩)
    · exact .inr fun item hitem => Bool.eq_false_of_not_eq_true fun hbad => hany (any_eq_true.mpr ⟨item, hitem, hbad⟩)
  · intro hall item hitem
    obtain ⟨batch, hbatch, hitem⟩ := mem_flatten.mp hitem
    obtain ⟨hbatch, hany⟩ := mem_filter.mp hbatch
    rcases hall batch hbatch with hbad | hgood
    · exact hbad item hitem
    · obtain ⟨other, hother, hbad⟩ := any_eq_true.mp hany
      rw [hgood other hother] at hbad
      cases hbad

variable {key : α → String}

theorem filter_flatten_slices (hkeys : (slices.flatten.map key).Nodup) (p : List α → Bool) :
    slices.flatten.filter (fun item => decide (key item ∉ ((slices.filter fun slice => !p slice).flatten.map key)))
      = (slices.filter p).flatten := by
  induction slices with
  | nil => rfl
  | cons slice slices ih =>
    rw [flatten_cons, map_append, nodup_append'] at hkeys
    obtain ⟨-, hrest, hdisjoint⟩ := hkeys
    rw [flatten_cons, filter_append, filter_cons, filter_cons (p := p)]
    cases hp : p slice with
    | true =>
      have hslice : ∀ item ∈ slice, key item ∉ (slices.filter fun slice => !p slice).flatten.map key := by
        intro item hitem hkey
        exact hdisjoint (mem_map_of_mem hitem) ((filter_sublist.flatten.map key).subset hkey)
      simp only [Bool.not_true, Bool.false_eq_true, if_false, if_true, flatten_cons]
      rw [ih hrest, filter_eq_self.mpr fun item hitem => decide_eq_true (hslice item hitem)]
    | false =>
      simp only [Bool.not_false, if_true, Bool.false_eq_true, if_false, flatten_cons, map_append,
        mem_append, not_or]
      have hgone : slice.filter (fun item => decide (key item ∉ slice.map key ∧
          key item ∉ (slices.filter fun slice => !p slice).flatten.map key)) = [] := by
        rw [filter_eq_nil_iff]
        intro item hitem hkey
        exact (of_decide_eq_true hkey).1 (mem_map_of_mem hitem)
      rw [hgone, nil_append, ← ih hrest]
      apply filter_congr
      intro item hitem
      have hother : key item ∉ slice.map key := fun hkey => hdisjoint hkey (mem_map_of_mem hitem)
      rw [decide_eq_decide, and_iff_right hother]

/-- What is left if the batches without anything bad are dropped. -/
theorem filter_eq_survivors (hsize : 0 < size) (hkeys : (queue.map key).Nodup) :
    queue.filter (fun item => decide (key item ∉ (((batches size (queue.take 100).length (queue.take 100)).filter
      fun batch => !batch.any bad).flatten.map key))) = survivors size bad queue := by
  have hslices : (batches size (queue.take 100).length (queue.take 100)).flatten = queue.take 100 :=
    MemoryService.flatten_batches hsize le_rfl
  rw [← take_append_drop 100 queue, map_append, nodup_append'] at hkeys
  obtain ⟨hwindow, -, hdisjoint⟩ := hkeys
  rw [survivors]
  generalize batches size (queue.take 100).length (queue.take 100) = slices at hslices ⊢
  conv_lhs => rw [← take_append_drop 100 queue, filter_append, ← hslices]
  congr 1
  · apply filter_flatten_slices
    rw [hslices]
    exact hwindow
  · rw [filter_eq_self]
    intro item hitem
    apply decide_eq_true
    intro hkey
    have hfetched := (filter_sublist.flatten.map key).subset hkey
    rw [hslices] at hfetched
    exact hdisjoint hfetched (mem_map_of_mem hitem)

end Queue

namespace MemoryService

/-! ### The pending chunks of a conversation -/

def pendingRows (conversationId : String) (table : ChunkTable) : List ChunkRow :=
  table.rows.filter fun row => row.conversationId = conversationId ∧ row.vectorIndexedAt = none

def pendingQueue (conversationId : String) (st : MemoryState) : List ChunkRow :=
  (pendingRows conversationId st.chunks).insertionSort fun a b => a.startSeq ≤ b.startSeq

def unmarked (row : ChunkRow) : ChunkRow := { row with vectorIndexedAt := none }

/-- Chunks of the conversation have been marked, those with the given identifiers. -/
structure Indexed (conversationId : String) (ids : List String) (st st' : MemoryState) : Prop where
  pending : pendingRows conversationId st'.chunks = (pendingRows conversationId st.chunks).filter fun row => row.id ∉ ids
  rows : st'.chunks.rows.map unmarked = st.chunks.rows.map unmarked

variable {c : String} {st st' st'' : MemoryState} {ids ids' : List String}

theorem Indexed.refl (c : String) (st : MemoryState) : Indexed c [] st st where
  pending := by simp
  rows := rfl

theorem Indexed.trans (h : Indexed c ids st st') (h' : Indexed c ids' st' st'') : Indexed c (ids ++ ids') st st'' where
  pending := by
    rw [h'.pending, h.pending, filter_filter]
    apply filter_congr
    intro row _
    simp [Bool.and_comm]
  rows := h'.rows.trans h.rows

theorem pendingRows_mark (c : String) (table : ChunkTable) (id : String) (now : ℚ) :
    pendingRows c (table.mark id now) = (pendingRows c table).filter fun row => row.id ∉ [id] := by
  simp only [pendingRows, ChunkTable.mark, ChunkTable.update]
  induction table.rows with
  | nil => rfl
  | cons row rows ih =>
    obtain ⟨id', conversation, startSeq, rawContent, mark⟩ := row
    rw [map_cons, filter_cons, ih, filter_cons]
    cases mark with
    | some time => simp
    | none =>
      by_cases hconversation : conversation = c
      · by_cases hid : id' = id
        · simp [hconversation, hid]
        · simp [hconversation, hid]
      · simp [hconversation]

theorem rows_mark (table : ChunkTable) (id : String) (now : ℚ) :
    (table.mark id now).rows.map unmarked = table.rows.map unmarked := by
  rw [ChunkTable.mark, ChunkTable.update, map_map]
  rfl

theorem pendingQueue_of_indexed (h : Indexed c ids st st') :
    pendingQueue c st' = (pendingQueue c st).filter fun row => row.id ∉ ids := by
  rw [pendingQueue, pendingQueue, h.pending, filter_insertionSort]

/-! ### A pass -/

variable {service : MemoryService} {bad : String → Bool}

/-- The endpoint fails a call exactly if it contains a bad text, and answers any other with one vector a text. -/
structure FailsOn (service : MemoryService) (bad : String → Bool) : Prop where
  fails : ∀ texts : List String, texts.any bad = true → ∃ error, service.embed texts = .error error
  embeds : ∀ texts : List String, texts.any bad = false →
    ∃ vectors, service.embed texts = .ok vectors ∧ vectors.length = texts.length

def StoresAll (service : MemoryService) : Prop :=
  ∀ call vector ready, (service.answers call).stores service.collection (service.load vector) ready = true

def badRow (service : MemoryService) (bad : String → Bool) (row : ChunkRow) : Bool := bad (service.truncate row.rawContent)

variable {batch : List ChunkRow}

theorem FailsOn.safeEmbedBatch_of_bad (h : service.FailsOn bad) (hbad : batch.any (service.badRow bad) = true) :
    service.safeEmbedBatch (batch.map (·.rawContent)) = none := by
  have hne : batch ≠ [] := by
    intro hnil
    rw [hnil] at hbad
    cases hbad
  obtain ⟨error, herror⟩ := h.fails ((batch.map (·.rawContent)).map service.truncate) (by
    rw [map_map, any_map]
    exact hbad)
  rw [safeEmbedBatch, if_neg (by simpa using hne), herror]

theorem FailsOn.safeEmbedBatch_of_good (h : service.FailsOn bad) (hgood : batch.any (service.badRow bad) = false) :
    ∃ vectors, service.safeEmbedBatch (batch.map (·.rawContent)) = some vectors ∧ vectors.length = batch.length := by
  obtain ⟨vectors, hvectors, hlength⟩ := h.embeds ((batch.map (·.rawContent)).map service.truncate) (by
    rw [map_map, any_map]
    exact hgood)
  rw [length_map, length_map] at hlength
  rw [safeEmbedBatch]
  split
  · rename_i hempty
    exact ⟨[], rfl, by rw [map_eq_nil_iff.mp (List.isEmpty_iff.mp hempty)]; rfl⟩
  · refine ⟨vectors, ?_, hlength⟩
    rw [hvectors]
    simp [hlength]

theorem StoresAll.exec_indexChunk (h : service.StoresAll) (c : String) (row : ChunkRow) (vector : List Json)
    (st : MemoryState) : (service.indexChunk c row vector).exec st =
      (.ok true, service.chunkAsked c row vector true st) := by
  rcases asksOnce_storeChunk c row vector st with ⟨-, hexec⟩ | ⟨hstores, -⟩ | ⟨hstores, -⟩
  · exact hexec
  · rw [h] at hstores
    cases hstores
  · rw [h] at hstores
    cases hstores

theorem indexed_chunkAsked (c : String) (row : ChunkRow) (vector : List Json) (st : MemoryState) :
    Indexed c [row.id] st (service.chunkAsked c row vector true st) where
  pending := pendingRows_mark c st.chunks row.id _
  rows := rows_mark st.chunks row.id _

theorem StoresAll.exec_batch (h : service.StoresAll) (c : String) (jobs : List (ChunkRow × List Json)) (indexed : ℕ)
    (st : MemoryState) : ∃ indexed' st', (jobs.foldlM (fun indexed (row, vector) => do
        let ok ← service.indexChunk c row vector
        return if ok then indexed + 1 else indexed) indexed : Eff MemoryState ServiceError ℕ).exec st = (.ok indexed', st') ∧
      Indexed c (jobs.map (·.1.id)) st st' := by
  induction jobs generalizing indexed st with
  | nil => exact ⟨indexed, st, rfl, .refl c st⟩
  | cons job jobs ih =>
    obtain ⟨row, vector⟩ := job
    obtain ⟨indexed', st', hexec, hindexed⟩ := ih (indexed + 1) (service.chunkAsked c row vector true st)
    refine ⟨indexed', st', ?_, (indexed_chunkAsked c row vector st).trans hindexed⟩
    rw [foldlM_cons, bind_assoc, Eff.exec_bind_of_ok (h.exec_indexChunk c row vector st)]
    exact hexec

/-- A pass over batches: those without a bad text are indexed, the others are left. -/
theorem FailsOn.exec_batches (h : service.FailsOn bad) (hstores : service.StoresAll) (c : String)
    (slices : List (List ChunkRow)) (indexed : ℕ) (st : MemoryState) :
    ∃ indexed' st', (slices.foldlM (fun indexed batch =>
        match service.safeEmbedBatch (batch.map (·.rawContent)) with
        | none => pure indexed
        | some vectors =>
          (batch.zip vectors).foldlM (fun indexed (row, vector) => do
            let ok ← service.indexChunk c row vector
            return if ok then indexed + 1 else indexed) indexed) indexed : Eff MemoryState ServiceError ℕ).exec st
        = (.ok indexed', st') ∧
      Indexed c
        ((slices.filter fun slice => !slice.any (service.badRow bad)).flatten.map (·.id)) st st' := by
  induction slices generalizing indexed st with
  | nil => exact ⟨indexed, st, rfl, .refl c st⟩
  | cons batch slices ih =>
    rw [foldlM_cons, filter_cons]
    cases hbad : batch.any (service.badRow bad) with
    | true =>
      obtain ⟨indexed', st', hexec, hindexed⟩ := ih indexed st
      rw [h.safeEmbedBatch_of_bad hbad]
      exact ⟨indexed', st', hexec, hindexed⟩
    | false =>
      obtain ⟨vectors, hvectors, hlength⟩ := h.safeEmbedBatch_of_good hbad
      obtain ⟨between, st', hexec, hindexed⟩ := hstores.exec_batch c (batch.zip vectors) indexed st
      obtain ⟨indexed', st'', hexec', hindexed'⟩ := ih between st'
      rw [hvectors]
      refine ⟨indexed', st'', (Eff.exec_bind_of_ok hexec).trans hexec', ?_⟩
      rw [map_zip_fst hlength.ge fun row : ChunkRow => row.id] at hindexed
      rw [Bool.not_false, if_pos rfl, flatten_cons, map_append]
      exact hindexed.trans hindexed'

theorem mem_pendingQueue {row : ChunkRow} : row ∈ pendingQueue c st ↔
      row ∈ st.chunks.rows ∧ row.conversationId = c ∧ row.vectorIndexedAt = none := by
  rw [pendingQueue, mem_insertionSort, pendingRows, mem_filter, decide_eq_true_iff]

theorem nodup_pendingQueue (c : String) (st : MemoryState) : ((pendingQueue c st).map (·.id)).Nodup := by
  have hrows : ((pendingRows c st.chunks).map (·.id)).Nodup :=
    st.chunks.ids_nodup.sublist (filter_sublist.map ChunkRow.id)
  exact ((perm_insertionSort _ _).map ChunkRow.id).nodup_iff.mpr hrows

theorem FailsOn.exec_indexPendingChunks (h : service.FailsOn bad) (hstores : service.StoresAll) (c : String)
    (st : MemoryState) : ∃ indexed st', (service.indexPendingChunks c).exec st = (.ok indexed, st') ∧
      pendingQueue c st' =
        survivors service.embedBatchSize (service.badRow bad) (pendingQueue c st) ∧
      st'.chunks.rows.map unmarked = st.chunks.rows.map unmarked := by
  obtain ⟨indexed, st', hexec, hindexed⟩ := h.exec_batches hstores c
    (batches service.embedBatchSize ((pendingQueue c st).take 100).length
      ((pendingQueue c st).take 100)) 0 st
  refine ⟨indexed, st', hexec, ?_, hindexed.rows⟩
  rw [pendingQueue_of_indexed hindexed]
  exact filter_eq_survivors service.embedBatchSize_pos (nodup_pendingQueue c st)

/-! ### Passes -/

/-- Passes of `index_completed_turns` without new messages: the chunking in front of each of them creates nothing. -/
def indexPasses (service : MemoryService) (conversationId : String) : ℕ → Eff MemoryState ServiceError Unit
  | 0 => pure ()
  | n + 1 => do
      let _ ← service.indexPendingChunks conversationId
      service.indexPasses conversationId n

theorem FailsOn.exec_indexPasses (h : service.FailsOn bad) (hstores : service.StoresAll) (c : String) (n : ℕ)
    (st : MemoryState) : ∃ st', (service.indexPasses c n).exec st = (.ok (), st') ∧
      pendingQueue c st' =
        (survivors service.embedBatchSize (service.badRow bad))^[n] (pendingQueue c st) ∧
      st'.chunks.rows.map unmarked = st.chunks.rows.map unmarked := by
  induction n generalizing st with
  | zero => exact ⟨st, rfl, rfl, rfl⟩
  | succ n ih =>
    obtain ⟨indexed, st', hpass, hqueue, hrows⟩ := h.exec_indexPendingChunks hstores c st
    obtain ⟨st'', hpasses, hqueue', hrows'⟩ := ih st'
    refine ⟨st'', (Eff.exec_bind_of_ok hpass).trans hpasses, ?_, hrows'.trans hrows⟩
    rw [hqueue', hqueue, Function.iterate_succ_apply]

theorem marked_iff_not_mem {row : ChunkRow} (hrow : row ∈ pendingQueue c st)
    (hrows : st'.chunks.rows.map unmarked = st.chunks.rows.map unmarked) :
    Marked st'.chunks row.id ↔ row ∉ pendingQueue c st' := by
  rw [mem_pendingQueue] at hrow ⊢
  obtain ⟨hmem, hconversation, hnone⟩ := hrow
  constructor
  · intro ⟨other, hother, hid, hsome⟩ hpending
    rw [inj_on_of_nodup_map st'.chunks.ids_nodup hother hpending.1 hid, hnone] at hsome
    cases hsome
  · intro hgone
    have hunmarked : unmarked row = row := by
      rw [unmarked, ← hnone]
    have hthere : row ∈ st'.chunks.rows.map unmarked := by
      rw [hrows, ← hunmarked]
      exact mem_map_of_mem hmem
    obtain ⟨other, hother, hrow⟩ := mem_map.mp hthere
    refine ⟨other, hother, by rw [← hrow]; rfl, ?_⟩
    rw [Option.isSome_iff_ne_none]
    intro hpending
    have hsame : other = row := by
      rw [← hrow, unmarked, ← hpending]
    exact hgone ⟨hsame ▸ hother, hconversation, hnone⟩

/-- After finitely many passes all good chunks are marked. -/
def IndexesGood (service : MemoryService) (conversationId : String) (bad : String → Bool) (st : MemoryState) : Prop :=
  ∃ n st', (service.indexPasses conversationId n).exec st = (.ok (), st') ∧
    ∀ row ∈ pendingQueue conversationId st, service.badRow bad row = false → Marked st'.chunks row.id

theorem FailsOn.indexesGood_iff (h : service.FailsOn bad) (hstores : service.StoresAll) (c : String)
    (st : MemoryState) : service.IndexesGood c bad st ↔
      Clears service.embedBatchSize (service.badRow bad) (pendingQueue c st) := by
  rw [clears_iff_exists service.embedBatchSize_pos]
  constructor
  · intro ⟨n, st', hpasses, hmarked⟩
    obtain ⟨final, hfinal, hqueue, hrows⟩ := h.exec_indexPasses hstores c n st
    obtain rfl : st' = final := congrArg Prod.snd (hpasses.symm.trans hfinal)
    refine ⟨n, fun row hrow => ?_⟩
    have hpending := (iterate_survivors_sublist service.embedBatchSize_pos n _).subset hrow
    rw [← hqueue] at hrow
    by_contra hgood
    exact (marked_iff_not_mem hpending hrows).mp (hmarked row hpending (Bool.eq_false_of_not_eq_true hgood)) hrow
  · intro ⟨n, hbad⟩
    obtain ⟨st', hpasses, hqueue, hrows⟩ := h.exec_indexPasses hstores c n st
    refine ⟨n, st', hpasses, fun row hpending hgood => ?_⟩
    rw [marked_iff_not_mem hpending hrows, hqueue]
    intro hrow
    rw [hbad row hrow] at hgood
    cases hgood

/-- The endpoint fails the calls with a bad text, and Qdrant stores everything. Then the good chunks all get indexed exactly if passes leave only bad ones of the queue; and with at most a hundred pending, exactly if no batch of them is mixed. -/
theorem good_indexed_iff (service : MemoryService) (bad : String → Bool) (h : service.FailsOn bad)
    (hstores : service.StoresAll) (conversationId : String) (st : MemoryState) :
    (service.IndexesGood conversationId bad st ↔
      Clears service.embedBatchSize (service.badRow bad) (pendingQueue conversationId st)) ∧
    ((pendingQueue conversationId st).length ≤ 100 →
      (service.IndexesGood conversationId bad st ↔
        ∀ batch ∈ batches service.embedBatchSize (pendingQueue conversationId st).length (pendingQueue conversationId st),
          (∀ row ∈ batch, service.badRow bad row = true) ∨ ∀ row ∈ batch, service.badRow bad row = false)) := by
  have hclears := h.indexesGood_iff hstores conversationId st
  refine ⟨hclears, fun hshort => ?_⟩
  rw [hclears, clears_iff_of_short service.embedBatchSize_pos hshort]

/-! ### Two chunks, one of them bad -/

def pickyService (embedBatchSize : ℕ) (hsize : 0 < embedBatchSize) : MemoryService where
  __ := plainService (plainAnswer 200)
  embed := fun texts => if texts.any (· = "first") then .error "no embedding" else .ok (texts.map fun _ => [.int 1])
  embedBatchSize
  embedBatchSize_pos := hsize

theorem failsOn_pickyService (embedBatchSize : ℕ) (hsize : 0 < embedBatchSize) :
    (pickyService embedBatchSize hsize).FailsOn (· = "first") where
  fails := fun _ hbad => ⟨_, if_pos hbad⟩
  embeds := fun _ hgood => ⟨_, if_neg (Bool.eq_false_iff.mp hgood), length_map _⟩

theorem storesAll_pickyService (embedBatchSize : ℕ) (hsize : 0 < embedBatchSize) :
    (pickyService embedBatchSize hsize).StoresAll := by
  intro call size ready
  cases ready <;> rfl

/-- In one batch, the chunk behind the bad one is never indexed. -/
theorem good_starved_twoPending :
    (pickyService 64 (by decide)).FailsOn (· = "first") ∧ (pickyService 64 (by decide)).StoresAll ∧
      ¬(pickyService 64 (by decide)).IndexesGood "c" (· = "first") twoPending := by
  have hfails := failsOn_pickyService 64 (by decide)
  have hstores := storesAll_pickyService 64 (by decide)
  refine ⟨hfails, hstores, ?_⟩
  rw [hfails.indexesGood_iff hstores]
  decide +kernel

/-- One at a time, it is. -/
theorem good_indexed_twoPending :
    (pickyService 1 (by decide)).FailsOn (· = "first") ∧ (pickyService 1 (by decide)).StoresAll ∧
      (pickyService 1 (by decide)).IndexesGood "c" (· = "first") twoPending := by
  have hfails := failsOn_pickyService 1 (by decide)
  have hstores := storesAll_pickyService 1 (by decide)
  refine ⟨hfails, hstores, ?_⟩
  exact (good_indexed_iff _ _ hfails hstores "c" twoPending).1.mpr (by decide +kernel)

end MemoryService

end ContextProxy
