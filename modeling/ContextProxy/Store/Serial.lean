import ContextProxy.Conversation.Projections
import ContextProxy.Store.Writers

/-!
# Interleaved writers

Any number of calls on any conversations, their statements interleaved in any order and aborted at any point. Each takes the row lock of its conversation first, so the committed tables are those of running the committed calls one after the other. What one call does alone (`Call.ensures`) then gives the shape of every reachable log.
-/

namespace ContextProxy

variable {ι : Type} (rt : Runtime) (calls : ι → Call)

def storeSystem : System ConversationId Db Rows Write ι Answer StoreError (List RowId) where
  tables := storeTables
  locks := fun q _ => takesLock q
  key := fun i => (calls i).conversation
  prog := fun i => (calls i).prog rt

theorem locking_storeSystem : (storeSystem rt calls).Locking := fun i _ => (calls i).locksFirst rt

theorem Extended.log {M : List MessageRow} {contents : List Message} {rows : Rows} (h : Extended M contents rows) :
    rows.log = M.map (·.content) ++ contents := by
  obtain ⟨hcontiguous, new, hrows, hcontents⟩ := h
  rw [hcontiguous.log, hrows, List.map_append, hcontents]

theorem run_extended (call : Call) {rows : Rows} (hrows : Contiguous rows.messages) {result : List RowId}
    {ws : List Write} (hrun : storeTables.run (call.prog rt) rows = .ok (result, ws)) :
    Extended rows.messages (call.appended rows.log) (storeTables.applyParts ws rows) := by
  rw [hrows.log]
  exact call.ensures rt hrows rows rfl result ws hrun

def appendedLog (c : ConversationId) (log : List Message) (history : List ι) : List Message :=
  history.foldl (fun log i => if (calls i).conversation = c then log ++ (calls i).appended log else log) log

theorem appendedLog_concat (c : ConversationId) (log : List Message) (history : List ι) (i : ι) :
    appendedLog calls c log (history ++ [i]) =
      if (calls i).conversation = c then
        appendedLog calls c log history ++ (calls i).appended (appendedLog calls c log history)
      else appendedLog calls c log history := by
  rw [appendedLog, List.foldl_append]
  rfl

section Reachable

variable {rt calls} [DecidableEq ι] {db : Db} {w w' : World ConversationId Db ι Write Answer StoreError (List RowId)}

theorem contiguous_of_steps (hdb : ∀ c, Contiguous (db.rows c).messages)
    (h : (storeSystem rt calls).Steps ((storeSystem rt calls).init db) w) (c : ConversationId) :
    Contiguous (w.store.rows c).messages := by
  refine System.part_invariant (S := storeSystem rt calls) (P := fun rows => Contiguous rows.messages) hdb ?_
    (h.locked (locking_storeSystem rt calls)) c
  intro i rows hrows result ws hrun
  exact (run_extended rt (calls i) hrows hrun).1

theorem messages_grow (hdb : ∀ c, Contiguous (db.rows c).messages)
    (h : (storeSystem rt calls).Steps ((storeSystem rt calls).init db) w) (hsteps : (storeSystem rt calls).Steps w w')
    (c : ConversationId) : (w.store.rows c).messages <+: (w'.store.rows c).messages := by
  refine System.part_rel (S := storeSystem rt calls) (P := fun rows => Contiguous rows.messages)
    (r := fun rows rows' => rows.messages <+: rows'.messages) (fun _ => List.prefix_refl _)
    (fun _ _ _ => List.IsPrefix.trans) hdb ?_ ?_ (h.locked (locking_storeSystem rt calls))
    (hsteps.locked (locking_storeSystem rt calls)) c
  · intro i rows hrows result ws hrun
    exact (run_extended rt (calls i) hrows hrun).1
  · rintro i rows rows' ⟨hrows, rfl⟩ result ws hrun
    obtain ⟨-, new, hnew, -⟩ := run_extended rt (calls i) hrows hrun
    exact ⟨new, hnew.symm⟩

/-- The stored log of every conversation is the abstract one of the committed calls. -/
theorem log_eq_appendedLog (hdb : ∀ c, Contiguous (db.rows c).messages)
    (h : (storeSystem rt calls).Steps ((storeSystem rt calls).init db) w) (c : ConversationId) :
    (w.store.rows c).log = appendedLog calls c (db.rows c).log w.history := by
  induction h with
  | refl => rfl
  | @tail u v hsteps hstep ih =>
    obtain ⟨i, hstep⟩ := hstep
    have hinv := System.inv_of_steps (System.Steps.locked hsteps (locking_storeSystem rt calls))
    rcases hstep.effect hinv with ⟨hstore, hhistory, -⟩ | ⟨result, ws, -, hhistory, hrun, hstore⟩
    · rw [hstore, hhistory]
      exact ih
    · change storeTables.run ((calls i).prog rt) (u.store.rows (calls i).conversation) = _ at hrun
      change v.store = storeTables.applyAll (calls i).conversation ws u.store at hstore
      rw [hhistory, appendedLog_concat, ← ih, hstore]
      split
      · rename_i hc
        subst hc
        have hcontiguous := contiguous_of_steps hdb hsteps (calls i).conversation
        rw [Db.rows_applyAll, (run_extended rt (calls i) hcontiguous hrun).log, ← hcontiguous.log]
      · rename_i hc
        rw [Db.rows_applyAll_of_ne (Ne.symm hc)]

/-- Writers are serialisable: for any interleaving of any calls, aborted anywhere, the sequence numbers of every conversation are `0, …, n - 1`, its log only grows at the end, the tables are those of the committed calls run one after the other in commit order, a call that has not committed has changed nothing, and no call touches the messages of another conversation. -/
theorem writers_serialisable (hdb : ∀ c, Contiguous (db.rows c).messages)
    (h : (storeSystem rt calls).Steps ((storeSystem rt calls).init db) w) : (∀ c, (w.store.rows c).messages.map (·.seq)
        = (List.range (w.store.rows c).messages.length).map fun k : ℕ => (k : ℤ)) ∧
      (∀ w', (storeSystem rt calls).Steps w w' → ∀ c, (w.store.rows c).log <+: (w'.store.rows c).log) ∧
      w.store = (storeSystem rt calls).serial db w.history ∧
      (w.history.Nodup ∧ (∀ i, i ∈ w.history ↔ ∃ result, w.proc i = .committed result) ∧
        ∀ i error, w.proc i = .aborted error → i ∉ w.history) ∧
      (∀ i w', (storeSystem rt calls).Step i w w' → (∀ result, w'.proc i ≠ .committed result) → w'.store = w.store) ∧
      ∀ i w', (storeSystem rt calls).Step i w w' → ∀ c, c ≠ (calls i).conversation →
        (w'.store.rows c).messages = (w.store.rows c).messages := by
  have hinv := System.inv_of_steps (h.locked (locking_storeSystem rt calls))
  have hcommitted : ∀ i, i ∈ w.history ↔ ∃ result, w.proc i = .committed result := by
    intro i
    refine ⟨fun hi => ?_, fun ⟨result, hresult⟩ => hinv.committed i result hresult⟩
    obtain ⟨before, after, hsplit⟩ := List.append_of_mem hi
    obtain ⟨result, -, hresult, -⟩ := hinv.results before i after hsplit
    exact ⟨result, hresult⟩
  refine ⟨contiguous_of_steps hdb h, fun w' hsteps c => ?_, hinv.serial, ⟨hinv.nodup, hcommitted, ?_⟩, ?_, ?_⟩
  · rw [(contiguous_of_steps hdb h c).log, (contiguous_of_steps hdb (h.trans hsteps) c).log]
    exact (messages_grow hdb h hsteps c).map _
  · intro i error haborted hi
    obtain ⟨result, hresult⟩ := (hcommitted i).mp hi
    simp [haborted] at hresult
  · intro i w' hstep hopen
    rcases hstep.effect hinv with ⟨hstore, -⟩ | ⟨result, -, hresult, -⟩
    · exact hstore
    · exact absurd hresult (hopen result)
  · intro i w' hstep c hc
    exact congrArg Rows.messages (hstep.part_of_ne hinv hc)

inductive Writer where
  | cutOff
  | first
  | second
  | elsewhere
  deriving DecidableEq

def fourWriters : Writer → Call
  | .cutOff => .appendMessages "c" [textMessage "user" "X"] none ⟨0, fun _ => 0, fun _ _ => 0⟩
  | .first => .appendMessages "c" [textMessage "user" "A"] none ⟨0, fun _ => 1, fun _ _ => 0⟩
  | .second => .appendMessages "c" [textMessage "user" "B"] none ⟨0, fun _ => 2, fun _ _ => 0⟩
  | .elsewhere => .appendMessages "d" [textMessage "user" "D"] none ⟨0, fun _ => 3, fun _ _ => 0⟩

/-- The statements of four writers interleaved: one of them is cut off behind its insertion, two more append to the same conversation, and one writes to another conversation all the while. -/
theorem writers_serialisable_append :
    ∃ w, (storeSystem plainRuntime fourWriters).Steps ((storeSystem plainRuntime fourWriters).init {}) w ∧
      w.history = [.first, .elsewhere, .second] ∧ w.proc .cutOff = .aborted none ∧
      (w.store.rows "c").log = [textMessage "user" "A", textMessage "user" "B"] ∧
      (w.store.rows "d").log = [textMessage "user" "D"] ∧
      w.store = (storeSystem plainRuntime fourWriters).serial {} [.first, .elsewhere, .second] ∧
      (w.store.rows "c").messages.map (·.seq)
        = (List.range (w.store.rows "c").messages.length).map fun k : ℕ => (k : ℤ) := by
  have hempty : ∀ c, Contiguous ((({} : Db).rows c).messages) := fun _ => rfl
  have h : (storeSystem plainRuntime fourWriters).Steps ((storeSystem plainRuntime fourWriters).init {})
      ((storeSystem plainRuntime fourWriters).init {}) := .refl
  have h := h.step (i := .cutOff) (.statement rfl (fun _ => .inl rfl) rfl)
  have h := h.step (i := .elsewhere) (.statement rfl (fun _ => .inl rfl) rfl)
  have h := h.step (i := .cutOff) (.statement rfl (fun _ => .inr rfl) rfl)
  have h := h.step (i := .cutOff) (.statement rfl (fun _ => .inr rfl) rfl)
  have h := h.step (i := .elsewhere) (.statement rfl (fun _ => .inr rfl) rfl)
  have h := h.step (i := .cutOff) (.statement rfl (fun _ => .inr rfl) rfl)
  have h := h.step (i := .cutOff) (.crash rfl)
  have h := h.step (i := .first) (.statement rfl (fun _ => .inl rfl) rfl)
  have h := h.step (i := .first) (.statement rfl (fun _ => .inr rfl) rfl)
  have h := h.step (i := .elsewhere) (.statement rfl (fun _ => .inr rfl) rfl)
  have h := h.step (i := .first) (.statement rfl (fun _ => .inr rfl) rfl)
  have h := h.step (i := .first) (.statement rfl (fun _ => .inr rfl) rfl)
  have h := h.step (i := .first) (.commit rfl)
  have h := h.step (i := .second) (.statement rfl (fun _ => .inl rfl) rfl)
  have h := h.step (i := .second) (.statement rfl (fun _ => .inr rfl) rfl)
  have h := h.step (i := .elsewhere) (.statement rfl (fun _ => .inr rfl) rfl)
  have h := h.step (i := .second) (.statement rfl (fun _ => .inr rfl) rfl)
  have h := h.step (i := .elsewhere) (.commit rfl)
  have h := h.step (i := .second) (.statement rfl (fun _ => .inr rfl) rfl)
  have h := h.step (i := .second) (.commit rfl)
  have hserial := writers_serialisable hempty h
  exact ⟨_, h, rfl, rfl, rfl, rfl, hserial.2.2.1, hserial.1 "c"⟩

end Reachable

end ContextProxy
