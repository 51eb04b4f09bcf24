import ContextProxy.Conversation.Accepted
import ContextProxy.Store.Serial

/-!
# Competing continuations

Requests that were sent the same history and answered differently. Each reconciles the history, and later the history with its answer. The first answer to commit closes the conversation for the others: the history is still accepted, every rival answer is a conflict. `keptLog` says what the log is for any order of commits, and a call that fails is judged at the world it failed in.
-/

namespace ContextProxy

/-! ### Which reconciliations raise a conflict -/

variable {error : StoreError}

theorem textParam_isDivergence {value : Json} (h : textParam value = .error error) : error.isDivergence = false := by
  cases value <;> cases h <;> rfl

theorem notNull_isDivergence {value : Option String} (h : notNull value = .error error) : error.isDivergence = false := by
  cases value <;> cases h
  rfl

theorem execQuery_isDivergence {q : Query} {rows : Rows} (h : execQuery q rows = .error error) :
    error.isDivergence = false := by
  cases q with
  | ensureConversation | lockConversation | fetchMessages | maxSeq => cases h
  | insertMessage id seq role content metadata =>
    rcases bind_eq_error.mp h with h | ⟨_, -, h⟩
    · exact textParam_isDivergence h
    rcases bind_eq_error.mp h with h | ⟨_, -, h⟩
    · exact notNull_isDivergence h
    split_ifs at h <;> (cases h; rfl)
  | insertToolCall id messageId toolCallId callType name arguments input extra createdAt =>
    rcases bind_eq_error.mp h with h | ⟨_, -, h⟩
    · exact textParam_isDivergence h
    rcases bind_eq_error.mp h with h | ⟨_, -, h⟩
    · exact textParam_isDivergence h
    rcases bind_eq_error.mp h with h | ⟨_, -, h⟩
    · exact notNull_isDivergence h
    rcases bind_eq_error.mp h with h | ⟨_, -, h⟩
    · exact notNull_isDivergence h
    split_ifs at h
    cases h
    rfl
  | findToolCall toolCallId =>
    rcases bind_eq_error.mp h with h | ⟨_, -, h⟩
    · exact textParam_isDivergence h
    · cases h
  | insertToolResult messageId toolCallRef toolCallId content =>
    rcases bind_eq_error.mp h with h | ⟨_, -, h⟩
    · exact textParam_isDivergence h
    rcases bind_eq_error.mp h with h | ⟨_, -, h⟩
    · exact notNull_isDivergence h
    split_ifs at h
    cases h
    rfl
  | insertMedia row =>
    simp only [execQuery] at h
    split_ifs at h

theorem isDivergence_of_accepted (rt : Runtime) (draws : Draws) (c : ConversationId) (messages : List Message)
    (metadata : Option Fields) {rows : Rows} (hrows : Contiguous rows.messages)
    (haccept : (reconcileProjection rows.log messages).mode ≠ .conflict)
    (hrun : storeTables.run (Call.prog rt (.reconcileProjectionAware c messages metadata draws)) rows = .error error) :
    error.isDivergence = false := by
  have hfails : ∀ persisted, (reconcileProjection persisted messages).mode ≠ .conflict →
      (insertReconciled shorterLength rt draws c messages metadata persisted).Emits (fun _ => True)
        fun error => error = .pythonError := fun persisted hmode =>
    emits_insertReconciled (fun m _ row => (projects_persistToolParts rt draws row m).mono (fun _ _ => trivial) fun _ => id)
      (fun _ _ => .inr rfl) _ _ _ fun hconflict => absurd hconflict hmode
  have hstmt : ∀ q : Query, True → ∀ (rows : Rows) (error : StoreError), storeTables.exec q rows = .error error →
      error.isDivergence = false := fun q _ rows error => execQuery_isDivergence
  have hperform : ∀ q : Query, storeTables.FailsOnly (fun s => s.messages = rows.messages) (perform q)
      fun error => error.isDivergence = false := by
    intro q
    have hemits : (perform q).Emits (fun _ => True) fun _ => False := emits_perform trivial
    exact .of_emits hemits hstmt fun error herror => herror.elim
  rw [hrows.log] at haccept
  refine Tables.FailsOnly.bind (hperform .ensureConversation) (keepsMessages_perform rfl _) (fun _ => ?_) rows rfl
    error hrun
  refine Tables.FailsOnly.bind (hperform .lockConversation) (keepsMessages_perform rfl _) fun _ => ?_
  refine Tables.FailsOnly.bind (.send fun s _ e => hstmt _ trivial s e) (ensures_fetchMessages hrows) fun persisted => ?_
  have hinsert : persisted = rows.messages.map (·.content) → storeTables.FailsOnly (fun _ => True)
      (insertReconciled shorterLength rt draws c messages metadata persisted) fun error => error.isDivergence = false :=
    fun hpersisted => .of_emits (hfails _ (hpersisted ▸ haccept)) hstmt fun error herror => herror ▸ rfl
  exact fun s hs => hinsert hs.1 s trivial

/-! ### The requests -/

/-- The two reconciliations of a request: of the history it was sent, and later of that with its answer. -/
inductive Phase (ι : Type) where
  | inbound (request : ι)
  | answer (request : ι)
  deriving DecidableEq

variable {ι : Type}

/-- What a reconciliation sends: the shared history, and behind it the answer once there is one. -/
def Phase.messages (base : List Message) (answers : ι → Message) : Phase ι → List Message
  | .inbound _ => base
  | .answer i => base ++ [answers i]

/-- Requests that continue one history, each with an answer of its own. -/
def continuations (c : ConversationId) (base : List Message) (answers : ι → Message) (metadata : Phase ι → Option Fields)
    (draws : Phase ι → Draws) (x : Phase ι) : Call :=
  .reconcileProjectionAware c (x.messages base answers) (metadata x) (draws x)

def firstAnswer (history : List (Phase ι)) : Option ι :=
  history.findSome? fun
    | .inbound _ => none
    | .answer i => some i

def keptLog (log rest : List Message) (answers : ι → Message) (history : List (Phase ι)) : List Message :=
  if history = [] then log else log ++ rest ++ (firstAnswer history).toList.map answers

theorem firstAnswer_concat (history : List (Phase ι)) (x : Phase ι) :
    firstAnswer (history ++ [x]) = (firstAnswer history).or (firstAnswer [x]) := List.findSome?_append

theorem firstAnswer_append_of_some {history : List (Phase ι)} {k : ι} (h : firstAnswer history = some k)
    (after : List (Phase ι)) : firstAnswer (history ++ after) = some k := by
  rw [firstAnswer, List.findSome?_append]
  exact (congrArg (Option.or · _) h).trans rfl

theorem mem_of_firstAnswer {history : List (Phase ι)} {k : ι} (h : firstAnswer history = some k) :
    .answer k ∈ history := by
  obtain ⟨x, hx, hk⟩ := List.exists_of_findSome?_eq_some h
  cases x with
  | inbound i => cases hk
  | answer i =>
    cases hk
    exact hx

section Kept

variable {log front rest : List Message} {answers : ι → Message} {history : List (Phase ι)}

theorem keptLog_of_ne_nil (h : history ≠ []) :
    keptLog log rest answers history = log ++ rest ++ (firstAnswer history).toList.map answers := if_neg h

theorem keptLog_of_first {k : ι} (h : firstAnswer history = some k) :
    keptLog log rest answers history = log ++ rest ++ [answers k] := by
  rw [keptLog_of_ne_nil (List.ne_nil_of_mem (mem_of_firstAnswer h)), h]
  rfl

variable (hlog : Agree equivalent log front)

include hlog

/-- The history is accepted whatever has committed before: before anything it completes the log, later it adds nothing. -/
theorem appends_inbound (hbase : front ++ rest ≠ []) (history : List (Phase ι)) :
    Appends (keptLog log rest answers history) (front ++ rest) (if history = [] then rest else []) := by
  by_cases hnil : history = []
  · subst hnil
    exact appends_of_agree hlog rest
  · rw [keptLog_of_ne_nil hnil, if_neg hnil]
    exact appends_of_front _ hbase (hlog.append (agree_refl rest))

theorem appends_answer (hopen : firstAnswer history = none) (i : ι) :
    Appends (keptLog log rest answers history) (front ++ rest ++ [answers i])
      (if history = [] then rest ++ [answers i] else [answers i]) := by
  by_cases hnil : history = []
  · subst hnil
    rw [List.append_assoc]
    exact appends_of_agree hlog (rest ++ [answers i])
  · rw [keptLog_of_ne_nil hnil, if_neg hnil, hopen]
    simpa using appends_of_agree (hlog.append (agree_refl rest)) [answers i]

/-- Behind another answer, an answer has no anchor: the histories agree up to the two answers, and these differ. -/
theorem conflict_of_rival {k i : ι} (hfirst : firstAnswer history = some k)
    (hrival : equivalent (answers k) (answers i) = false) :
    reconcileProjection (keptLog log rest answers history) (front ++ rest ++ [answers i]) = { mode := .conflict } := by
  rw [keptLog_of_first hfirst]
  exact NoAnchor.reconcile_eq {
    front := log ++ rest
    rest := [answers k]
    front' := front ++ rest
    rest' := [answers i]
    front_agree := hlog.append (agree_refl rest)
    heads_differ := by simp [HeadsDiffer, hrival]
    rest_ne_nil := by simp
    rest'_ne_nil := by simp
    unmatched := by simp [LastsDiffer, hrival] }

theorem applied_keptLog (hbase : front ++ rest ≠ [])
    (hrivals : ∀ i j, i ≠ j → equivalent (answers i) (answers j) = false) (history : List (Phase ι)) (x : Phase ι) :
    applied (keptLog log rest answers history) (x.messages (front ++ rest) answers)
      = keptLog log rest answers (history ++ [x]) := by
  rw [keptLog_of_ne_nil (show history ++ [x] ≠ [] by simp), firstAnswer_concat]
  cases x with
  | inbound i =>
    rw [Phase.messages, (appends_inbound hlog hbase history).applied_eq]
    by_cases hnil : history = []
    · simp [hnil, keptLog, firstAnswer]
    · rw [if_neg hnil, keptLog_of_ne_nil hnil, List.append_nil]
      cases firstAnswer history <;> rfl
  | answer i =>
    rw [Phase.messages]
    cases hfirst : firstAnswer history with
    | none =>
      rw [(appends_answer hlog hfirst i).applied_eq]
      by_cases hnil : history = []
      · simp [hnil, keptLog, firstAnswer]
      · rw [if_neg hnil, keptLog_of_ne_nil hnil, hfirst]
        simp [firstAnswer]
    | some k =>
      by_cases hik : k = i
      · subst hik
        rw [keptLog_of_first hfirst]
        have hagree : Agree equivalent (log ++ rest ++ [answers k]) (front ++ rest ++ [answers k]) :=
          (hlog.append (agree_refl rest)).append (agree_refl _)
        have happends := appends_of_agree hagree []
        rw [List.append_nil] at happends
        rw [happends.applied_eq]
        simp
      · rw [applied, conflict_of_rival hlog hfirst (hrivals k i hik), keptLog_of_first hfirst]
        simp [appendedTail]

/-- What the log becomes does not depend on how the reconciliations are ordered, but for the answer that comes first. -/
theorem appendedLog_continuations (hbase : front ++ rest ≠ [])
    (hrivals : ∀ i j, i ≠ j → equivalent (answers i) (answers j) = false) (c : ConversationId)
    (metadata : Phase ι → Option Fields) (draws : Phase ι → Draws) (history : List (Phase ι)) :
    appendedLog (continuations c (front ++ rest) answers metadata draws) c log history
      = keptLog log rest answers history := by
  induction history using List.reverseRecOn with
  | nil => rfl
  | append_singleton history x ih =>
    rw [appendedLog_concat, ih, ← applied_keptLog hlog hbase hrivals]
    exact if_pos rfl

end Kept

/-! ### Every interleaving -/

section Reachable

variable [DecidableEq ι] {rt : Runtime} {c : ConversationId} {front rest : List Message} {answers : ι → Message}
variable {metadata : Phase ι → Option Fields} {draws : Phase ι → Draws} {db : Db}

def rivals (rt : Runtime) (c : ConversationId) (base : List Message) (answers : ι → Message)
    (metadata : Phase ι → Option Fields) (draws : Phase ι → Draws) :
    System ConversationId Db Rows Write (Phase ι) Answer StoreError (List RowId) :=
  storeSystem rt (continuations c base answers metadata draws)

def Refused (c : ConversationId) (p : Proc Answer StoreError (List RowId) Write) : Prop :=
  ∃ index persisted incoming, p = .aborted (some (.historyDivergence c index persisted incoming))

variable {w : World ConversationId Db (Phase ι) Write Answer StoreError (List RowId)}
variable (hlog : Agree equivalent (db.rows c).log front) (hbase : front ++ rest ≠ [])
variable (hrivals : ∀ i j, i ≠ j → equivalent (answers i) (answers j) = false)
variable (hdb : ∀ c, Contiguous (db.rows c).messages)

include hlog hbase hrivals hdb

section

variable (h : (rivals rt c (front ++ rest) answers metadata draws).Reachable db w)
include h

theorem log_eq_keptLog : (w.store.rows c).log = keptLog (db.rows c).log rest answers w.history := by
  rw [log_eq_appendedLog hdb h, appendedLog_continuations hlog hbase hrivals]

theorem firstAnswer_of_mem {j : ι} (hj : .answer j ∈ w.history) : firstAnswer w.history = some j := by
  induction h generalizing j with
  | refl => simp [System.init] at hj
  | @tail u v hsteps hstep ih =>
    obtain ⟨x, hstep⟩ := hstep
    have hinv := System.inv_of_steps (System.Steps.locked hsteps (locking_storeSystem _ _))
    rcases hstep.effect hinv with ⟨-, hhistory, -⟩ | ⟨result, ws, -, hhistory, hrun, -⟩
    · rw [hhistory] at hj ⊢
      exact ih hj
    rw [hhistory] at hj ⊢
    cases hfirst : firstAnswer u.history with
    | some k =>
      have hmem := mem_of_firstAnswer hfirst
      rw [firstAnswer_append_of_some hfirst]
      rcases List.mem_append.mp hj with hj | hj
      · exact (ih hmem).symm.trans (ih hj) ▸ rfl
      -- the answer that commits now meets a log that the first one has closed
      obtain rfl : .answer j = x := by simpa using hj
      by_contra hne
      have hkj : k ≠ j := fun hkj => hne (congrArg some hkj)
      have hconflict : reconcileProjection (keptLog _ rest answers u.history) (front ++ rest ++ [answers j])
          = { mode := .conflict } := conflict_of_rival hlog hfirst (hrivals k j hkj)
      rw [← log_eq_keptLog hlog hbase hrivals hdb hsteps] at hconflict
      have herror := run_reconcileHistory_of_conflict shorterLength rt (draws (.answer j)) c (metadata (.answer j))
        (congrArg (·.mode) hconflict)
      exact absurd (herror.symm.trans hrun) (by simp)
    | none =>
      have hnone : ∀ i, .answer i ∉ u.history := by
        intro i hi
        rw [ih hi] at hfirst
        cases hfirst
      rcases List.mem_append.mp hj with hj | hj
      · exact absurd hj (hnone j)
      · obtain rfl : .answer j = x := by simpa using hj
        rw [firstAnswer_concat, hfirst]
        rfl

/-- A reconciliation that was refused met a log that a rival answer had closed. -/
theorem rival_of_refused {x : Phase ι} (hx : Refused c (w.proc x)) :
    ∃ i k, x = .answer i ∧ firstAnswer w.history = some k := by
  obtain ⟨index, persisted, incoming, hproc⟩ := hx
  obtain ⟨u, hu, huw, hrun⟩ := System.exists_error_of_aborted (h.locked (locking_storeSystem _ _)) hproc
  have hcontiguous := contiguous_of_steps hdb hu.steps c
  have hkept := log_eq_keptLog hlog hbase hrivals hdb hu.steps
  -- an accepted request would have ended otherwise
  have hconflict : (reconcileProjection (u.store.rows c).log (x.messages (front ++ rest) answers)).mode = .conflict := by
    by_contra haccept
    exact Bool.noConfusion (isDivergence_of_accepted rt (draws x) c _ (metadata x) hcontiguous haccept hrun)
  rw [hkept] at hconflict
  cases x with
  | inbound i => exact absurd hconflict (appends_inbound hlog hbase u.history).1
  | answer i =>
    cases hfirst : firstAnswer u.history with
    | none => exact absurd hconflict (appends_answer hlog hfirst i).1
    | some k =>
      obtain ⟨after, hafter⟩ := System.LockedSteps.history_grows hu huw
      exact ⟨i, k, rfl, by rw [← hafter, firstAnswer_append_of_some hfirst]⟩

end

end Reachable

def twoAnswers : System ConversationId Db Rows Write (Phase Bool) Answer StoreError (List RowId) :=
  rivals plainRuntime "c" [textMessage "user" "A"] (fun first => textMessage "assistant" (if first then "x" else "y"))
    (fun _ => none) fun _ => ⟨0, fun _ => 0, fun _ _ => 0⟩

end ContextProxy
