import ContextProxy.Conversation.Canonical
import ContextProxy.Store.Constraints
import Mathlib.Data.List.Dedup
import Mathlib.Data.List.Sort

/-!
# What a conflict reports

Both store classes raise `HistoryDivergenceError` on a conflict, which computes its diagnostics from the two messages at the reported position. A conflict always has a first position where the messages are not equivalent and so differ in some field. `PostgresConversationStore` reports it. `ProjectionAwareConversationStore`, which production uses, reports the length of the shorter history, where one message is missing and there is nothing to compute.
-/

namespace ContextProxy

open Json
open List hiding get

/-! ### The exception -/

/-- Whether `persisted.get(key, _MISSING) != incoming.get(key, _MISSING)`. -/
def fieldDiffers (persisted incoming : Message) (key : String) : Bool :=
  match persisted.lookup key, incoming.lookup key with
  | none, none => false
  | some a, some b => !pyEq a b
  | _, _ => true

def differingFields (persisted incoming : Message) : List String :=
  (((persisted ++ incoming).map Prod.fst).dedup.filter (fieldDiffers persisted incoming)).insertionSort (· ≤ ·)

/-- The attributes of a `HistoryDivergenceError`, and its text. -/
structure DivergenceReport where
  conversation : ConversationId
  index : ℕ
  persistedHash : Option String := none
  incomingHash : Option String := none
  differentFields : List String := []
  text : String
  deriving DecidableEq

def divergenceText (conversation : ConversationId) (index : ℕ) (suffix : String) : String :=
  "conversation " ++ conversation ++ ": incoming message " ++ toString index ++ " diverges from persisted history" ++ suffix

/-- `HistoryDivergenceError.__init__`: the diagnostics need both messages, and there is no exception if one of them cannot be fingerprinted. -/
def divergenceReport (rt : Runtime) (conversation : ConversationId) (index : ℕ) : Option Message → Option Message →
    Option DivergenceReport
  | some persisted, some incoming => do
      let persistedHash ← messageFingerprint rt persisted
      let incomingHash ← messageFingerprint rt incoming
      let differentFields := differingFields persisted incoming
      return {
        conversation, index, persistedHash := some persistedHash, incomingHash := some incomingHash, differentFields
        text := divergenceText conversation index (" [persisted_sha256=" ++ persistedHash ++ " incoming_sha256=" ++
          incomingHash ++ " different_fields=" ++ rt.str (.arr (differentFields.map .str)) ++ "]") }
  | _, _ => some { conversation, index, text := divergenceText conversation index "" }

def StoreError.report (rt : Runtime) : StoreError → Option DivergenceReport
  | .historyDivergence conversation index persisted incoming =>
    divergenceReport rt conversation index persisted incoming
  | _ => none

/-! ### Messages that differ in no field -/

theorem mem_differingFields {persisted incoming : Message} {key : String} :
    key ∈ differingFields persisted incoming ↔ fieldDiffers persisted incoming key = true := by
  rw [differingFields, mem_insertionSort, mem_filter, mem_dedup]
  constructor
  · exact fun h => h.2
  · intro h
    refine ⟨?_, h⟩
    by_contra hkey
    rw [map_append, mem_append, not_or] at hkey
    have hmissing : ∀ fields : Message, key ∉ fields.map Prod.fst → fields.lookup key = none := by
      intro fields hfields
      rw [lookup_eq_none_iff]
      intro field hfield
      exact bne_iff_ne.mpr fun heq => hfields (heq ▸ mem_map_of_mem hfield)
    rw [fieldDiffers, hmissing _ hkey.1, hmissing _ hkey.2] at h
    cases h

variable {a b : Message}

theorem normal_lookup_of_not_differs {key : String} (h : fieldDiffers a b key = false) :
    (a.lookup key).map normal = (b.lookup key).map normal := by
  rw [fieldDiffers] at h
  cases ha : a.lookup key with
  | none =>
    cases hb : b.lookup key with
    | none => rfl
    | some y =>
      rw [ha, hb] at h
      cases h
  | some x =>
    cases hb : b.lookup key with
    | none =>
      rw [ha, hb] at h
      cases h
    | some y =>
      rw [ha, hb] at h
      simp only [Bool.not_eq_false'] at h
      exact congrArg some (pyEq_iff.mp h)

theorem textParts_normalItems (parts : List Json) : textParts (normalItems parts) = textParts parts := by
  induction parts with
  | nil => rfl
  | cons part parts ih =>
    cases part with
    | obj fields =>
      simp only [normalItems, normal, textParts, ← normal_get]
      cases get fields "type" <;> cases get fields "text" <;> simp [normal, ih]
    | null | bool | int | float | str | arr => rfl

theorem textContent_normal (value : Json) : textContent (normal value) = textContent value := by
  cases value with
  | arr parts => exact textParts_normalItems parts
  | null | bool | int | float | str | obj => rfl

theorem normal_canonicalContent (content : Json) : normal (canonicalContent content) = canonicalContent (normal content) := by
  rw [canonicalContent, canonicalContent, textContent_normal]
  cases textContent content with
  | none => rfl
  | some text => rfl

theorem equivalent_of_differingFields (h : differingFields a b = []) : equivalent a b = true := by
  have hlookup : ∀ key, (a.lookup key).map normal = (b.lookup key).map normal := by
    intro key
    refine normal_lookup_of_not_differs (Bool.eq_false_iff.mpr fun hdiffers => ?_)
    have hmem := mem_differingFields.mpr hdiffers
    rw [h] at hmem
    exact not_mem_nil hmem
  have hcontent : normal ∘ canonicalContent = canonicalContent ∘ normal := funext normal_canonicalContent
  refine equivalent_iff.mpr (.inl (pyEq_obj fun key => ?_))
  rw [lookup_canonicalMessage, lookup_canonicalMessage]
  split
  · rfl
  · split
    · rw [Option.map_map, Option.map_map, hcontent, ← Option.map_map, ← Option.map_map, hlookup "content"]
    · exact hlookup key

/-! ### Where a conflict is -/

/-- The first position at which the histories have messages that are not equivalent. -/
def IsFirstDivergence (persisted incoming : List Message) (index : ℕ) : Prop :=
  (∃ a ∈ persisted[index]?, ∃ b ∈ incoming[index]?, equivalent a b = false) ∧
    ∀ j < index, ∀ a ∈ persisted[j]?, ∀ b ∈ incoming[j]?, equivalent a b = true

theorem Agree.getElem? {as bs : List Message} (h : Agree equivalent as bs) {j : ℕ} (ha : as[j]? = some a)
    (hb : bs[j]? = some b) : equivalent a b = true := by
  induction h generalizing j with
  | nil => cases ha
  | cons hab _ ih =>
    cases j with
    | zero =>
      obtain rfl := Option.some.inj ha
      obtain rfl := Option.some.inj hb
      exact hab
    | succ j => exact ih ha hb

variable {incoming persisted : List Message}

/-- A conflict is a pair of messages that are not equivalent, behind a common front. -/
theorem exists_divergence (h : (reconcileProjection persisted incoming).mode = .conflict) :
    ∃ front a rest front' b rest', persisted = front ++ a :: rest ∧ incoming = front' ++ b :: rest' ∧
      Agree equivalent front front' ∧ equivalent a b = false := by
  obtain ⟨front, rest, front', rest', rfl, rfl, hfront, hdiffer⟩ := exists_commonPrefix equivalent persisted incoming
  cases rest' with
  | nil =>
    rw [append_nil] at h
    by_cases hnil : front' = []
    · subst hnil
      simp [reconcileProjection] at h
    · rw [reconcile_of_front rest hnil hfront] at h
      split at h <;> cases h
  | cons b rest' =>
    cases rest with
    | nil =>
      rw [append_nil, reconcile_of_extension (cons_ne_nil b rest') hfront] at h
      cases h
    | cons a rest => exact ⟨front, a, rest, front', b, rest', rfl, rfl, hfront, hdiffer a rfl b rfl⟩

theorem isFirstDivergence_of_conflict (h : (reconcileProjection persisted incoming).mode = .conflict) :
    IsFirstDivergence persisted incoming (firstDivergence persisted incoming) := by
  obtain ⟨front, a, rest, front', b, rest', rfl, rfl, hfront, hdiffer⟩ := exists_divergence h
  have hheads : HeadsDiffer equivalent (a :: rest) (b :: rest') := by simpa [HeadsDiffer] using hdiffer
  rw [firstDivergence, prefixLen, agreeLen_of_cut hfront hheads]
  have hlen := hfront.length_eq
  constructor
  · refine ⟨a, ?_, b, ?_, hdiffer⟩
    · simp
    · simp [hlen]
  · intro j hj x hx y hy
    rw [getElem?_append_left hj] at hx
    rw [getElem?_append_left (hlen ▸ hj)] at hy
    exact hfront.getElem? hx hy

theorem not_isFirstDivergence_shorterLength (persisted incoming : List Message) :
    ¬IsFirstDivergence persisted incoming (shorterLength persisted incoming) := by
  intro ⟨⟨a, ha, b, hb, _⟩, _⟩
  have ha := (List.getElem?_eq_some_iff.mp ha).1
  have hb := (List.getElem?_eq_some_iff.mp hb).1
  rw [shorterLength] at ha hb
  omega

/-! ### What the two classes report -/

/-- The report names the first divergence, and has everything an operator needs to tell the messages apart. -/
def DivergenceReport.PointsAt (report : DivergenceReport) (persisted incoming : List Message) : Prop :=
  IsFirstDivergence persisted incoming report.index ∧ report.persistedHash.isSome = true ∧
    report.incomingHash.isSome = true ∧ report.differentFields ≠ []

/-- The call raises a `HistoryDivergenceError` that points at the divergence of the stored log and the request. -/
def Call.PointsAtDivergence (rt : Runtime) (call : Call) (rows : Rows) (messages : List Message) : Prop :=
  ∃ error report, storeTables.run (call.prog rt) rows = .error error ∧ error.report rt = some report ∧
    report.PointsAt rows.log messages

theorem report_index {rt : Runtime} {c : ConversationId} {index : ℕ} {a b : Option Message} {report : DivergenceReport}
    (h : divergenceReport rt c index a b = some report) : report.index = index := by
  cases a with
  | none => exact congrArg _ (Option.some.inj h).symm
  | some a =>
    cases b with
    | none => exact congrArg _ (Option.some.inj h).symm
    | some b =>
      obtain ⟨_, -, h⟩ := Option.bind_eq_some_iff.mp h
      obtain ⟨_, -, h⟩ := Option.bind_eq_some_iff.mp h
      exact congrArg _ (Option.some.inj h).symm

/-- `PostgresConversationStore` points at the divergence if it can fingerprint the two messages there, and otherwise raises an encoding error. -/
theorem pointsAtDivergence_postgres (rt : Runtime) (c : ConversationId) {messages : List Message}
    (metadata : Option Fields) (draws : Draws) {rows : Rows}
    (h : (reconcileProjection rows.log messages).mode = .conflict) :
    ∃ a b, rows.log[firstDivergence rows.log messages]? = some a ∧ messages[firstDivergence rows.log messages]? = some b ∧
      if (messageFingerprint rt a).isSome && (messageFingerprint rt b).isSome then
        (Call.reconcileHistory c messages metadata draws).PointsAtDivergence rt rows messages
      else
        storeTables.run ((Call.reconcileHistory c messages metadata draws).prog rt) rows = .error .pythonError := by
  obtain ⟨⟨a, ha, b, hb, hdiffer⟩, -⟩ := isFirstDivergence_of_conflict h
  have ha : rows.log[firstDivergence rows.log messages]? = some a := ha
  have hb : messages[firstDivergence rows.log messages]? = some b := hb
  have hrun := run_reconcileHistory_of_conflict firstDivergence rt draws c metadata h
  rw [ha, hb, raisedDivergence] at hrun
  refine ⟨a, b, ha, hb, ?_⟩
  split
  · rename_i hsome
    rw [if_pos hsome] at hrun
    obtain ⟨⟨p, hp⟩, q, hq⟩ : (∃ p, messageFingerprint rt a = some p) ∧ ∃ q, messageFingerprint rt b = some q := by
      simpa only [Bool.and_eq_true, Option.isSome_iff_exists] using hsome
    refine ⟨_, _, hrun, Option.bind_eq_some_iff.mpr ⟨p, hp, Option.bind_eq_some_iff.mpr ⟨q, hq, rfl⟩⟩,
      isFirstDivergence_of_conflict h, rfl, rfl, fun hnil => ?_⟩
    rw [equivalent_of_differingFields hnil] at hdiffer
    cases hdiffer
  · rename_i hnone
    rw [if_neg hnone] at hrun
    exact hrun

/-- A rewritten first message. -/
theorem pointsAtDivergence_postgres_rewrite :
    (Call.reconcileHistory "c" [textMessage "user" "B"] none ⟨0, fun _ => 0, fun _ _ => 0⟩).PointsAtDivergence plainRuntime
      (rowsOfLog plainRuntime [textMessage "user" "A"]) [textMessage "user" "B"] := by
  have hconflict : (reconcileProjection (rowsOfLog plainRuntime [textMessage "user" "A"]).log
      [textMessage "user" "B"]).mode = .conflict := by
    rw [log_rowsOfLog]
    decide
  obtain ⟨a, b, -, -, hpoints⟩ := pointsAtDivergence_postgres plainRuntime "c" none ⟨0, fun _ => 0, fun _ _ => 0⟩ hconflict
  have hhashed : ((messageFingerprint plainRuntime a).isSome && (messageFingerprint plainRuntime b).isSome) = true := rfl
  rwa [if_pos hhashed] at hpoints

/-- `ProjectionAwareConversationStore` never does: it reports a position behind the divergence. -/
theorem not_pointsAtDivergence_projectionAware (rt : Runtime) (c : ConversationId) {messages : List Message}
    (metadata : Option Fields) (draws : Draws) {rows : Rows}
    (h : (reconcileProjection rows.log messages).mode = .conflict) :
    ¬(Call.reconcileProjectionAware c messages metadata draws).PointsAtDivergence rt rows messages := by
  intro ⟨error, report, hrun, hreport, hpoints, _⟩
  have hraised := run_reconcileHistory_of_conflict shorterLength rt draws c metadata h
  rw [raisedDivergence_shorterLength] at hraised
  obtain rfl := Except.error.inj (hrun.symm.trans hraised)
  rw [report_index hreport] at hpoints
  exact not_isFirstDivergence_shorterLength rows.log messages hpoints

/-- The contract both classes are meant to share: a conflict is reported where it is, and anything else is appended alike. -/
def ReconciledAlike (rt : Runtime) (c : ConversationId) (messages : List Message) (metadata : Option Fields) (draws : Draws)
    (rows : Rows) : Prop :=
  if (reconcileProjection rows.log messages).mode = .conflict then
    (Call.reconcileHistory c messages metadata draws).PointsAtDivergence rt rows messages ∧
      (Call.reconcileProjectionAware c messages metadata draws).PointsAtDivergence rt rows messages
  else
    storeTables.run ((Call.reconcileHistory c messages metadata draws).prog rt) rows =
      storeTables.run ((Call.reconcileProjectionAware c messages metadata draws).prog rt) rows

/-- The two classes keep the contract exactly on the requests that are no conflict. -/
theorem reconciledAlike_iff (rt : Runtime) (c : ConversationId) (messages : List Message) (metadata : Option Fields)
    (draws : Draws) (rows : Rows) :
    ReconciledAlike rt c messages metadata draws rows ↔ (reconcileProjection rows.log messages).mode ≠ .conflict := by
  rw [ReconciledAlike]
  split
  · rename_i hconflict
    refine ⟨fun halike => ?_, fun hmode => absurd hconflict hmode⟩
    exact absurd halike.2 (not_pointsAtDivergence_projectionAware rt c metadata draws hconflict)
  · rename_i hmode
    refine ⟨fun _ => hmode, fun _ => ?_⟩
    -- the programs differ in the exception alone, which an accepted request does not reach
    simp only [Call.prog, run_reconcileHistory, insertReconciled, if_neg hmode]

/-- A rewritten first message is reported as a divergence at the second position, without diagnostics. -/
theorem projectionAware_report_of_rewrite :
    let rows := rowsOfLog plainRuntime [textMessage "user" "A"]
    let call := Call.reconcileProjectionAware "c" [textMessage "user" "B"] none ⟨0, fun _ => 0, fun _ _ => 0⟩
    (∃ error, storeTables.run (call.prog plainRuntime) rows = .error error ∧
      error.report plainRuntime = some { conversation := "c", index := 1, text := divergenceText "c" 1 "" }) ∧
    ¬call.PointsAtDivergence plainRuntime rows [textMessage "user" "B"] := by
  have hconflict : (reconcileProjection (rowsOfLog plainRuntime [textMessage "user" "A"]).log
      [textMessage "user" "B"]).mode = .conflict := by
    rw [log_rowsOfLog]
    decide
  refine ⟨⟨_, run_reconcileHistory_of_conflict shorterLength plainRuntime _ "c" none hconflict, ?_⟩,
    not_pointsAtDivergence_projectionAware plainRuntime "c" none _ hconflict⟩
  rw [log_rowsOfLog]
  rfl

end ContextProxy
