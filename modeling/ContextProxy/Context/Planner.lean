import ContextProxy.Context.Tokens

/-!
# Interaction units

`segment_messages` groups a history into units that are kept or dropped whole. An instruction is a unit of its own and closes nothing but a prefill; a turn runs from a user message to the next one. The instruction units, flattened, are the instructions of the history in order, and the other units the rest of it (`Segmented`). `separate_current_request` cuts the last interaction off a payload.
-/

namespace ContextProxy

open Json
open List hiding get

inductive UnitKind where
  | system
  | turn
  | prefill
  deriving DecidableEq, Repr

structure InteractionUnit where
  kind : UnitKind
  messages : List Message
  tokens : ℕ

def InteractionUnit.isSystem (unit : InteractionUnit) : Bool := unit.kind = .system

/-- `role in INSTRUCTION_ROLES`, which hashes the role. -/
def instructionRole : Json → Except PyError Bool
  | .str role => .ok (role = "system" || role = "developer")
  | .arr _ | .obj _ => .error .typeError
  | _ => .ok false

/-- Whether the message carries trusted instructions. -/
def isInstruction (message : Message) : Bool :=
  get message "role" = .str "system" || get message "role" = .str "developer"

variable {message : Message} {messages done : List Message} {units : List InteractionUnit}

theorem instructionRole_eq_ok {b : Bool} (h : instructionRole (get message "role") = .ok b) :
    b = isInstruction message := by
  rw [isInstruction]
  cases hrole : get message "role" with
  | str role =>
    rw [hrole, instructionRole, Except.ok.injEq] at h
    simp [← h]
  | arr | obj =>
    rw [hrole, instructionRole] at h
    cases h
  | null | bool | int | float =>
    rw [hrole] at h
    simp [← Except.ok.inj h]

/-! ### Segmentation -/

structure Segmentation where
  units : List InteractionUnit := []
  prefill : List Message := []
  turn : Option (List Message) := none

variable (rt : Runtime)

def Segmentation.emit (st : Segmentation) (kind : UnitKind) (messages : List Message) :
    Except PyError (List InteractionUnit) := do
  let tokens ← messagesTokens rt messages
  return st.units ++ [InteractionUnit.mk kind messages tokens]

def Segmentation.closeTurn (st : Segmentation) : Except PyError Segmentation :=
  match st.turn with
  | some (message :: messages) => do
      let units ← st.emit rt .turn (message :: messages)
      return { st with units, turn := none }
  | _ => return st

def Segmentation.closePrefill (st : Segmentation) : Except PyError Segmentation :=
  if st.prefill = [] then return st
  else do
    let units ← st.emit rt .prefill st.prefill
    return { st with units, prefill := [] }

def segmentStep (st : Segmentation) (message : Message) : Except PyError Segmentation := do
  if ← instructionRole (get message "role") then
    -- an instruction does not close the open turn
    let st ← st.closePrefill rt
    let units ← st.emit rt .system [message]
    return { st with units }
  else if pyEq (get message "role") (.str "user") then
    let st ← st.closeTurn rt
    let st ← st.closePrefill rt
    return { st with turn := some [message] }
  else
    match st.turn with
    | some turn => return { st with turn := some (turn ++ [message]) }
    | none => return { st with prefill := st.prefill ++ [message] }

def segmentMessages (messages : List Message) : Except PyError (List InteractionUnit) := do
  let st ← messages.foldlM (segmentStep rt) {}
  let st ← st.closeTurn rt
  let st ← st.closePrefill rt
  return st.units

variable {rt}

/-- The units and open parts after the given messages were read. -/
structure Segmented (rt : Runtime) (done : List Message) (st : Segmentation) : Prop where
  instructions : (st.units.filter (·.isSystem)).flatMap (·.messages) = done.filter isInstruction
  rest : (st.units.filter (!·.isSystem)).flatMap (·.messages) ++ st.prefill ++ st.turn.getD []
    = done.filter (!isInstruction ·)
  counted : ∀ unit ∈ st.units, messagesTokens rt unit.messages = .ok unit.tokens
  prefill_closed : st.turn ≠ none → st.prefill = []
  turn_started : st.turn ≠ some []
  hashable : ∀ m ∈ done, ∃ b, instructionRole (get m "role") = .ok b

theorem Segmented.nil : Segmented rt [] {} where
  instructions := rfl
  rest := rfl
  counted := by simp
  prefill_closed := by simp
  turn_started := by simp
  hashable := by simp

variable {st : Segmentation}

theorem Segmentation.emit_eq_ok {kind : UnitKind} :
    st.emit rt kind messages = .ok units ↔ ∃ tokens, messagesTokens rt messages = .ok tokens ∧
      st.units ++ [InteractionUnit.mk kind messages tokens] = units := by
  simp only [emit, bind_eq_ok, pure_eq_ok]

theorem Segmented.emit_rest (h : Segmented rt done st) {kind : UnitKind} (hkind : kind ≠ .system)
    (hemit : st.emit rt kind messages = .ok units) :
    (units.filter (·.isSystem)).flatMap (·.messages) = done.filter isInstruction ∧
      (units.filter (!·.isSystem)).flatMap (·.messages)
        = (st.units.filter (!·.isSystem)).flatMap (·.messages) ++ messages ∧
      ∀ unit ∈ units, messagesTokens rt unit.messages = .ok unit.tokens := by
  obtain ⟨tokens, htokens, rfl⟩ := Segmentation.emit_eq_ok.mp hemit
  have hsystem : (InteractionUnit.mk kind messages tokens).isSystem = false := by simp [InteractionUnit.isSystem, hkind]
  refine ⟨?_, ?_, ?_⟩
  · rw [filter_append, filter_singleton, hsystem]
    simpa using h.instructions
  · rw [filter_append, filter_singleton, hsystem]
    simp
  · intro unit hunit
    rcases mem_append.mp hunit with hold | hnew
    · exact h.counted unit hold
    · rw [mem_singleton.mp hnew]
      exact htokens

variable {st' : Segmentation}

section

variable (h : Segmented rt done st)
include h

theorem Segmented.closeTurn (hclose : st.closeTurn rt = .ok st') : Segmented rt done st' ∧ st'.turn = none := by
  rw [Segmentation.closeTurn] at hclose
  split at hclose
  · rename_i message messages hturn
    obtain ⟨units, hemit, hst⟩ := bind_eq_ok.mp hclose
    rw [pure_eq_ok] at hst
    subst hst
    obtain ⟨hinstructions, hrest, hcounted⟩ := h.emit_rest (by simp) hemit
    have hprefill := h.prefill_closed (by simp [hturn])
    have hold := h.rest
    rw [hturn, hprefill] at hold
    refine ⟨⟨hinstructions, ?_, hcounted, by simp, by simp, h.hashable⟩, rfl⟩
    simpa [hrest, hprefill] using hold
  · rename_i hturn
    rw [pure_eq_ok] at hclose
    subst hclose
    refine ⟨h, ?_⟩
    cases hst : st.turn with
    | none => rfl
    | some turn =>
      cases turn with
      | nil => exact absurd hst h.turn_started
      | cons message messages => exact absurd hst (hturn message messages)

theorem Segmented.closePrefill (hclose : st.closePrefill rt = .ok st') :
    Segmented rt done st' ∧ st'.prefill = [] ∧ st'.turn = st.turn := by
  rw [Segmentation.closePrefill] at hclose
  split at hclose
  · rename_i hprefill
    rw [pure_eq_ok] at hclose
    subst hclose
    exact ⟨h, hprefill, rfl⟩
  · rename_i hprefill
    obtain ⟨units, hemit, hst⟩ := bind_eq_ok.mp hclose
    rw [pure_eq_ok] at hst
    subst hst
    obtain ⟨hinstructions, hrest, hcounted⟩ := h.emit_rest (by simp) hemit
    refine ⟨⟨hinstructions, ?_, hcounted, fun _ => rfl, h.turn_started, h.hashable⟩, rfl, rfl⟩
    rw [← h.rest, hrest, append_nil]

theorem Segmented.hashable_concat {b : Bool} (hrole : instructionRole (get message "role") = .ok b) :
    ∀ m ∈ done ++ [message], ∃ b, instructionRole (get m "role") = .ok b := by
  intro m hm
  rcases mem_append.mp hm with hold | hnew
  · exact h.hashable m hold
  · rw [mem_singleton.mp hnew]
    exact ⟨b, hrole⟩

theorem Segmented.instruction (hrole : instructionRole (get message "role") = .ok true)
    (hemit : st.emit rt .system [message] = .ok units) : Segmented rt (done ++ [message]) { st with units } := by
  have hb := instructionRole_eq_ok hrole
  obtain ⟨tokens, htokens, rfl⟩ := Segmentation.emit_eq_ok.mp hemit
  refine ⟨?_, ?_, ?_, h.prefill_closed, h.turn_started, h.hashable_concat hrole⟩
  · simp [filter_append, InteractionUnit.isSystem, ← hb, ← h.instructions]
  · simpa [filter_append, InteractionUnit.isSystem, ← hb] using h.rest
  · intro unit hunit
    rcases mem_append.mp hunit with hold | hnew
    · exact h.counted unit hold
    · rw [mem_singleton.mp hnew]
      exact htokens

theorem Segmented.extend {prefill : List Message} {turn : Option (List Message)}
    (hrole : instructionRole (get message "role") = .ok false)
    (hopen : prefill ++ turn.getD [] = st.prefill ++ st.turn.getD [] ++ [message]) (hprefill : turn ≠ none → prefill = [])
    (hturn : turn ≠ some []) : Segmented rt (done ++ [message]) { st with prefill, turn } := by
  have hb := instructionRole_eq_ok hrole
  have hinstructions : (done ++ [message]).filter isInstruction = done.filter isInstruction := by
    simp [filter_append, ← hb]
  have hrest : (done ++ [message]).filter (!isInstruction ·) = done.filter (!isInstruction ·) ++ [message] := by
    simp [filter_append, ← hb]
  refine ⟨hinstructions ▸ h.instructions, ?_, h.counted, hprefill, hturn, h.hashable_concat hrole⟩
  rw [hrest, ← h.rest, append_assoc, hopen]
  simp only [append_assoc]

theorem Segmented.step (hstep : segmentStep rt st message = .ok st') : Segmented rt (done ++ [message]) st' := by
  obtain ⟨b, hrole, hstep⟩ := bind_eq_ok.mp hstep
  cases b with
  | true =>
    obtain ⟨st₁, hprefill, hstep⟩ := bind_eq_ok.mp hstep
    obtain ⟨units, hemit, hst⟩ := bind_eq_ok.mp hstep
    rw [pure_eq_ok] at hst
    subst hst
    exact (h.closePrefill hprefill).1.instruction hrole hemit
  | false =>
    rw [if_neg (by simp)] at hstep
    split at hstep
    · obtain ⟨st₁, hturn, hstep⟩ := bind_eq_ok.mp hstep
      obtain ⟨st₂, hprefill, hst⟩ := bind_eq_ok.mp hstep
      rw [pure_eq_ok] at hst
      subst hst
      obtain ⟨h₁, hturn₁⟩ := h.closeTurn hturn
      obtain ⟨h₂, hprefill₂, hturn₂⟩ := h₁.closePrefill hprefill
      exact h₂.extend hrole (by simp [hprefill₂, hturn₂, hturn₁]) (fun _ => hprefill₂) (by simp)
    · split at hstep
      · rename_i turn hturn
        rw [pure_eq_ok] at hstep
        subst hstep
        exact h.extend hrole (by simp [hturn]) (fun _ => h.prefill_closed (by simp [hturn])) (by simp)
      · rename_i hturn
        rw [pure_eq_ok] at hstep
        subst hstep
        exact h.extend hrole (by simp [hturn]) (fun hne => absurd hturn hne) h.turn_started

end

/-- What the units of a history are: its instructions one by one, and the rest of it in order, all counted. -/
theorem segmentMessages_spec (h : segmentMessages rt messages = .ok units) :
    (units.filter (·.isSystem)).flatMap (·.messages) = messages.filter isInstruction ∧
      (units.filter (!·.isSystem)).flatMap (·.messages) = messages.filter (!isInstruction ·) ∧
      (∀ unit ∈ units, messagesTokens rt unit.messages = .ok unit.tokens) ∧
      ∀ m ∈ messages, ∃ b, instructionRole (get m "role") = .ok b := by
  obtain ⟨st, hloop, h⟩ := bind_eq_ok.mp h
  obtain ⟨st₁, hturn, h⟩ := bind_eq_ok.mp h
  obtain ⟨st₂, hprefill, h⟩ := bind_eq_ok.mp h
  rw [pure_eq_ok] at h
  subst h
  have hst := foldlM_invariant (Segmented rt) Segmented.nil (fun _ _ _ _ hinv hstep => hinv.step hstep) hloop
  obtain ⟨h₁, hturn₁⟩ := hst.closeTurn hturn
  obtain ⟨h₂, hprefill₂, hturn₂⟩ := h₁.closePrefill hprefill
  refine ⟨h₂.instructions, ?_, h₂.counted, h₂.hashable⟩
  have hrest := h₂.rest
  rwa [hprefill₂, hturn₂, hturn₁, Option.getD_none, append_nil, append_nil] at hrest

variable {unit : InteractionUnit}

/-- A unit is of one sort: all its messages are instructions, or none of them is. -/
theorem isInstruction_of_mem_unit (h : segmentMessages rt messages = .ok units) (hunit : unit ∈ units) {m : Message}
    (hm : m ∈ unit.messages) : isInstruction m = unit.isSystem := by
  obtain ⟨hinstructions, hrest, -, -⟩ := segmentMessages_spec h
  cases hsystem : unit.isSystem with
  | true =>
    have hmem : m ∈ messages.filter isInstruction := by
      rw [← hinstructions]
      exact mem_flatMap.mpr ⟨unit, mem_filter.mpr ⟨hunit, hsystem⟩, hm⟩
    exact (mem_filter.mp hmem).2
  | false =>
    have hmem : m ∈ messages.filter (!isInstruction ·) := by
      rw [← hrest]
      exact mem_flatMap.mpr ⟨unit, mem_filter.mpr ⟨hunit, by rw [hsystem]; rfl⟩, hm⟩
    simpa using (mem_filter.mp hmem).2

theorem exists_unit_iff (h : segmentMessages rt messages = .ok units) {m : Message} :
    (∃ unit ∈ units, m ∈ unit.messages) ↔ m ∈ messages := by
  obtain ⟨hinstructions, hrest, -, -⟩ := segmentMessages_spec h
  have hinstruction : (∃ unit ∈ units, unit.isSystem ∧ m ∈ unit.messages) ↔ m ∈ messages ∧ isInstruction m := by
    rw [← mem_filter, ← hinstructions]
    simp [mem_flatMap, and_assoc]
  have hother : (∃ unit ∈ units, unit.isSystem = false ∧ m ∈ unit.messages) ↔ m ∈ messages ∧ isInstruction m = false := by
    rw [← Bool.not_eq_true', ← mem_filter (p := fun m => !isInstruction m), ← hrest]
    simp [mem_flatMap, and_assoc]
  constructor
  · rintro ⟨unit, hunit, hm⟩
    cases hsystem : unit.isSystem with
    | true => exact (hinstruction.mp ⟨unit, hunit, hsystem, hm⟩).1
    | false => exact (hother.mp ⟨unit, hunit, hsystem, hm⟩).1
  · intro hm
    cases hb : isInstruction m with
    | true =>
      obtain ⟨unit, hunit, -, hmu⟩ := hinstruction.mpr ⟨hm, hb⟩
      exact ⟨unit, hunit, hmu⟩
    | false =>
      obtain ⟨unit, hunit, -, hmu⟩ := hother.mpr ⟨hm, hb⟩
      exact ⟨unit, hunit, hmu⟩

theorem mem_units_of_kept {kept : List InteractionUnit}
    (hinstructions : kept.filter (·.isSystem) = units.filter (·.isSystem))
    (hsuffix : kept.filter (!·.isSystem) <:+ units.filter (!·.isSystem)) (h : unit ∈ kept) : unit ∈ units := by
  cases hsystem : unit.isSystem with
  | true => exact (mem_filter.mp (hinstructions ▸ mem_filter.mpr ⟨h, hsystem⟩)).1
  | false => exact (mem_filter.mp (hsuffix.subset (mem_filter.mpr ⟨h, by rw [hsystem]; rfl⟩))).1

theorem filter_flatMap_of_forall {α β : Type} {f : α → List β} {p : β → Bool} {q : α → Bool} {items : List α}
    (h : ∀ a ∈ items, ∀ b ∈ f a, p b = q a) : (items.flatMap f).filter p = (items.filter q).flatMap f := by
  induction items with
  | nil => rfl
  | cons a items ih =>
    rw [forall_mem_cons] at h
    rw [flatMap_cons, filter_append, ih h.2]
    cases hq : q a with
    | true =>
      rw [filter_cons_of_pos hq, flatMap_cons, filter_eq_self.mpr fun b hb => (h.1 b hb).trans hq]
    | false =>
      have hnone : (f a).filter p = [] := filter_eq_nil_iff.mpr fun b hb => by simp [h.1 b hb, hq]
      rw [filter_cons_of_neg (by simp [hq]), hnone, nil_append]

/-! ### When segmentation does not raise -/

/-- The loop can read the message: its role is hashable and its tokens can be counted. -/
def Segmentable (rt : Runtime) (message : Message) : Prop :=
  (∃ b, instructionRole (get message "role") = .ok b) ∧ Readable rt message

def Segmentation.Open (rt : Runtime) (st : Segmentation) : Prop :=
  (∀ m ∈ st.prefill, Readable rt m) ∧ ∀ m ∈ st.turn.getD [], Readable rt m

theorem Segmentation.exists_emit (st : Segmentation) (kind : UnitKind) (h : ∀ m ∈ messages, Readable rt m) :
    ∃ units, st.emit rt kind messages = .ok units :=
  ⟨_, emit_eq_ok.mpr ⟨_, messagesTokens_eq_ok.mpr ⟨h, rfl⟩, rfl⟩⟩

theorem Segmentation.exists_closeTurn (h : st.Open rt) : ∃ st', st.closeTurn rt = .ok st' ∧ st'.Open rt := by
  rw [closeTurn]
  split
  · rename_i message messages hturn
    have hreadable := h.2
    rw [hturn, Option.getD_some] at hreadable
    obtain ⟨units, hunits⟩ := st.exists_emit .turn hreadable
    exact ⟨_, bind_eq_ok.mpr ⟨units, hunits, rfl⟩, h.1, by simp⟩
  · exact ⟨st, rfl, h⟩

theorem Segmentation.exists_closePrefill (h : st.Open rt) : ∃ st', st.closePrefill rt = .ok st' ∧ st'.Open rt := by
  rw [closePrefill]
  split
  · exact ⟨st, rfl, h⟩
  · obtain ⟨units, hunits⟩ := st.exists_emit .prefill h.1
    exact ⟨_, bind_eq_ok.mpr ⟨units, hunits, rfl⟩, by simp, h.2⟩

theorem Segmentation.exists_step (h : st.Open rt) (hm : Segmentable rt message) :
    ∃ st', segmentStep rt st message = .ok st' ∧ st'.Open rt := by
  obtain ⟨⟨b, hrole⟩, hreadable⟩ := hm
  simp only [segmentStep, bind_eq_ok, hrole, Except.ok.injEq, exists_eq_left']
  cases b with
  | true =>
    obtain ⟨st₁, hst₁, hopen₁⟩ := exists_closePrefill h
    obtain ⟨units, hunits⟩ := st₁.exists_emit .system (by simpa using hreadable : ∀ m ∈ [message], Readable rt m)
    refine ⟨{ st₁ with units }, ?_, hopen₁⟩
    rw [if_pos rfl]
    exact bind_eq_ok.mpr ⟨st₁, hst₁, bind_eq_ok.mpr ⟨units, hunits, rfl⟩⟩
  | false =>
    rw [if_neg (by simp)]
    split
    · obtain ⟨st₁, hst₁, hopen₁⟩ := exists_closeTurn h
      obtain ⟨st₂, hst₂, hopen₂⟩ := exists_closePrefill hopen₁
      refine ⟨{ st₂ with turn := some [message] }, ?_, hopen₂.1, by simpa using hreadable⟩
      exact bind_eq_ok.mpr ⟨st₁, hst₁, bind_eq_ok.mpr ⟨st₂, hst₂, rfl⟩⟩
    · split
      · rename_i turn hturn
        refine ⟨{ st with turn := some (turn ++ [message]) }, rfl, h.1, ?_⟩
        have hold := h.2
        rw [hturn, Option.getD_some] at hold
        simpa [or_imp, forall_and, hreadable] using hold
      · refine ⟨{ st with prefill := st.prefill ++ [message] }, rfl, ?_, h.2⟩
        simpa [or_imp, forall_and, hreadable] using h.1

/-- Segmentation raises exactly when a message cannot be read. -/
theorem exists_segmentMessages :
    (∃ units, segmentMessages rt messages = .ok units) ↔ ∀ m ∈ messages, Segmentable rt m := by
  constructor
  · rintro ⟨units, h⟩ m hm
    obtain ⟨-, -, hcounted, hroles⟩ := segmentMessages_spec h
    -- the message is in some unit, and every unit is counted
    obtain ⟨unit, hunit, hmu⟩ := (exists_unit_iff h).mpr hm
    refine ⟨hroles m hm, ?_⟩
    exact (messagesTokens_eq_ok.mp (hcounted unit hunit)).1 m hmu
  · intro h
    obtain ⟨st, hloop, hopen⟩ := exists_foldlM_eq_ok (Segmentation.Open rt)
      (fun st hst m hm => Segmentation.exists_step hst (h m hm)) (show ({} : Segmentation).Open rt by simp [Segmentation.Open])
    obtain ⟨st₁, hst₁, hopen₁⟩ := Segmentation.exists_closeTurn hopen
    obtain ⟨st₂, hst₂, -⟩ := Segmentation.exists_closePrefill hopen₁
    exact ⟨st₂.units, bind_eq_ok.mpr ⟨st, hloop, bind_eq_ok.mpr ⟨st₁, hst₁, bind_eq_ok.mpr ⟨st₂, hst₂, rfl⟩⟩⟩⟩

/-! ### The current request -/

def lastUserIndex (messages : List Message) : Option ℕ :=
  (List.range messages.length).reverse.find? fun index =>
    match messages[index]? with
    | some message => pyEq (get message "role") (.str "user")
    | none => false

/-- The `while` loop: step back over trailing instructions, not past the last user message. -/
def requestEnd (messages : List Message) (lastUser : ℕ) : ℕ → Except PyError ℕ
  | 0 => return 0
  | before + 1 =>
    if lastUser < before then do
      if ← instructionRole (get (messages[before]?.getD []) "role") then requestEnd messages lastUser before
      else return before + 1
    else return before + 1

def separateCurrentRequest (messages : List Message) : Except PyError (List Message × List Message) :=
  match lastUserIndex messages with
  | none => return (messages, [])
  | some lastUser => do
      let stop ← requestEnd messages lastUser messages.length
      return (messages.take lastUser ++ messages.drop stop, (messages.take stop).drop lastUser)

theorem requestEnd_le {lastUser n stop : ℕ} (hn : lastUser < n) (h : requestEnd messages lastUser n = .ok stop) :
    lastUser < stop ∧ stop ≤ n := by
  induction n with
  | zero => omega
  | succ n ih =>
    rw [requestEnd] at h
    split at h
    · rename_i hlt
      obtain ⟨b, -, h⟩ := bind_eq_ok.mp h
      cases b with
      | true =>
        have := ih hlt h
        omega
      | false =>
        have := Except.ok.inj h
        omega
    · have := Except.ok.inj h
      omega

/-- The request is cut out of the payload, and what stands around it is the history. -/
theorem separateCurrentRequest_spec {history current : List Message}
    (h : separateCurrentRequest messages = .ok (history, current)) :
    ∃ front trailing, messages = front ++ current ++ trailing ∧ history = front ++ trailing := by
  rw [separateCurrentRequest] at h
  split at h
  · obtain ⟨rfl, rfl⟩ := Prod.mk.injEq .. ▸ Except.ok.inj h
    exact ⟨messages, [], by simp, by simp⟩
  · rename_i lastUser hlast
    obtain ⟨stop, hstop, h⟩ := bind_eq_ok.mp h
    obtain ⟨rfl, rfl⟩ := Prod.mk.injEq .. ▸ Except.ok.inj h
    have hlt : lastUser < messages.length := by
      have := mem_of_find?_eq_some hlast
      simpa using this
    obtain ⟨hstart, -⟩ := requestEnd_le hlt hstop
    refine ⟨messages.take lastUser, messages.drop stop, ?_, rfl⟩
    have htake : messages.take lastUser = (messages.take stop).take lastUser := by
      rw [take_take, Nat.min_eq_left (by omega)]
    rw [htake, take_append_drop, take_append_drop]

end ContextProxy
