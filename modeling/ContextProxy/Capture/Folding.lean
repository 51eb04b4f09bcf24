import ContextProxy.Capture.Assistant
import Mathlib.Data.List.Pairwise

/-!
# When an event can be folded

What one event adds to the capture (`absorb_folds`), and when reading the events raises. Absorbing looks at the shape of one event, joining at all parts, and sorting compares all indices. So a message can be built exactly when each event has the expected shape and the indices are of one kind.
-/

namespace ContextProxy

open Json
open List hiding get

/-! ### Collecting -/

def Fits (chunks : List (List UInt8)) : Option ℕ → Prop
  | some limit => chunks.flatten.length ≤ limit
  | none => True

/-- A capture after some chunks: it holds them, or it has overflowed. -/
structure Fed (chunks : List (List UInt8)) (maxBytes : Option ℕ) (capture : AssistantCapture) : Prop where
  holds : Fits chunks maxBytes → capture = { buffer := chunks.flatten, maxBytes }
  overflows : ¬Fits chunks maxBytes → capture.overflowed = true

variable {maxBytes : Option ℕ} {capture capture' : AssistantCapture} {value index key : Json}
  {slots : List (Json × ToolCallSlot)} {indices : List Json} {fragment : Fields} {fragments : List Fields}
  {slot : ToolCallSlot}

variable {chunks : List (List UInt8)} {update : ToolCallSlot → Except PyError ToolCallSlot} {deltas : List Fields}
  {payloads calls : List Json} {slots' : List (Json × ToolCallSlot)} {slot' : ToolCallSlot}

theorem fits_of_append {more : List (List UInt8)} (h : Fits (chunks ++ more) maxBytes) : Fits chunks maxBytes := by
  cases maxBytes with
  | none => trivial
  | some limit =>
    rw [Fits, flatten_append, length_append] at h
    exact (Nat.le_add_right _ _).trans h

theorem Fed.feed {chunk : List UInt8} (h : Fed chunks maxBytes capture) :
    Fed (chunks ++ [chunk]) maxBytes (capture.feed chunk) := by
  by_cases hfits : Fits chunks maxBytes
  · obtain rfl := h.holds hfits
    cases maxBytes with
    | none => exact ⟨fun _ => by simp [AssistantCapture.feed], fun hno => absurd trivial hno⟩
    | some limit =>
      have hlength : (chunks ++ [chunk]).flatten.length = chunks.flatten.length + chunk.length := by
        rw [flatten_append, length_append, flatten_singleton]
      constructor
      · intro hmore
        rw [Fits, hlength] at hmore
        simp only [AssistantCapture.feed, Bool.false_eq_true, if_false, if_neg (Nat.not_lt.mpr hmore)]
        rw [flatten_append, flatten_singleton]
      · intro hmore
        rw [Fits, hlength, Nat.not_le] at hmore
        simp only [AssistantCapture.feed, Bool.false_eq_true, if_false, if_pos hmore]
  · refine ⟨fun hmore => absurd (fits_of_append hmore) hfits, fun _ => ?_⟩
    rw [AssistantCapture.feed, if_pos (h.overflows hfits)]
    exact h.overflows hfits

theorem fed_foldl (chunks : List (List UInt8)) (maxBytes : Option ℕ) :
    Fed chunks maxBytes (chunks.foldl AssistantCapture.feed { maxBytes }) := by
  induction chunks using List.reverseRecOn with
  | nil =>
    refine ⟨fun _ => rfl, fun hno => absurd ?_ hno⟩
    cases maxBytes with
    | none => trivial
    | some limit => exact Nat.zero_le limit
  | append_singleton chunks chunk ih =>
    rw [foldl_append]
    exact ih.feed

/-! ### Shapes -/

def textLike : Json → Bool
  | .str _ => true
  | value => !truthy value

def containerShape (textKey : String) : Json → Bool
  | .obj container => textLike (get container "name") && textLike (get container textKey)
  | _ => true

def fragmentShape : Json → Bool
  | .obj fragment =>
    hashable (fragmentIndex fragment) && containerShape "arguments" (get fragment "function") &&
      containerShape "input" (get fragment "custom")
  | _ => false

def callsShape : Json → Bool
  | .arr calls => calls.all fragmentShape
  | value => !truthy value

def choiceReads : Json → Bool
  | .obj choice =>
    match deltaOf choice with
    | .obj delta => callsShape (get delta "tool_calls")
    | _ => false
  | _ => false

def choicesRead : Json → Bool
  | .arr (choice :: _) => choiceReads choice
  | choices => !truthy choices

/-- The event can be absorbed: it has no choice, or the first one has a delta whose tool calls can be read. -/
def eventReads : Json → Bool
  | .obj payload => choicesRead (get payload "choices")
  | _ => false

def choiceDelta : Json → Option Fields
  | .obj choice =>
    match deltaOf choice with
    | .obj delta => some delta
    | _ => none
  | _ => none

def choicesDelta : Json → Option Fields
  | .arr (choice :: _) => choiceDelta choice
  | _ => none

def eventDelta : Json → Option Fields
  | .obj payload => choicesDelta (get payload "choices")
  | _ => none

/-! ### Tool calls -/

theorem exists_appendText {old : String} : (∃ text, appendText old value = .ok text) ↔ textLike value = true := by
  cases value with
  | str text =>
    rw [appendText]
    split <;> simp [textLike]
  | null | bool | int | float | arr | obj =>
    simp only [appendText, textLike]
    split <;> simp_all

theorem exists_absorbContainer {textKey : String} {old : Option (String × String)} :
    (∃ container, absorbContainer textKey old value = .ok container) ↔ containerShape textKey value = true := by
  cases value with
  | obj container =>
    rw [containerShape, Bool.and_eq_true, ← exists_appendText, ← exists_appendText]
    simp only [absorbContainer, bind_eq_ok, pure_eq_ok]
    constructor
    · intro h
      obtain ⟨_, name, hname, text, htext, -⟩ := h
      exact ⟨⟨name, hname⟩, text, htext⟩
    · intro h
      obtain ⟨⟨name, hname⟩, text, htext⟩ := h
      exact ⟨_, name, hname, text, htext, rfl⟩
  | null | bool | int | float | str | arr => simp [absorbContainer, containerShape, pure_eq_ok]

theorem exists_slot_absorb (fragment : Fields) (slot : ToolCallSlot) : (∃ slot', slot.absorb fragment = .ok slot') ↔
    containerShape "arguments" (get fragment "function") = true ∧ containerShape "input" (get fragment "custom") = true := by
  rw [← exists_absorbContainer, ← exists_absorbContainer]
  simp only [ToolCallSlot.absorb, bind_eq_ok, pure_eq_ok]
  constructor
  · intro h
    obtain ⟨_, function, hfunction, custom, hcustom, -⟩ := h
    exact ⟨⟨function, hfunction⟩, custom, hcustom⟩
  · intro ⟨⟨function, hfunction⟩, custom, hcustom⟩
    exact ⟨_, function, hfunction, custom, hcustom, rfl⟩

theorem exists_updateSlot {P : Prop} (hupdate : ∀ slot, (∃ slot', update slot = .ok slot') ↔ P)
    (slots : List (Json × ToolCallSlot)) : (∃ slots', updateSlot index update slots = .ok slots') ↔ P := by
  induction slots with
  | nil =>
    rw [← hupdate {}]
    simp only [updateSlot, bind_eq_ok, pure_eq_ok]
    exact ⟨fun ⟨_, slot, hslot, _⟩ => ⟨slot, hslot⟩, fun ⟨slot, hslot⟩ => ⟨_, slot, hslot, rfl⟩⟩
  | cons entry slots ih =>
    obtain ⟨key, slot⟩ := entry
    rw [updateSlot]
    split
    · rw [← hupdate slot]
      simp only [bind_eq_ok, pure_eq_ok]
      exact ⟨fun ⟨_, slot, hslot, _⟩ => ⟨slot, hslot⟩, fun ⟨slot, hslot⟩ => ⟨_, slot, hslot, rfl⟩⟩
    · rw [← ih]
      simp only [bind_eq_ok, pure_eq_ok]
      exact ⟨fun ⟨_, rest, hrest, _⟩ => ⟨rest, hrest⟩, fun ⟨rest, hrest⟩ => ⟨_, rest, hrest, rfl⟩⟩

theorem exists_absorbToolCall (slots : List (Json × ToolCallSlot)) (call : Json) :
    (∃ slots', absorbToolCall slots call = .ok slots') ↔ fragmentShape call = true := by
  cases call with
  | obj fragment =>
    simp only [absorbToolCall, fragmentShape, Bool.and_eq_true, and_assoc]
    split
    · rename_i hhash
      rw [exists_updateSlot (exists_slot_absorb fragment)]
      exact (and_iff_right hhash).symm
    · rename_i hhash
      simp [hhash]
  | null | bool | int | float | str | arr => simp [absorbToolCall, fragmentShape]

theorem exists_items :
    (∃ calls, itemsOr value = .ok calls ∧ ∀ call ∈ calls, fragmentShape call = true) ↔ callsShape value = true := by
  cases value with
  | arr calls =>
    rw [callsShape, all_eq_true]
    cases calls <;> simp [itemsOr, truthy]
  | obj fields => cases fields <;> simp [itemsOr, truthy, callsShape, fragmentShape]
  | str text =>
    by_cases h : text = ""
    · simp [itemsOr, truthy, callsShape, h]
    · have hchars : text.toList ≠ [] := fun hnil => h (String.toList_eq_nil_iff.mp hnil)
      obtain ⟨c, cs, hcs⟩ := exists_cons_of_ne_nil hchars
      simp [itemsOr, truthy, callsShape, h, hcs, fragmentShape]
  | null => simp [itemsOr, truthy, callsShape]
  | bool | int | float =>
    simp only [itemsOr, callsShape]
    split <;> simp_all

theorem exists_absorbCalls (slots : List (Json × ToolCallSlot)) :
    (∃ calls, itemsOr value = .ok calls ∧ ∃ slots', calls.foldlM absorbToolCall slots = .ok slots') ↔
      callsShape value = true := by
  simp only [exists_foldlM_iff exists_absorbToolCall, exists_items]

/-! ### Events -/

structure Folds (capture : AssistantCapture) (delta : Fields) (capture' : AssistantCapture) : Prop where
  role : capture'.role = orElse (get delta "role") capture.role
  content : capture'.contentParts = addPart capture.contentParts (get delta "content")
  refusal : capture'.refusalParts = addPart capture.refusalParts (get delta "refusal")
  reasoning : ∀ key, capture'.reasoningParts key = addReasoning (capture.reasoningParts key) (get delta key.key)
  calls : ∃ calls, itemsOr (get delta "tool_calls") = .ok calls ∧
    calls.foldlM absorbToolCall capture.toolCalls = .ok capture'.toolCalls

theorem folds_nil (hrole : capture'.role = capture.role) (hcontent : capture'.contentParts = capture.contentParts)
    (hrefusal : capture'.refusalParts = capture.refusalParts)
    (hreasoning : capture'.reasoningParts = capture.reasoningParts) (hcalls : capture'.toolCalls = capture.toolCalls) :
    Folds capture [] capture' :=
  ⟨hrole, hcontent, hrefusal, fun key => congrFun hreasoning key, [], rfl, congrArg Except.ok hcalls.symm⟩

theorem absorbDelta_folds {delta : Fields} (h : capture.absorbDelta delta = .ok capture') :
    Folds capture delta capture' ∧ capture'.sawAnyChoice = capture.sawAnyChoice := by
  obtain ⟨calls, hcalls, h⟩ := bind_eq_ok.mp h
  obtain ⟨slots, hslots, h⟩ := bind_eq_ok.mp h
  obtain rfl := Except.ok.inj h
  exact ⟨⟨rfl, rfl, rfl, fun _ => rfl, calls, hcalls, hslots⟩, rfl⟩

theorem absorbChoice_folds {choice : Json} (h : capture.absorbChoice choice = .ok capture') :
    ∃ delta, choiceDelta choice = some delta ∧ Folds capture delta capture' ∧ capture'.sawAnyChoice = true := by
  cases choice with
  | obj choice =>
    rw [AssistantCapture.absorbChoice] at h
    rw [choiceDelta]
    cases hdelta : deltaOf choice with
    | obj delta =>
      rw [hdelta] at h
      obtain ⟨folded, hfolded, h⟩ := bind_eq_ok.mp h
      obtain rfl := Except.ok.inj h
      obtain ⟨hfolds, hsaw⟩ := absorbDelta_folds hfolded
      exact ⟨delta, rfl, ⟨hfolds.role, hfolds.content, hfolds.refusal, hfolds.reasoning, hfolds.calls⟩, hsaw⟩
    | null | bool | int | float | str | arr =>
      rw [hdelta] at h
      cases h
  | null | bool | int | float | str | arr => cases h

theorem exists_absorbChoice {choice : Json} :
    (∃ capture', capture.absorbChoice choice = .ok capture') ↔ choiceReads choice = true := by
  cases choice with
  | obj choice =>
    rw [AssistantCapture.absorbChoice, choiceReads]
    cases hdelta : deltaOf choice with
    | obj delta =>
      rw [← exists_absorbCalls capture.toolCalls]
      simp only [bind_eq_ok, pure_eq_ok, AssistantCapture.absorbDelta]
      constructor
      · intro h
        obtain ⟨_, _, ⟨calls, hcalls, slots, hslots, -⟩, -⟩ := h
        exact ⟨calls, hcalls, slots, hslots⟩
      · intro h
        obtain ⟨calls, hcalls, slots, hslots⟩ := h
        exact ⟨_, _, ⟨calls, hcalls, slots, hslots, rfl⟩, rfl⟩
    | null | bool | int | float | str | arr => simp
  | null | bool | int | float | str | arr => simp [AssistantCapture.absorbChoice, choiceReads]

theorem absorb_folds {payload : Json} (h : capture.absorb payload = .ok capture') :
    Folds capture ((eventDelta payload).getD []) capture' ∧
      capture'.sawAnyChoice = (capture.sawAnyChoice || (eventDelta payload).isSome) := by
  cases payload with
  | obj fields =>
    rw [AssistantCapture.absorb] at h
    rw [eventDelta]
    split at h
    · rename_i hchoices
      obtain ⟨choice, hchoice, h⟩ := bind_eq_ok.mp h
      obtain ⟨delta, hdelta, hfolds, hsaw⟩ := absorbChoice_folds h
      cases hc : get fields "choices" with
      | arr choices =>
        cases choices with
        | nil => simp [hc, truthy] at hchoices
        | cons first rest =>
          rw [hc] at hchoice
          obtain rfl := Except.ok.inj hchoice
          simp only [choicesDelta, hdelta, Option.getD_some, Option.isSome_some, Bool.or_true]
          exact ⟨⟨hfolds.role, hfolds.content, hfolds.refusal, hfolds.reasoning, hfolds.calls⟩, hsaw⟩
      | str text =>
        rw [hc] at hchoice
        obtain rfl := Except.ok.inj hchoice
        cases hdelta
      | null | bool | int | float | obj =>
        rw [hc] at hchoice
        cases hchoice
    · rename_i hchoices
      obtain rfl := Except.ok.inj h
      have hnone : choicesDelta (get fields "choices") = none := by
        unfold choicesDelta
        split
        · rename_i hc
          simp [hc, truthy] at hchoices
        · rfl
      rw [hnone]
      exact ⟨folds_nil rfl rfl rfl rfl rfl, (Bool.or_false _).symm⟩
  | null | bool | int | float | str | arr => cases h

theorem exists_absorbFirst {choices : Json} (h : truthy choices = true) :
    (∃ capture', (firstChoice choices >>= capture.absorbChoice) = .ok capture') ↔
      choicesRead choices = true := by
  cases choices with
  | arr choices =>
    cases choices with
    | nil => cases h
    | cons choice rest => exact exists_absorbChoice
  | null | bool | int | float | str | obj =>
    simp only [choicesRead, h]
    exact ⟨fun ⟨_, hok⟩ => (nomatch hok), fun hfalse => (nomatch hfalse)⟩

theorem exists_absorb (capture : AssistantCapture) (payload : Json) :
    (∃ capture', capture.absorb payload = .ok capture') ↔ eventReads payload = true := by
  cases payload with
  | obj fields =>
    rw [AssistantCapture.absorb, eventReads]
    cases hchoices : truthy (get fields "choices") with
    | true => exact exists_absorbFirst hchoices
    | false =>
      refine iff_of_true ⟨_, rfl⟩ ?_
      unfold choicesRead
      split
      · rename_i hc
        simp [hc, truthy] at hchoices
      · rw [hchoices]
        rfl
  | null | bool | int | float | str | arr => simp [AssistantCapture.absorb, eventReads]

/-! ### All events -/

/-- The fields an event adds; none if it has no choice. -/
def eventFields (payload : Json) : Fields := (eventDelta payload).getD []

def callItems (delta : Fields) : List Json :=
  match itemsOr (get delta "tool_calls") with
  | .ok calls => calls
  | .error _ => []

/-- What a capture has collected from the deltas it was given. -/
structure Gathered (deltas : List Fields) (capture : AssistantCapture) : Prop where
  role : capture.role = deltas.foldl (fun role delta => orElse (get delta "role") role) .null
  content : capture.contentParts = (deltas.map (get · "content")).filter truthy
  refusal : capture.refusalParts = (deltas.map (get · "refusal")).filter truthy
  reasoning : ∀ key, capture.reasoningParts key = (deltas.map (get · key.key)).foldl addReasoning []
  calls : (deltas.flatMap callItems).foldlM absorbToolCall [] = .ok capture.toolCalls

theorem addPart_filter (values : List Json) (value : Json) :
    addPart (values.filter truthy) value = (values ++ [value]).filter truthy := by
  rw [addPart, filter_append, filter_singleton]
  cases truthy value <;> simp

theorem Gathered.step {delta : Fields} (h : Gathered deltas capture) (hfolds : Folds capture delta capture') :
    Gathered (deltas ++ [delta]) capture' where
  role := by rw [hfolds.role, h.role, foldl_append, foldl_cons, foldl_nil]
  content := by rw [hfolds.content, h.content, addPart_filter, map_append, map_singleton]
  refusal := by rw [hfolds.refusal, h.refusal, addPart_filter, map_append, map_singleton]
  reasoning key := by
    rw [hfolds.reasoning, h.reasoning, map_append, foldl_append, map_singleton, foldl_cons,
      foldl_nil]
  calls := by
    obtain ⟨calls, hcalls, hslots⟩ := hfolds.calls
    have hitems : callItems delta = calls := by rw [callItems, hcalls]
    rw [flatMap_append, flatMap_singleton, hitems, foldlM_append, h.calls]
    exact hslots

/-- What a new capture has collected after a sequence of events. -/
theorem gathered_of_foldlM {buffer : List UInt8}
    (h : payloads.foldlM AssistantCapture.absorb { buffer, maxBytes } = .ok capture) :
    Gathered (payloads.map eventFields) capture ∧ capture.sawAnyChoice = payloads.any (eventDelta · |>.isSome) := by
  apply foldlM_invariant (fun done capture => Gathered (done.map eventFields) capture ∧
    capture.sawAnyChoice = done.any (eventDelta · |>.isSome)) _ _ h
  · exact ⟨⟨rfl, rfl, rfl, fun _ => rfl, rfl⟩, rfl⟩
  · intro done capture payload capture' hinv habsorb
    obtain ⟨hgathered, hsaw⟩ := hinv
    obtain ⟨hfolds, hsaw'⟩ := absorb_folds habsorb
    rw [map_append, any_append]
    refine ⟨hgathered.step hfolds, ?_⟩
    rw [hsaw', hsaw, any_cons, any_nil, Bool.or_false]

/-! ### Slots -/

theorem updateSlot_cases (h : updateSlot index update slots = .ok slots') :
    (∃ before key slot after slot', slots = before ++ (key, slot) :: after ∧ pyEq key index = true ∧
      update slot = .ok slot' ∧ slots' = before ++ (key, slot') :: after) ∨
    ((∀ entry ∈ slots, pyEq entry.1 index = false) ∧ ∃ slot', update {} = .ok slot' ∧ slots' = slots ++ [(index, slot')]) := by
  induction slots generalizing slots' with
  | nil =>
    obtain ⟨slot, hslot, h⟩ := bind_eq_ok.mp h
    exact .inr ⟨by simp, slot, hslot, (Except.ok.inj h).symm⟩
  | cons entry slots ih =>
    obtain ⟨key, slot⟩ := entry
    rw [updateSlot] at h
    split at h
    · rename_i hkey
      obtain ⟨slot', hslot', h⟩ := bind_eq_ok.mp h
      exact .inl ⟨[], key, slot, slots, slot', rfl, hkey, hslot', (Except.ok.inj h).symm⟩
    · rename_i hkey
      obtain ⟨rest, hrest, h⟩ := bind_eq_ok.mp h
      obtain rfl := Except.ok.inj h
      obtain ⟨before, k, old, after, new, rfl, hk, hnew, rfl⟩ | ⟨hnone, new, hnew, rfl⟩ := ih hrest
      · exact .inl ⟨(key, slot) :: before, k, old, after, new, rfl, hk, hnew, rfl⟩
      · exact .inr ⟨forall_mem_cons.mpr ⟨Bool.eq_false_iff.mpr hkey, hnone⟩, new, hnew, rfl⟩

/-- The keys of a dict: some of the indices it was asked for, no two of them equal, and one for each index. -/
structure KeysOf (indices keys : List Json) : Prop where
  subset : ∀ key ∈ keys, key ∈ indices
  covers : ∀ index ∈ indices, ∃ key ∈ keys, pyEq key index = true
  distinct : keys.Pairwise fun a b => pyEq a b = false

theorem KeysOf.old {keys : List Json} (h : KeysOf indices keys) (hmem : key ∈ keys) (heq : pyEq key index = true) :
    KeysOf (indices ++ [index]) keys := by
  refine ⟨fun k hk => mem_append_left _ (h.subset k hk), ?_, h.distinct⟩
  intro i hi
  rcases mem_append.mp hi with hi | hi
  · exact h.covers i hi
  · obtain rfl := mem_singleton.mp hi
    exact ⟨key, hmem, heq⟩

theorem KeysOf.new {keys : List Json} (h : KeysOf indices keys) (hnone : ∀ key ∈ keys, pyEq key index = false) :
    KeysOf (indices ++ [index]) (keys ++ [index]) := by
  refine ⟨?_, ?_, ?_⟩
  · intro key hkey
    exact mem_append.mpr ((mem_append.mp hkey).imp_left (h.subset key))
  · intro i hi
    rcases mem_append.mp hi with hi | hi
    · obtain ⟨key, hkey, heq⟩ := h.covers i hi
      exact ⟨key, mem_append_left _ hkey, heq⟩
    · obtain rfl := mem_singleton.mp hi
      exact ⟨i, mem_append_right _ hi, pyEq_refl i⟩
  · refine pairwise_append.mpr ⟨h.distinct, pairwise_singleton _ _, ?_⟩
    intro key hkey i hi
    obtain rfl := mem_singleton.mp hi
    exact hnone key hkey

def fragmentsAt (index : Json) (fragments : List Fields) : List Fields :=
  fragments.filter fun fragment => pyEq index (fragmentIndex fragment)

/-- The slots that fragments are put together in: one for each index, with the fragments that have it. -/
structure SlotsOf (fragments : List Fields) (slots : List (Json × ToolCallSlot)) : Prop where
  keys : KeysOf (fragments.map fragmentIndex) (slots.map (·.1))
  slot : ∀ entry ∈ slots, (fragmentsAt entry.1 fragments).foldlM ToolCallSlot.absorb {} = .ok entry.2

theorem fragmentsAt_concat (index : Json) (fragments : List Fields) (fragment : Fields) :
    fragmentsAt index (fragments ++ [fragment]) =
      fragmentsAt index fragments ++ if pyEq index (fragmentIndex fragment) then [fragment] else [] := by
  rw [fragmentsAt, filter_append, filter_singleton, fragmentsAt]
  cases pyEq index (fragmentIndex fragment) <;> rfl

theorem foldlM_fragmentsAt_other (h : (fragmentsAt key fragments).foldlM ToolCallSlot.absorb {} = .ok slot)
    (hkey : pyEq key (fragmentIndex fragment) = false) :
    (fragmentsAt key (fragments ++ [fragment])).foldlM ToolCallSlot.absorb {} = .ok slot := by
  rw [fragmentsAt_concat, hkey]
  simpa using h

theorem foldlM_fragmentsAt_same (h : (fragmentsAt key fragments).foldlM ToolCallSlot.absorb {} = .ok slot)
    (hkey : pyEq key (fragmentIndex fragment) = true) (habsorb : slot.absorb fragment = .ok slot') :
    (fragmentsAt key (fragments ++ [fragment])).foldlM ToolCallSlot.absorb {} = .ok slot' := by
  rw [fragmentsAt_concat, if_pos hkey, foldlM_append, h]
  exact bind_eq_ok.mpr ⟨slot, rfl, bind_eq_ok.mpr ⟨slot', habsorb, rfl⟩⟩

theorem SlotsOf.fragmentsAt_eq_nil (h : SlotsOf fragments slots) (hnone : ∀ key ∈ slots.map (·.1), pyEq key index = false) :
    fragmentsAt index fragments = [] := by
  rw [fragmentsAt, filter_eq_nil_iff]
  intro fragment hfragment heq
  obtain ⟨key, hkey, hindex⟩ := h.keys.covers _ (mem_map_of_mem hfragment)
  have := pyEq_trans hindex (pyEq_symm heq)
  simp [hnone key hkey] at this

theorem SlotsOf.old {before after : List (Json × ToolCallSlot)} (h : SlotsOf fragments (before ++ (key, slot) :: after))
    (hkey : pyEq key (fragmentIndex fragment) = true) (habsorb : slot.absorb fragment = .ok slot') :
    SlotsOf (fragments ++ [fragment]) (before ++ (key, slot') :: after) := by
  have hkeys := h.keys
  rw [map_append, map_cons] at hkeys
  obtain ⟨-, hcons, hbefore⟩ := pairwise_append.mp hkeys.distinct
  have hafter := (pairwise_cons.mp hcons).1
  constructor
  · rw [map_append, map_append]
    exact hkeys.old (mem_append_right _ mem_cons_self) hkey
  · intro entry hentry
    rcases mem_append.mp hentry with hentry | hentry
    · apply foldlM_fragmentsAt_other (h.slot entry (mem_append_left _ hentry))
      rw [← Bool.not_eq_true]
      intro heq
      have := pyEq_trans heq (pyEq_symm hkey)
      simp [hbefore entry.1 (mem_map_of_mem hentry) key mem_cons_self] at this
    · rcases mem_cons.mp hentry with rfl | hentry
      · exact foldlM_fragmentsAt_same (h.slot (key, slot) (by simp)) hkey habsorb
      · apply foldlM_fragmentsAt_other (h.slot entry (mem_append_right _ (mem_cons_of_mem _ hentry)))
        rw [← Bool.not_eq_true]
        intro heq
        have := pyEq_trans hkey (pyEq_symm heq)
        simp [hafter entry.1 (mem_map_of_mem hentry)] at this

theorem SlotsOf.new (h : SlotsOf fragments slots)
    (hnone : ∀ key ∈ slots.map (·.1), pyEq key (fragmentIndex fragment) = false)
    (habsorb : ToolCallSlot.absorb {} fragment = .ok slot) :
    SlotsOf (fragments ++ [fragment]) (slots ++ [(fragmentIndex fragment, slot)]) := by
  constructor
  · rw [map_append, map_append]
    exact h.keys.new hnone
  · intro entry hentry
    rcases mem_append.mp hentry with hentry | hentry
    · exact foldlM_fragmentsAt_other (h.slot entry hentry) (hnone entry.1 (mem_map_of_mem hentry))
    · obtain rfl := mem_singleton.mp hentry
      refine foldlM_fragmentsAt_same ?_ (pyEq_refl _) habsorb
      rw [h.fragmentsAt_eq_nil hnone]
      rfl

theorem SlotsOf.step {call : Json} (h : SlotsOf (calls.map fieldsOf) slots)
    (habsorb : absorbToolCall slots call = .ok slots') : SlotsOf ((calls ++ [call]).map fieldsOf) slots' := by
  rw [map_append]
  cases call with
  | obj fragment =>
    rw [absorbToolCall] at habsorb
    split at habsorb
    · obtain ⟨before, key, slot, after, slot', rfl, hkey, hslot, rfl⟩ | ⟨hnone, slot, hslot, rfl⟩ :=
        updateSlot_cases habsorb
      · exact h.old hkey hslot
      · refine h.new ?_ hslot
        intro key hkey
        obtain ⟨entry, hentry, rfl⟩ := mem_map.mp hkey
        exact hnone entry hentry
    · cases habsorb
  | null | bool | int | float | str | arr => cases habsorb

/-- The slots after a sequence of fragments. -/
theorem slotsOf_foldlM (h : calls.foldlM absorbToolCall [] = .ok slots) : SlotsOf (calls.map fieldsOf) slots := by
  apply foldlM_invariant (fun done slots => SlotsOf (done.map fieldsOf) slots) _ _ h
  · exact ⟨⟨by simp, by simp, .nil⟩, by simp⟩
  · intro done slots call slots' hinv habsorb
    exact hinv.step habsorb

/-! ### The message -/

/-- Two indices that do not make `sorted` raise. -/
def oneKind (a b : Json) : Bool := pyEq a b || comparable a b

theorem comparable_congr {a a' b b' : Json} (ha : pyEq a a' = true) (hb : pyEq b b' = true) :
    comparable a b = comparable a' b' := by
  rw [comparable, comparable, pyEq_iff.mp ha, pyEq_iff.mp hb]

instance : Std.Symm fun a b => comparable a b = true where
  symm a b h := by
    unfold comparable at h ⊢
    split at h <;> simp_all

theorem exists_sortedSlots (h : KeysOf indices (slots.map (·.1))) :
    (∃ sorted, sortedSlots slots = .ok sorted) ↔ ∀ a ∈ indices, ∀ b ∈ indices, oneKind a b = true := by
  have hok : (∃ sorted, sortedSlots slots = .ok sorted) ↔
      (slots.map (·.1)).Pairwise fun a b => comparable a b = true := by
    rw [sortedSlots, pairwise_map]
    split <;> simp_all
  rw [hok]
  constructor
  · intro hpair a ha b hb
    obtain ⟨key, hkey, hkeya⟩ := h.covers a ha
    obtain ⟨key', hkey', hkeyb⟩ := h.covers b hb
    rw [oneKind, Bool.or_eq_true]
    by_cases heq : key = key'
    · exact .inl (pyEq_trans (pyEq_symm hkeya) (heq ▸ hkeyb))
    · rw [← comparable_congr hkeya hkeyb]
      exact .inr (hpair.forall hkey hkey' heq)
  · intro hkind
    refine h.distinct.imp_of_mem ?_
    intro a b ha hb hne
    simpa [oneKind, hne] using hkind a (h.subset a ha) b (h.subset b hb)

theorem exists_joinTexts {parts : List Json} :
    (∃ text, joinTexts parts = .ok text) ↔ ∀ part ∈ parts, ∃ text, part = .str text := by
  induction parts with
  | nil => simp [joinTexts]
  | cons part parts ih =>
    rw [forall_mem_cons, ← ih]
    cases part with
    | str text =>
      simp only [joinTexts, bind_eq_ok, pure_eq_ok, str.injEq, exists_eq', true_and]
      exact ⟨fun ⟨_, rest, hrest, _⟩ => ⟨rest, hrest⟩, fun ⟨rest, hrest⟩ => ⟨_, rest, hrest, rfl⟩⟩
    | null | bool | int | float | arr | obj => simp [joinTexts]

theorem exists_joinTexts_filter {values : List Json} :
    (∃ text, joinTexts (values.filter truthy) = .ok text) ↔ ∀ value ∈ values, textLike value = true := by
  have hvalue : ∀ value : Json, (truthy value = true → ∃ text, value = .str text) ↔ textLike value = true := by
    intro value
    cases value <;> simp [textLike]
  simp only [exists_joinTexts, mem_filter, and_imp, hvalue]

/-- What a message can be built from: texts, and indices of one kind. -/
structure Buildable (deltas : List Fields) : Prop where
  content : ∀ delta ∈ deltas, textLike (get delta "content") = true
  refusal : ∀ delta ∈ deltas, textLike (get delta "refusal") = true
  indices : ∀ a ∈ deltas.flatMap callItems, ∀ b ∈ deltas.flatMap callItems,
    oneKind (fragmentIndex (fieldsOf a)) (fragmentIndex (fieldsOf b)) = true

theorem exists_buildMessage (h : Gathered deltas capture) :
    (∃ message, capture.buildMessage = .ok message) ↔ Buildable deltas := by
  have hcontent : (∃ text, joinTexts capture.contentParts = .ok text) ↔
      ∀ delta ∈ deltas, textLike (get delta "content") = true := by
    rw [h.content, exists_joinTexts_filter, forall_mem_map]
  have hrefusal : (∃ text, joinTexts capture.refusalParts = .ok text) ↔
      ∀ delta ∈ deltas, textLike (get delta "refusal") = true := by
    rw [h.refusal, exists_joinTexts_filter, forall_mem_map]
  have hslots := exists_sortedSlots (slotsOf_foldlM h.calls).keys
  simp only [forall_mem_map] at hslots
  simp only [AssistantCapture.buildMessage, bind_eq_ok, pure_eq_ok]
  constructor
  · intro ⟨_, content, hc, refusal, hr, slots, hs, _⟩
    exact ⟨hcontent.mp ⟨content, hc⟩, hrefusal.mp ⟨refusal, hr⟩, hslots.mp ⟨slots, hs⟩⟩
  · intro hbuild
    obtain ⟨content, hc⟩ := hcontent.mpr hbuild.content
    obtain ⟨refusal, hr⟩ := hrefusal.mpr hbuild.refusal
    obtain ⟨slots, hs⟩ := hslots.mpr hbuild.indices
    exact ⟨_, content, hc, refusal, hr, slots, hs, rfl⟩

/-! ### The whole buffer -/

def Loaded.toOption : Loaded → Option Json
  | .value payload => some payload
  | .malformed | .tooDeep => none

/-- The loop of `finalize` is a fold over the values that are read, unless one of the texts is nested too deep. -/
theorem absorbTexts_eq_ok {loads : String → Loaded} {texts : List String} :
    capture.absorbTexts loads texts = .ok capture' ↔ (∀ text ∈ texts, loads text ≠ .tooDeep) ∧
      (texts.filterMap fun text => (loads text).toOption).foldlM AssistantCapture.absorb capture = .ok capture' := by
  induction texts generalizing capture with
  | nil => simp [AssistantCapture.absorbTexts, pure_eq_ok]
  | cons text texts ih =>
    rw [AssistantCapture.absorbTexts, forall_mem_cons, filterMap_cons]
    cases hloads : loads text with
    | malformed => simp [Loaded.toOption, ih]
    | tooDeep => simp
    | value payload =>
      simp only [Loaded.toOption, foldlM_cons, bind_eq_ok, mapError_eq_ok, ih]
      constructor
      · intro ⟨next, hnext, hdeep, hrest⟩
        exact ⟨⟨by simp, hdeep⟩, next, hnext, hrest⟩
      · intro ⟨⟨_, hdeep⟩, next, hnext, hrest⟩
        exact ⟨next, hnext, hdeep, hrest⟩

/-- What `finalize` can turn into a message, or into nothing. -/
structure Foldable (loads : String → Loaded) (texts : List String) : Prop where
  shallow : ∀ text ∈ texts, loads text ≠ .tooDeep
  reads : ∀ payload ∈ texts.filterMap fun text => (loads text).toOption, eventReads payload = true
  builds : Buildable ((texts.filterMap fun text => (loads text).toOption).map eventFields)

theorem buildable_of_no_choice (h : payloads.any (eventDelta · |>.isSome) = false) :
    Buildable (payloads.map eventFields) := by
  have hnil : ∀ delta ∈ payloads.map eventFields, delta = [] := by
    simp only [any_eq_false, Option.not_isSome_iff_eq_none] at h
    intro delta hdelta
    obtain ⟨payload, hpayload, rfl⟩ := mem_map.mp hdelta
    rw [eventFields, h payload hpayload, Option.getD_none]
  refine ⟨fun delta hdelta => hnil delta hdelta ▸ rfl, fun delta hdelta => hnil delta hdelta ▸ rfl, ?_⟩
  intro call hcall
  obtain ⟨delta, hdelta, hcall⟩ := mem_flatMap.mp hcall
  rw [hnil delta hdelta] at hcall
  cases hcall

theorem exists_finalize (loads : String → Loaded) (buffer : List UInt8) (maxBytes : Option ℕ) :
    (∃ result, AssistantCapture.finalize loads { buffer, maxBytes } = .ok result) ↔
      Foldable loads (dataTexts (Utf8.decode buffer)) := by
  simp only [AssistantCapture.finalize, Bool.false_eq_true, if_false, bind_eq_ok, absorbTexts_eq_ok]
  constructor
  · intro ⟨result, capture, ⟨hdeep, hfold⟩, hresult⟩
    obtain ⟨hgathered, hsaw⟩ := gathered_of_foldlM hfold
    refine ⟨hdeep, (exists_foldlM_iff exists_absorb _).mp ⟨capture, hfold⟩, ?_⟩
    split at hresult
    · obtain ⟨message, hmessage, -⟩ := bind_eq_ok.mp hresult
      exact (exists_buildMessage hgathered).mp ⟨message, mapError_eq_ok.mp hmessage⟩
    · rename_i hno
      exact buildable_of_no_choice (hsaw.symm.trans (Bool.eq_false_iff.mpr hno))
  · intro h
    obtain ⟨capture, hfold⟩ := (exists_foldlM_iff exists_absorb { buffer, maxBytes }).mpr h.reads
    obtain ⟨message, hmessage⟩ := (exists_buildMessage (gathered_of_foldlM hfold).1).mpr h.builds
    by_cases hsaw : capture.sawAnyChoice = true
    · refine ⟨(some message, capture), capture, ⟨h.shallow, hfold⟩, ?_⟩
      rw [if_pos hsaw]
      exact bind_eq_ok.mpr ⟨message, mapError_eq_ok.mpr hmessage, rfl⟩
    · refine ⟨(none, capture), capture, ⟨h.shallow, hfold⟩, ?_⟩
      rw [if_neg hsaw]
      rfl

end ContextProxy
