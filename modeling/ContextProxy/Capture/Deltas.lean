import ContextProxy.Api.Validation
import ContextProxy.Capture.Folding

/-!
# Splitting a message into deltas

A provider streams an assistant message by cutting its texts into fragments and spreading them over deltas. `Splits` says which deltas do that: the fragments of each text are in order, and a tool call has its id, its type and its own fields on its first fragment. Texts and calls may be interleaved in any way, and the capture puts the message together again.
-/

namespace ContextProxy

open Json
open List hiding get

/-! ### The message -/

structure AssistantCall where
  id : String
  kind : ToolKind
  name : String
  /-- The arguments of a function, the input of a custom tool. -/
  text : String
  extra : Fields
  id_ne : id ≠ ""
  extra_unknown : ∀ field ∈ extra, field.1 ∉ fragmentKeys

structure AssistantMessage where
  content : Option String
  refusal : Option String
  reasoning : ReasoningKey → Option String
  calls : List AssistantCall
  content_ne : content ≠ some ""
  refusal_ne : refusal ≠ some ""
  reasoning_ne : ∀ key, reasoning key ≠ some ""

def AssistantCall.container (call : AssistantCall) : Fields := [("name", .str call.name), (call.kind.textKey, .str call.text)]

def AssistantCall.fields (call : AssistantCall) : Fields :=
  [("id", .str call.id), ("type", .str call.kind.key), (call.kind.key, .obj call.container)] ++ call.extra

def optionalField (key : String) : Option String → Fields
  | some text => [(key, .str text)]
  | none => []

/-- The dict of a message. `tool_calls` is absent if there are none. -/
def AssistantMessage.fields (message : AssistantMessage) : Fields :=
  [("role", .str "assistant"), ("content", (message.content.map Json.str).getD .null)]
    ++ ReasoningKey.all.flatMap (fun key => optionalField key.key (message.reasoning key))
    ++ callsField (message.calls.map (·.fields)) ++ optionalField "refusal" message.refusal

/-! ### Its splittings -/

/-- The text of a fragment. A field that is absent has none. -/
def textOf : Json → String
  | .str text => text
  | _ => ""

structure Cuts (text : String) (values : List Json) : Prop where
  fragment : ∀ value ∈ values, value = .null ∨ ∃ part, value = .str part
  join : String.join (values.map textOf) = text

def ToolKind.other : ToolKind → ToolKind
  | .function => .custom
  | .custom => .function

structure CallSplits (call : AssistantCall) (first : Fields) (rest : List Fields) : Prop where
  id : get first "id" = .str call.id
  type : get first "type" = .str call.kind.key
  extra : ∀ key, key ∉ fragmentKeys → first.lookup key = call.extra.lookup key
  later : ∀ fragment ∈ rest, truthy (get fragment "id") = false ∧ truthy (get fragment "type") = false ∧
    ∀ field ∈ fragment, field.1 ∈ fragmentKeys
  own : ∀ fragment ∈ first :: rest, get fragment call.kind.key = .null ∨
    ∃ container, get fragment call.kind.key = .obj container
  other : ∀ fragment ∈ first :: rest, get fragment call.kind.other.key = .null
  name : Cuts call.name ((first :: rest).map fun fragment => get (fieldsOf (get fragment call.kind.key)) "name")
  text : Cuts call.text ((first :: rest).map fun fragment => get (fieldsOf (get fragment call.kind.key)) call.kind.textKey)

def deltaFragments (delta : Fields) : List Fields :=
  match get delta "tool_calls" with
  | .arr calls => calls.map fieldsOf
  | _ => []

structure Splits (message : AssistantMessage) (deltas : List Fields) : Prop where
  role : ∀ delta ∈ deltas, get delta "role" = .null ∨ get delta "role" = .str "assistant"
  content : Cuts (message.content.getD "") (deltas.map (get · "content"))
  refusal : Cuts (message.refusal.getD "") (deltas.map (get · "refusal"))
  reasoning : ∀ key, Cuts ((message.reasoning key).getD "") (deltas.map (get · key.key))
  calls : ∀ delta ∈ deltas, get delta "tool_calls" = .null ∨
    ∃ fragments : List Fields, get delta "tool_calls" = .arr (fragments.map .obj)
  index : ∀ fragment ∈ deltas.flatMap deltaFragments, ∃ n < message.calls.length, get fragment "index" = .int n
  call : ∀ (n : ℕ) call, message.calls[n]? = some call →
    ∃ first rest, fragmentsAt (.int n) (deltas.flatMap deltaFragments) = first :: rest ∧ CallSplits call first rest

/-- A chunk of the stream: it has a delta in its first choice, or no choice at all. -/
inductive Carries : Json → Fields → Prop
  | choice {payload choice delta : Fields} {rest : List Json} :
      get payload "choices" = .arr (.obj choice :: rest) → get choice "delta" = .obj delta →
      get choice "message" = .null → Carries (.obj payload) delta
  | bare {payload : Fields} : truthy (get payload "choices") = false → Carries (.obj payload) []

/-! ### Texts -/

variable {values : List Json} {text : Option String}

theorem Cuts.joinTexts {text : String} (h : Cuts text values) : joinTexts (values.filter truthy) = .ok text := by
  rw [← h.join]
  replace h := h.fragment
  induction values with
  | nil => rfl
  | cons value values ih =>
    rw [forall_mem_cons] at h
    rw [map_cons, String.join_cons]
    obtain hnull | ⟨part, hpart⟩ := h.1
    · rw [hnull]
      exact (ih h.2).trans (congrArg Except.ok (String.empty_append).symm)
    · rw [hpart]
      by_cases hempty : part = ""
      · rw [hempty]
        exact (ih h.2).trans (congrArg Except.ok (String.empty_append).symm)
      · rw [filter_cons_of_pos (by simpa [truthy] using hempty), ContextProxy.joinTexts, ih h.2]
        rfl

theorem join_addReasoning (parts : List String) (h : ∀ value ∈ values, value = .null ∨ ∃ part, value = .str part) :
    String.join (values.foldl addReasoning parts) = String.join parts ++ String.join (values.map textOf) := by
  induction values generalizing parts with
  | nil => simp
  | cons value values ih =>
    rw [forall_mem_cons] at h
    rw [foldl_cons, ih _ h.2, map_cons, String.join_cons]
    obtain hnull | ⟨part, hpart⟩ := h.1
    · simp [hnull, addReasoning, textOf]
    · by_cases hempty : part = ""
      · simp [hpart, hempty, addReasoning, textOf]
      · simp [hpart, hempty, addReasoning, textOf, String.append_assoc]

theorem textOrNone_getD (h : text ≠ some "") : textOrNone (text.getD "") = (text.map Json.str).getD .null := by
  cases text with
  | none => rfl
  | some text => exact if_neg fun hempty => h (congrArg some hempty)

theorem textField_getD (key : String) (h : text ≠ some "") : textField key (text.getD "") = optionalField key text := by
  cases text with
  | none => rfl
  | some text => exact if_neg fun hempty => h (congrArg some hempty)

/-! ### Tool calls -/

def ToolCallSlot.container (slot : ToolCallSlot) : ToolKind → Option (String × String)
  | .function => slot.function
  | .custom => slot.custom

variable {fragment first delta : Fields} {slot slot' : ToolCallSlot} {value : Json} {call : AssistantCall}
  {rest deltas : List Fields} {message : AssistantMessage}

theorem absorb_container (h : slot.absorb fragment = .ok slot') (kind : ToolKind) :
    absorbContainer kind.textKey (slot.container kind) (get fragment kind.key) = .ok (slot'.container kind) := by
  obtain ⟨function, hfunction, h⟩ := bind_eq_ok.mp h
  obtain ⟨custom, hcustom, h⟩ := bind_eq_ok.mp h
  obtain rfl := Except.ok.inj h
  cases kind with
  | function => exact hfunction
  | custom => exact hcustom

theorem absorb_rest (h : slot.absorb fragment = .ok slot') :
    slot'.id = orElse (get fragment "id") slot.id ∧ slot'.type = orElse (get fragment "type") slot.type ∧
      slot'.extra = keepExtra slot.extra fragment := by
  obtain ⟨function, hfunction, h⟩ := bind_eq_ok.mp h
  obtain ⟨custom, hcustom, h⟩ := bind_eq_ok.mp h
  obtain rfl := Except.ok.inj h
  exact ⟨rfl, rfl, rfl⟩

theorem appendText_eq {old new : String} (h : appendText old value = .ok new) : new = old ++ textOf value := by
  cases value with
  | str text =>
    rw [appendText] at h
    split at h
    · rename_i hempty
      obtain rfl : text = "" := by simpa [truthy] using hempty
      simpa [textOf] using (Except.ok.inj h).symm
    · exact (Except.ok.inj h).symm
  | null | bool | int | float | arr | obj =>
    simp only [appendText] at h
    split at h
    · simpa [textOf] using (Except.ok.inj h).symm
    · cases h

theorem absorbContainer_texts {textKey : String} {old new : Option (String × String)}
    (h : absorbContainer textKey old value = .ok new) :
    new.getD ("", "") = ((old.getD ("", "")).1 ++ textOf (get (fieldsOf value) "name"),
      (old.getD ("", "")).2 ++ textOf (get (fieldsOf value) textKey)) := by
  cases value with
  | obj container =>
    obtain ⟨name, hname, h⟩ := bind_eq_ok.mp h
    obtain ⟨text, htext, h⟩ := bind_eq_ok.mp h
    obtain rfl := Except.ok.inj h
    exact Prod.ext (appendText_eq hname) (appendText_eq htext)
  | null | bool | int | float | str | arr =>
    obtain rfl := Except.ok.inj h
    exact Prod.ext String.append_empty.symm String.append_empty.symm

theorem lookup_concat (fields : Fields) (field : String × Json) (key : String) :
    (fields ++ [field]).lookup key = (fields.lookup key).or (if key = field.1 then some field.2 else none) := by
  rw [lookup_append, lookup_cons_eq_ite, lookup_nil]

theorem lookup_keepExtra (extra fragment : Fields) (key : String) : (keepExtra extra fragment).lookup key =
      (extra.lookup key).or (if key ∈ fragmentKeys then none else fragment.lookup key) := by
  induction fragment generalizing extra with
  | nil => simp [keepExtra]
  | cons field fragment ih =>
    obtain ⟨k, v⟩ := field
    have hstep : keepExtra extra ((k, v) :: fragment) =
        keepExtra (if k ∈ fragmentKeys ∨ has extra k = true then extra else extra ++ [(k, v)]) fragment := rfl
    rw [hstep, ih, lookup_cons_eq_ite]
    by_cases heq : key = k
    · subst heq
      by_cases hkept : key ∈ fragmentKeys ∨ has extra key = true
      · rw [if_pos hkept]
        rcases hkept with hknown | hhas
        · rw [if_pos hknown, if_pos hknown]
        · obtain ⟨w, hw⟩ := Option.isSome_iff_exists.mp hhas
          rw [hw, Option.some_or, Option.some_or]
      · rw [if_neg hkept, lookup_concat, if_pos rfl]
        obtain ⟨hknown, hhas⟩ := not_or.mp hkept
        have hnone : extra.lookup key = none := Option.not_isSome_iff_eq_none.mp hhas
        rw [hnone, Option.none_or, Option.some_or, Option.none_or, if_neg hknown, if_pos rfl]
    · rw [if_neg heq]
      split
      · rfl
      · rw [lookup_concat, if_neg heq, Option.or_none]

theorem keepExtra_of_known {extra : Fields} (h : ∀ field ∈ fragment, field.1 ∈ fragmentKeys) :
    keepExtra extra fragment = extra := by
  induction fragment with
  | nil => rfl
  | cons field fragment ih =>
    rw [forall_mem_cons] at h
    rw [keepExtra, foldl_cons, if_pos (.inl h.1)]
    exact ih h.2

structure CallSlot (call : AssistantCall) (done : List Fields) (slot : ToolCallSlot) : Prop where
  id : slot.id = .str call.id
  type : slot.type = .str call.kind.key
  extra : ∀ key, slot.extra.lookup key = call.extra.lookup key
  other : slot.container call.kind.other = none
  name : ((slot.container call.kind).getD ("", "")).1 =
    String.join (done.map fun fragment => textOf (get (fieldsOf (get fragment call.kind.key)) "name"))
  text : ((slot.container call.kind).getD ("", "")).2 =
    String.join (done.map fun fragment => textOf (get (fieldsOf (get fragment call.kind.key)) call.kind.textKey))

theorem CallSlot.of_first (hsplits : CallSplits call first rest) (h : ToolCallSlot.absorb {} first = .ok slot) :
    CallSlot call [first] slot := by
  obtain ⟨hid, htype, hextra⟩ := absorb_rest h
  have hown := absorbContainer_texts (absorb_container h call.kind)
  have hempty : (ToolCallSlot.container {} call.kind).getD ("", "") = ("", "") := by cases call.kind <;> rfl
  rw [hempty, String.empty_append, String.empty_append] at hown
  refine ⟨?_, ?_, ?_, ?_, ?_, ?_⟩
  · rw [hid, hsplits.id, orElse, if_pos (by simpa [truthy] using call.id_ne)]
  · rw [htype, hsplits.type, orElse, if_pos (by cases call.kind <;> rfl)]
  · intro key
    rw [hextra, lookup_keepExtra, lookup_nil, Option.none_or]
    split
    · rename_i hknown
      rw [eq_comm, lookup_eq_none_iff]
      intro field hfield
      have := call.extra_unknown field hfield
      simp only [bne_iff_ne, ne_eq]
      exact fun heq => this (heq ▸ hknown)
    · rename_i hknown
      exact hsplits.extra key hknown
  · have hother := absorb_container h call.kind.other
    rw [hsplits.other first mem_cons_self] at hother
    rw [← Except.ok.inj hother]
    cases call.kind <;> rfl
  · rw [hown, map_singleton, String.join_cons, String.join_nil, String.append_empty]
  · rw [hown, map_singleton, String.join_cons, String.join_nil, String.append_empty]

theorem CallSlot.step {done : List Fields} (hslot : CallSlot call done slot) (hid : truthy (get fragment "id") = false)
    (htype : truthy (get fragment "type") = false) (hknown : ∀ field ∈ fragment, field.1 ∈ fragmentKeys)
    (hother : get fragment call.kind.other.key = .null) (h : slot.absorb fragment = .ok slot') :
    CallSlot call (done ++ [fragment]) slot' := by
  obtain ⟨hid', htype', hextra'⟩ := absorb_rest h
  have hown := absorbContainer_texts (absorb_container h call.kind)
  have hcontainer := absorb_container h call.kind.other
  rw [hother] at hcontainer
  refine ⟨?_, ?_, ?_, ?_, ?_, ?_⟩
  · rw [hid', orElse, if_neg (by simp [hid]), hslot.id]
  · rw [htype', orElse, if_neg (by simp [htype]), hslot.type]
  · intro key
    rw [hextra', keepExtra_of_known hknown, hslot.extra]
  · rw [← Except.ok.inj hcontainer, hslot.other]
  · rw [hown, hslot.name, map_append, String.join_append, map_singleton, String.join_cons, String.join_nil,
      String.append_empty]
  · rw [hown, hslot.text, map_append, String.join_append, map_singleton, String.join_cons, String.join_nil,
      String.append_empty]

theorem CallSlot.steps (done : List Fields) (hsplits : CallSplits call first (done ++ rest))
    (hslot : CallSlot call (first :: done) slot) (h : rest.foldlM ToolCallSlot.absorb slot = .ok slot') :
    CallSlot call (first :: (done ++ rest)) slot' := by
  induction rest generalizing done slot with
  | nil =>
    obtain rfl := Except.ok.inj h
    rwa [append_nil]
  | cons fragment rest ih =>
    rw [foldlM_cons] at h
    obtain ⟨next, hnext, h⟩ := bind_eq_ok.mp h
    have hmem : fragment ∈ done ++ fragment :: rest := mem_append_right _ mem_cons_self
    obtain ⟨hid, htype, hknown⟩ := hsplits.later fragment hmem
    have hstep := hslot.step hid htype hknown (hsplits.other fragment (mem_cons_of_mem _ hmem)) hnext
    rw [append_cons] at hsplits ⊢
    exact ih _ hsplits hstep h

/-- The slot that has taken the fragments of a call. -/
theorem callSlot_of_foldlM (hsplits : CallSplits call first rest)
    (h : (first :: rest).foldlM ToolCallSlot.absorb {} = .ok slot) : CallSlot call (first :: rest) slot := by
  rw [foldlM_cons] at h
  obtain ⟨next, hnext, h⟩ := bind_eq_ok.mp h
  exact CallSlot.steps [] hsplits (.of_first hsplits hnext) h

theorem rebuild_of_callSlot (hsplits : CallSplits call first rest) (h : CallSlot call (first :: rest) slot) :
    ∃ fields, slot.rebuild = some fields ∧ pyEq (.obj fields) (.obj call.fields) = true := by
  have hname : ((slot.container call.kind).getD ("", "")).1 = call.name := by
    rw [h.name, ← hsplits.name.join, map_map]
    rfl
  have htext : ((slot.container call.kind).getD ("", "")).2 = call.text := by
    rw [h.text, ← hsplits.text.join, map_map]
    rfl
  have hid : truthy slot.id = true := by
    rw [h.id]
    simpa [truthy] using call.id_ne
  have hfields : slot.rebuild = some ([("id", .str call.id), ("type", .str call.kind.key),
      (call.kind.key, .obj call.container)] ++ slot.extra) := by
    have hother := h.other
    have htype := h.type
    unfold AssistantCall.container
    rw [← hname, ← htext, ToolCallSlot.rebuild, if_neg (by simp [hid]), h.id]
    cases hkind : call.kind with
    | function =>
      rw [hkind] at hother htype
      have hcustom : slot.custom = none := hother
      rw [htype, hcustom]
      rfl
    | custom =>
      rw [hkind] at htype
      rw [htype]
      rfl
  refine ⟨_, hfields, pyEq_obj fun key => ?_⟩
  rw [AssistantCall.fields, lookup_append, lookup_append, h.extra]

/-! ### Their order -/

def position : Json → ℕ
  | .int n => n.toNat
  | _ => 0

theorem notAfter_int (m n : ℕ) : notAfter (.int m) (.int n) = true ↔ m ≤ n := by
  rw [notAfter, normal, normal, decide_eq_true_iff, Rat.intCast_le_intCast, Int.ofNat_le]

theorem pyEq_int (m n : ℕ) : pyEq (.int m) (.int n) = true ↔ m = n := by
  rw [pyEq_iff, normal, normal, Json.float.injEq, Rat.intCast_inj, Int.ofNat_inj]

theorem oneKind_int (m n : ℕ) : oneKind (.int m) (.int n) = true := by
  rw [oneKind, Bool.or_eq_true]
  exact .inr rfl

variable {slots : List (Json × ToolCallSlot)}

theorem sortedSlots_of_positions {indices : List Json} {length : ℕ} (h : KeysOf indices (slots.map (·.1)))
    (hindex : ∀ index ∈ indices, ∃ n < length, index = .int (n : ℕ)) (hall : ∀ n < length, Json.int (n : ℕ) ∈ indices) :
    ∃ sorted, sortedSlots slots = .ok sorted ∧ (∀ entry ∈ sorted, entry ∈ slots) ∧
      sorted.map (fun entry => position entry.1) = List.range length := by
  have hkey : ∀ key ∈ slots.map (·.1), ∃ n < length, key = .int (n : ℕ) := fun key hmem => hindex key (h.subset key hmem)
  have hperm : ((slots.map (·.1)).map position).Perm (List.range length) := by
    apply (perm_ext_iff_of_nodup ?_ nodup_range).mpr
    · intro n
      rw [mem_range, mem_map]
      constructor
      · intro ⟨key, hmem, hn⟩
        obtain ⟨m, hm, rfl⟩ := hkey key hmem
        exact hn ▸ hm
      · intro hn
        obtain ⟨key, hmem, heq⟩ := h.covers _ (hall n hn)
        obtain ⟨m, hm, rfl⟩ := hkey key hmem
        exact ⟨_, hmem, (pyEq_int m n).mp heq⟩
    · refine pairwise_map.mpr (h.distinct.imp_of_mem ?_)
      intro a b ha hb hne heq
      obtain ⟨m, _, rfl⟩ := hkey a ha
      obtain ⟨n, _, rfl⟩ := hkey b hb
      exact Bool.eq_false_iff.mp hne ((pyEq_int m n).mpr heq)
  obtain ⟨sorted, hsorted⟩ := (exists_sortedSlots h).mpr fun a ha b hb => by
    obtain ⟨m, _, rfl⟩ := hindex a ha
    obtain ⟨n, _, rfl⟩ := hindex b hb
    exact oneKind_int m n
  refine ⟨sorted, hsorted, ?_⟩
  rw [sortedSlots] at hsorted
  split at hsorted
  · obtain rfl := Except.ok.inj hsorted
    refine ⟨fun entry => (mem_insertionSort _).mp, ?_⟩
    rw [map_insertionSort _ (· ≤ ·)]
    · apply List.Perm.eq_of_pairwise' (pairwise_insertionSort (· ≤ ·) _) pairwise_le_range
      exact (perm_insertionSort _ _).trans (by rwa [map_map] at hperm)
    · intro a ha b hb
      obtain ⟨m, _, hm⟩ := hkey a.1 (mem_map_of_mem ha)
      obtain ⟨n, _, hn⟩ := hkey b.1 (mem_map_of_mem hb)
      rw [hm, hn, notAfter_int]
      rfl
  · cases hsorted

theorem forall₂_of_positions {α β : Type} {r : α → β → Prop} {f : α → ℕ} {as : List α} {bs : List β}
    (hpos : as.map f = List.range bs.length) (h : ∀ a ∈ as, ∀ b, bs[f a]? = some b → r a b) : List.Forall₂ r as bs := by
  rw [forall₂_iff_get]
  have hlength : as.length = bs.length := by simpa using congrArg List.length hpos
  refine ⟨hlength, ?_⟩
  intro i hi hi'
  have hf : f as[i] = i := by
    have hget := congrArg (·[i]?) hpos
    simpa [hi, hi'] using hget
  apply h _ (get_mem as ⟨i, hi⟩)
  simp [hf, hi']

theorem fragmentIndex_of_get {n : ℤ} (h : get fragment "index" = .int n) : fragmentIndex fragment = .int n := by
  rw [fragmentIndex]
  rw [Json.get] at h
  cases hlookup : fragment.lookup "index" with
  | none => simp [hlookup] at h
  | some value => simpa [hlookup] using h

/-- The slots of a splitting, in their order, are the calls of the message. -/
theorem Splits.sorted (hsplits : Splits message deltas) (hslots : SlotsOf (deltas.flatMap deltaFragments) slots) :
    ∃ sorted, sortedSlots slots = .ok sorted ∧
      List.Forall₂ (fun entry call => ∃ fields, entry.2.rebuild = some fields ∧ pyEq (.obj fields) (.obj call.fields) = true)
        sorted message.calls := by
  have hindex : ∀ index ∈ (deltas.flatMap deltaFragments).map fragmentIndex,
      ∃ n < message.calls.length, index = .int (n : ℕ) := by
    intro index hmem
    obtain ⟨fragment, hfragment, rfl⟩ := mem_map.mp hmem
    obtain ⟨n, hn, hget⟩ := hsplits.index fragment hfragment
    exact ⟨n, hn, fragmentIndex_of_get hget⟩
  have hall : ∀ n < message.calls.length, Json.int (n : ℕ) ∈ (deltas.flatMap deltaFragments).map fragmentIndex := by
    intro n hn
    obtain ⟨first, rest, hat, -⟩ := hsplits.call n _ (getElem?_eq_getElem hn)
    have hfirst : first ∈ fragmentsAt (.int n) (deltas.flatMap deltaFragments) := hat ▸ mem_cons_self
    obtain ⟨hmem, heq⟩ := mem_filter.mp hfirst
    obtain ⟨m, _, hm⟩ := hindex _ (mem_map_of_mem hmem)
    rw [hm, pyEq_int] at heq
    exact heq ▸ hm ▸ mem_map_of_mem hmem
  obtain ⟨sorted, hsorted, hmem, hpos⟩ := sortedSlots_of_positions hslots.keys hindex hall
  refine ⟨sorted, hsorted, forall₂_of_positions hpos ?_⟩
  intro entry hentry call hcall
  obtain ⟨n, _, hn⟩ := hindex _ (hslots.keys.subset _ (mem_map_of_mem (hmem entry hentry)))
  rw [hn] at hcall
  obtain ⟨first, rest, hat, hsplit⟩ := hsplits.call n call hcall
  have hslot := hslots.slot entry (hmem entry hentry)
  rw [hn, hat] at hslot
  exact rebuild_of_callSlot hsplit (callSlot_of_foldlM hsplit hslot)

/-! ### The message again -/

theorem lookup_callsField {as bs : List Fields} (h : List.Forall₂ (fun a b => pyEq (.obj a) (.obj b) = true) as bs)
    (key : String) : ((callsField as).lookup key).map normal = ((callsField bs).lookup key).map normal := by
  cases h with
  | nil => rfl
  | cons hab hrest =>
    rw [callsField, callsField, if_neg (by simp), if_neg (by simp), lookup_cons_eq_ite, lookup_cons_eq_ite]
    split
    · refine congrArg some (pyEq_iff.mp (pyEq_arr ?_))
      exact forall₂_map_left_iff.mpr (forall₂_map_right_iff.mpr (.cons hab hrest))
    · rfl

theorem forall₂_filterMap_left {α β γ : Type} {f : α → Option β} {r : β → γ → Prop} {as : List α} {cs : List γ}
    (h : List.Forall₂ (fun a c => ∃ b, f a = some b ∧ r b c) as cs) : List.Forall₂ r (as.filterMap f) cs := by
  induction h with
  | nil => exact .nil
  | cons hac _ ih =>
    obtain ⟨b, hb, hr⟩ := hac
    rw [filterMap_cons_some hb]
    exact .cons hr ih

theorem role_of_splits (h : ∀ delta ∈ deltas, get delta "role" = .null ∨ get delta "role" = .str "assistant")
    {role : Json} (hrole : orElse role (.str "assistant") = .str "assistant") :
    orElse (deltas.foldl (fun role delta => orElse (get delta "role") role) role) (.str "assistant") = .str "assistant" := by
  induction deltas generalizing role with
  | nil => exact hrole
  | cons delta deltas ih =>
    rw [forall_mem_cons] at h
    rw [foldl_cons]
    apply ih h.2
    obtain hnull | hassistant := h.1
    · rw [hnull]
      exact hrole
    · rw [hassistant]
      rfl

/-- What has been collected from a splitting is turned into the message. -/
theorem buildMessage_of_gathered {capture : AssistantCapture} (hsplits : Splits message deltas)
    (h : Gathered deltas capture) (hfragments : (deltas.flatMap callItems).map fieldsOf = deltas.flatMap deltaFragments) :
    ∃ rebuilt, capture.buildMessage = .ok rebuilt ∧ pyEq (.obj rebuilt) (.obj message.fields) = true := by
  have hslots := slotsOf_foldlM h.calls
  rw [hfragments] at hslots
  obtain ⟨sorted, hsorted, hcalls⟩ := hsplits.sorted hslots
  have hcontent : joinTexts capture.contentParts = .ok (message.content.getD "") := h.content ▸ hsplits.content.joinTexts
  have hrefusal : joinTexts capture.refusalParts = .ok (message.refusal.getD "") := h.refusal ▸ hsplits.refusal.joinTexts
  have hreasoning : (fun key => textField key.key (String.join (capture.reasoningParts key))) =
      fun key => optionalField key.key (message.reasoning key) := by
    funext key
    rw [h.reasoning, join_addReasoning [] (hsplits.reasoning key).fragment, (hsplits.reasoning key).join,
      String.join_nil, String.empty_append, textField_getD key.key (message.reasoning_ne key)]
  have hrole : orElse capture.role (.str "assistant") = .str "assistant" := h.role ▸ role_of_splits hsplits.role rfl
  have hbuild : capture.buildMessage = .ok (
      [("role", .str "assistant"), ("content", (message.content.map Json.str).getD .null)]
        ++ ReasoningKey.all.flatMap (fun key => optionalField key.key (message.reasoning key))
        ++ callsField (sorted.filterMap (·.2.rebuild)) ++ optionalField "refusal" message.refusal) := by
    rw [AssistantCapture.buildMessage, hcontent, hrefusal, hsorted, hreasoning, hrole]
    rw [← textOrNone_getD message.content_ne, ← textField_getD "refusal" message.refusal_ne]
    rfl
  refine ⟨_, hbuild, pyEq_obj fun key => ?_⟩
  have hlookup := lookup_callsField (forall₂_map_right_iff.mpr (forall₂_filterMap_left hcalls)) key
  simp only [AssistantMessage.fields, lookup_append, Option.map_or, hlookup]

/-! ### The chunks -/

theorem deltaOf_eq {choice : Fields} (hdelta : get choice "delta" = .obj delta) (hmessage : get choice "message" = .null) :
    deltaOf choice = .obj delta := by
  rw [deltaOf, hdelta, hmessage]
  cases delta <;> rfl

theorem Carries.eventFields_eq {payload : Json} (h : Carries payload delta) : eventFields payload = delta := by
  cases h with
  | choice hchoices hdelta hmessage =>
    rw [eventFields, eventDelta, hchoices, choicesDelta, choiceDelta, deltaOf_eq hdelta hmessage]
    rfl
  | bare hchoices =>
    rw [eventFields, eventDelta, choicesDelta.eq_def]
    split
    · rename_i hc
      simp [hc, truthy] at hchoices
    · rfl

theorem Carries.reads {payload : Json} (h : Carries payload delta) (hcalls : callsShape (get delta "tool_calls") = true) :
    eventReads payload = true := by
  cases h with
  | choice hchoices hdelta hmessage =>
    rw [eventReads, hchoices, choicesRead, choiceReads, deltaOf_eq hdelta hmessage]
    exact hcalls
  | bare hchoices =>
    rw [eventReads, choicesRead.eq_def]
    split
    · rename_i hc
      simp [hc, truthy] at hchoices
    · rw [hchoices]
      rfl

theorem textLike_of_fragment (h : value = .null ∨ ∃ part, value = .str part) : textLike value = true := by
  obtain rfl | ⟨part, rfl⟩ := h
  · rfl
  · rfl

theorem CallSplits.shape (h : CallSplits call first rest) (hmem : fragment ∈ first :: rest) (kind : ToolKind) :
    containerShape kind.textKey (get fragment kind.key) = true := by
  by_cases hkind : kind = call.kind
  · subst hkind
    obtain hnull | ⟨container, hcontainer⟩ := h.own fragment hmem
    · rw [hnull]
      rfl
    · have hname := h.name.fragment _ (mem_map_of_mem hmem)
      have htext := h.text.fragment _ (mem_map_of_mem hmem)
      rw [hcontainer] at hname htext ⊢
      exact Bool.and_eq_true_iff.mpr ⟨textLike_of_fragment hname, textLike_of_fragment htext⟩
  · have hother : kind = call.kind.other := by
      revert hkind
      cases kind <;> cases call.kind <;> simp [ToolKind.other]
    rw [hother, h.other fragment hmem]
    rfl

theorem Splits.callsShape (h : Splits message deltas) (hdelta : delta ∈ deltas) :
    callsShape (get delta "tool_calls") = true := by
  obtain hnull | ⟨fragments, harr⟩ := h.calls delta hdelta
  · rw [hnull]
    rfl
  · rw [harr, ContextProxy.callsShape, all_eq_true]
    intro call hcall
    obtain ⟨fragment, hfragment, rfl⟩ := mem_map.mp hcall
    have hmem : fragment ∈ deltas.flatMap deltaFragments := by
      refine mem_flatMap.mpr ⟨delta, hdelta, ?_⟩
      rw [deltaFragments, harr]
      exact mem_map.mpr ⟨.obj fragment, hcall, rfl⟩
    obtain ⟨n, hn, hindex⟩ := h.index fragment hmem
    obtain ⟨first, rest, hat, hsplits⟩ := h.call n _ (getElem?_eq_getElem hn)
    have hat' : fragment ∈ first :: rest := by
      rw [← hat, fragmentsAt, mem_filter]
      exact ⟨hmem, by rw [fragmentIndex_of_get hindex]; exact pyEq_refl _⟩
    rw [fragmentShape, fragmentIndex_of_get hindex]
    exact Bool.and_eq_true_iff.mpr ⟨hsplits.shape hat' .function, hsplits.shape hat' .custom⟩

theorem Splits.callItems (h : Splits message deltas) :
    (deltas.flatMap callItems).map fieldsOf = deltas.flatMap deltaFragments := by
  rw [map_flatMap]
  refine flatMap_congr fun delta hdelta => ?_
  rw [ContextProxy.callItems, deltaFragments]
  obtain hnull | ⟨fragments, harr⟩ := h.calls delta hdelta
  · rw [hnull]
    rfl
  · rw [harr]
    cases fragments <;> rfl

/-- Whichever way a message is split, the capture returns it. -/
theorem buildMessage_of_splits (message : AssistantMessage) {deltas : List Fields} {payloads : List Json}
    (hsplits : Splits message deltas) (hcarries : List.Forall₂ Carries payloads deltas) (maxBytes : Option ℕ) :
    ∃ capture rebuilt, payloads.foldlM AssistantCapture.absorb { maxBytes } = .ok capture ∧
      capture.buildMessage = .ok rebuilt ∧ pyEq (.obj rebuilt) (.obj message.fields) = true := by
  have hdeltas : payloads.map eventFields = deltas := by
    clear hsplits
    induction hcarries with
    | nil => rfl
    | cons hcarry _ ih => rw [map_cons, hcarry.eventFields_eq, ih]
  have hreads : ∀ payload ∈ payloads, eventReads payload = true := by
    intro payload hpayload
    obtain ⟨delta, hdelta, hcarry⟩ := exists_right_of_forall₂ hcarries hpayload
    exact hcarry.reads (hsplits.callsShape hdelta)
  obtain ⟨capture, hcapture⟩ := (exists_foldlM_iff exists_absorb { maxBytes }).mpr hreads
  have hgathered := (gathered_of_foldlM hcapture).1
  rw [hdeltas] at hgathered
  obtain ⟨rebuilt, hrebuilt, heq⟩ := buildMessage_of_gathered hsplits hgathered hsplits.callItems
  exact ⟨capture, rebuilt, hcapture, hrebuilt, heq⟩

def lookMessage : AssistantMessage where
  content := some "Let me see"
  refusal := none
  reasoning := fun _ => none
  calls := [{ id := "call_1", kind := .function, name := "look", text := "[1]", extra := [("provider", .int 7)]
              id_ne := by decide, extra_unknown := by decide }]
  content_ne := by decide
  refusal_ne := by decide
  reasoning_ne := fun _ => by decide

/-- The message in three deltas. The second has the end of the text and the start of the call. -/
def lookDeltas : List Fields :=
  [[("role", .str "assistant"), ("content", .str "Let me ")],
    [("content", .str "see"), ("tool_calls", .arr [.obj [("index", .int 0), ("id", .str "call_1"), ("type", .str "function"),
      ("provider", .int 7), ("function", .obj [("name", .str "look"), ("arguments", .str "[")])]])],
    [("tool_calls", .arr [.obj [("index", .int 0), ("function", .obj [("arguments", .str "1]")])]])]]

theorem splits_look : Splits lookMessage lookDeltas where
  role := by simp [lookDeltas, Json.get, lookup_cons_eq_ite]
  content := ⟨by simp [lookDeltas, Json.get, lookup_cons_eq_ite], by decide⟩
  refusal := ⟨by simp [lookDeltas, Json.get, lookup_cons_eq_ite], by decide⟩
  reasoning key := by
    cases key
    all_goals exact ⟨by simp [lookDeltas, Json.get, lookup_cons_eq_ite, ReasoningKey.key], by decide⟩
  calls := forall_mem_cons.mpr ⟨.inl rfl, forall_mem_cons.mpr ⟨.inr ⟨[_], rfl⟩,
    forall_mem_cons.mpr ⟨.inr ⟨[_], rfl⟩, by simp⟩⟩⟩
  index := forall_mem_cons.mpr ⟨⟨0, by decide, rfl⟩, forall_mem_cons.mpr ⟨⟨0, by decide, rfl⟩, by simp⟩⟩
  call := by
    intro n call hcall
    cases n with
    | zero =>
      obtain rfl := Option.some.inj hcall
      refine ⟨_, [_], rfl, rfl, rfl, ?_, by decide, ?_, by decide, ⟨?_, by decide⟩, ⟨?_, by decide⟩⟩
      · intro key hkey
        simp only [fragmentKeys, mem_cons, not_or] at hkey
        simp [fieldsOf, lookup_cons_eq_ite, hkey]
      · exact forall_mem_cons.mpr ⟨.inr ⟨_, rfl⟩, forall_mem_cons.mpr ⟨.inr ⟨_, rfl⟩, by simp⟩⟩
      · exact forall_mem_cons.mpr ⟨.inr ⟨_, rfl⟩, forall_mem_cons.mpr ⟨.inl rfl, by simp⟩⟩
      · exact forall_mem_cons.mpr ⟨.inr ⟨_, rfl⟩, forall_mem_cons.mpr ⟨.inr ⟨_, rfl⟩, by simp⟩⟩
    | succ n => cases hcall

theorem buildMessage_of_splits_look : ∃ capture rebuilt,
    (lookDeltas.map fun delta => Json.obj [("choices", .arr [.obj [("delta", .obj delta)]])]).foldlM
      AssistantCapture.absorb { maxBytes := none } = .ok capture ∧
    capture.buildMessage = .ok rebuilt ∧ pyEq (.obj rebuilt) (.obj lookMessage.fields) = true := by
  apply buildMessage_of_splits lookMessage splits_look
  rw [forall₂_map_left_iff, forall₂_same]
  intro delta _
  exact .choice rfl rfl rfl

end ContextProxy
