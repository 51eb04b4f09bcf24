import ContextProxy.Capture.Folding
import ContextProxy.Lib.JsonText
import Mathlib.Algebra.Order.BigOperators.Group.List
import Mathlib.Data.List.DropRight

/-!
# Events in frames

A provider writes each event as one line of JSON text and sends `data: `, the line and a blank line. The capture gets the bytes in chunks, takes the frames apart, and hands the values it reads to `_absorb`.

It uses `str.splitlines`, which also splits at U+0085, U+2028 and U+2029, and these can stand in a JSON string. A text with one of them is cut inside of a string: its first piece cannot be read, and a later piece, if it can, has no line break in a string, since its strings were outside of those of the text. So the event is lost, whatever is read in its place.
-/

namespace ContextProxy

open Json
open List hiding lex

/-! ### What is absorbed -/

/-- The values that the loop of `finalize` hands to `_absorb`, up to the one that makes it raise. -/
def absorbedTexts (loads : String → Loaded) : AssistantCapture → List String → List Json
  | _, [] => []
  | capture, text :: texts =>
    match loads text with
    | .malformed => absorbedTexts loads capture texts
    | .tooDeep => []
    | .value payload =>
      payload :: match capture.absorb payload with
        | .ok capture => absorbedTexts loads capture texts
        | .error _ => []

def AssistantCapture.absorbed (loads : String → Loaded) (capture : AssistantCapture) : List Json :=
  if capture.overflowed then [] else absorbedTexts loads capture (dataTexts (Utf8.decode capture.buffer))

theorem Loaded.toOption_eq_some {loaded : Loaded} {value : Json} : loaded.toOption = some value ↔ loaded = .value value := by
  cases loaded <;> simp [Loaded.toOption]

def valuesOf (loads : String → Loaded) (texts : List String) : List Json := texts.filterMap fun text => (loads text).toOption

theorem absorbedTexts_prefix (loads : String → Loaded) (capture : AssistantCapture) (texts : List String) :
    absorbedTexts loads capture texts <+: valuesOf loads texts := by
  induction texts generalizing capture with
  | nil => exact prefix_refl _
  | cons text texts ih =>
    rw [absorbedTexts, valuesOf, filterMap_cons]
    cases loads text with
    | malformed => exact ih capture
    | tooDeep => exact nil_prefix
    | value payload =>
      refine (prefix_cons_inj payload).mpr ?_
      cases capture.absorb payload with
      | ok capture => exact ih capture
      | error e => exact nil_prefix

theorem absorbedTexts_of_ok {loads : String → Loaded} {texts : List String} {capture capture' : AssistantCapture}
    (h : capture.absorbTexts loads texts = .ok capture') : absorbedTexts loads capture texts = valuesOf loads texts := by
  induction texts generalizing capture with
  | nil => rfl
  | cons text texts ih =>
    rw [AssistantCapture.absorbTexts] at h
    rw [absorbedTexts, valuesOf, filterMap_cons]
    cases hloads : loads text with
    | malformed =>
      rw [hloads] at h
      exact ih h
    | tooDeep =>
      rw [hloads] at h
      cases h
    | value payload =>
      rw [hloads] at h
      obtain ⟨next, hnext, hrest⟩ := bind_eq_ok.mp h
      rw [mapError_eq_ok] at hnext
      refine congrArg (payload :: ·) ?_
      rw [hnext]
      exact ih hrest

/-! ### Lines -/

theorem splitLines_cons {c : Char} (h : c ≠ '\r') (line cs : List Char) :
    splitLines line (c :: cs) = if isLineBreak c then line.reverse :: splitLines [] cs else splitLines (c :: line) cs := by
  rw [splitLines]
  exact fun _ hc => absurd hc h

theorem splitLines_append {as : List Char} (h : ∀ c ∈ as, isLineBreak c = false) (line bs : List Char) :
    splitLines line (as ++ bs) = splitLines (as.reverse ++ line) bs := by
  induction as generalizing line with
  | nil => rfl
  | cons c as ih =>
    rw [forall_mem_cons] at h
    have hc : c ≠ '\r' := fun heq => absurd h.1 (heq ▸ by decide)
    rw [cons_append, splitLines_cons hc, h.1, if_neg Bool.false_ne_true, ih h.2, reverse_cons, append_assoc]
    rfl

variable {piece : List Char}

/-- A line is the first one, up to the first line break, or it follows a line break. -/
theorem mem_splitLines {line cs : List Char} (hcr : '\r' ∉ cs) (h : piece ∈ splitLines line cs) :
    (∃ first rest, piece = line.reverse ++ first ∧ cs = first ++ rest ∧ (∀ c ∈ first, isLineBreak c = false) ∧
      ∀ c ∈ rest.head?, isLineBreak c = true) ∨
    ∃ before c after, cs = before ++ c :: (piece ++ after) ∧ isLineBreak c = true := by
  induction cs generalizing line with
  | nil =>
    rw [splitLines] at h
    split at h
    · cases h
    · refine .inl ⟨[], [], ?_, rfl, by simp, by simp⟩
      rw [mem_singleton.mp h, append_nil]
  | cons c cs ih =>
    obtain ⟨hc, hcs⟩ := not_or.mp (mt mem_cons.mpr hcr)
    rw [splitLines_cons (Ne.symm hc)] at h
    split at h
    · rename_i hbreak
      rcases mem_cons.mp h with rfl | h
      · exact .inl ⟨[], c :: cs, (append_nil _).symm, rfl, by simp, by simpa using hbreak⟩
      · obtain ⟨first, rest, rfl, hcut, -⟩ | ⟨before, d, after, hcut, hd⟩ := ih hcs h
        · exact .inr ⟨[], c, rest, congrArg (c :: ·) hcut, hbreak⟩
        · exact .inr ⟨c :: before, d, after, congrArg (c :: ·) hcut, hd⟩
    · rename_i hbreak
      obtain ⟨first, rest, rfl, hcut, hfirst, hrest⟩ | ⟨before, d, after, hcut, hd⟩ := ih hcs h
      · refine .inl ⟨c :: first, rest, by simp, congrArg (c :: ·) hcut, ?_, hrest⟩
        exact forall_mem_cons.mpr ⟨Bool.eq_false_iff.mpr hbreak, hfirst⟩
      · exact .inr ⟨c :: before, d, after, congrArg (c :: ·) hcut, hd⟩

theorem splitEvents_append {as : List Char} (h : '\n' ∉ as) (event bs : List Char) :
    splitEvents event (as ++ '\n' :: '\n' :: bs) = (event.reverse ++ as) :: splitEvents [] bs := by
  induction as generalizing event with
  | nil => rw [nil_append, splitEvents, append_nil]
  | cons c as ih =>
    obtain ⟨hc, has⟩ := not_or.mp (mt mem_cons.mpr h)
    rw [cons_append, splitEvents, ih has, reverse_cons, append_assoc]
    · rfl
    · exact fun _ heq => absurd heq.symm hc

/-! ### Whitespace around a text -/

section Reading

open JsonText

variable {floatOf : List Char → ℚ} {text : List Char} {tokens : List Token}

variable {c : Char} {value : Json} {state' : State} {units : List ℕ}

theorem not_mark_of_isSpace (h : isSpace c = true) : isMark c = false := by
  rw [← Bool.not_eq_true]
  intro hmark
  have hrange := toNat_of_isMark hmark
  simp only [isSpace, Bool.or_eq_true, Bool.and_eq_true, decide_eq_true_eq] at h
  omega

theorem strip_eq (text : List Char) : strip text = (text.dropWhile isSpace).rdropWhile isSpace := rfl

theorem lex_dropWhile (h : lex floatOf text = some tokens) : lex floatOf (text.dropWhile isSpace) = some tokens := by
  induction text with
  | nil => exact h
  | cons c text ih =>
    rw [dropWhile_cons]
    split
    · rename_i hspace
      exact ih (lex_cons_of_not_mark (not_mark_of_isSpace hspace) h)
    · exact h

theorem lex_rdropWhile (h : lex floatOf text = some tokens) : lex floatOf (text.rdropWhile isSpace) = some tokens := by
  induction text using List.reverseRecOn with
  | nil => exact h
  | append_singleton text c ih =>
    rw [rdropWhile_concat]
    split
    · rename_i hspace
      exact ih (lex_concat_of_not_mark (not_mark_of_isSpace hspace) h)
    · exact h

theorem read_strip (h : read floatOf text = some value) : read floatOf (strip text) = some value := by
  obtain ⟨tokens, htokens, hparse⟩ := Option.bind_eq_some_iff.mp h
  exact Option.bind_eq_some_iff.mpr ⟨tokens, lex_rdropWhile (lex_dropWhile htokens), hparse⟩

/-! ### Cutting a text in a string -/

def isSeparator (c : Char) : Bool := c.toNat = 0x85 || c.toNat = 0x2028 || c.toNat = 0x2029

theorem isLineBreak_of_isSeparator (h : isSeparator c = true) : isLineBreak c = true := by
  simp only [isSeparator, Bool.or_eq_true, decide_eq_true_eq] at h
  simp only [isLineBreak, Bool.or_eq_true, Bool.and_eq_true, decide_eq_true_eq]
  omega

theorem isSpace_of_isLineBreak (h : isLineBreak c = true) : isSpace c = true := by
  simp only [isLineBreak, Bool.or_eq_true, Bool.and_eq_true, decide_eq_true_eq] at h
  simp only [isSpace, Bool.or_eq_true, Bool.and_eq_true, decide_eq_true_eq]
  omega

theorem not_blank_of_isLineBreak (h : isLineBreak c = true) (hn : c ≠ '\n') (hr : c ≠ '\r') : isBlank c = false := by
  rw [← Bool.not_eq_true]
  intro hblank
  simp only [isBlank, Bool.or_eq_true, decide_eq_true_eq] at hblank
  rcases hblank with ((rfl | rfl) | rfl) | rfl
  · cases h
  · cases h
  · exact hn rfl
  · exact hr rfl

theorem not_blank_of_isSeparator (h : isSeparator c = true) : isBlank c = false := by
  refine not_blank_of_isLineBreak (isLineBreak_of_isSeparator h) ?_ ?_
  all_goals
    rintro rfl
    cases h

theorem step_lineBreak {state : State} (hbreak : isLineBreak c = true) (hn : c ≠ '\n') (hr : c ≠ '\r')
    (h : step floatOf state c = some (state', tokens)) :
    isSeparator c = true ∧ ∃ units units', state = .str units ∧ state' = .str units' := by
  obtain ⟨word, -, hblank, -⟩ | ⟨units, rfl, hvisible, rfl, -⟩ :=
    step_of_not_mark (not_mark_of_isSpace (isSpace_of_isLineBreak hbreak)) h
  · rw [not_blank_of_isLineBreak hbreak hn hr] at hblank
    cases hblank
  · refine ⟨?_, units, _, rfl, rfl⟩
    simp only [isLineBreak, Bool.or_eq_true, Bool.and_eq_true, decide_eq_true_eq] at hbreak
    simp only [isSeparator, Bool.or_eq_true, decide_eq_true_eq]
    omega

/-- Where a text is cut: the part before the line break ends in a string, and the part after it starts in one. -/
theorem run_cut {before after : List Char} {state : State} (hbreak : isLineBreak c = true) (hn : c ≠ '\n') (hr : c ≠ '\r')
    (h : run floatOf state (before ++ c :: after) = some (state', tokens)) :
    isSeparator c = true ∧ (∃ units tokens, run floatOf state before = some (.str units, tokens)) ∧
      ∃ units tokens, run floatOf (.str units) after = some (state', tokens) := by
  obtain ⟨mid, first, _, hbefore, hrest, -⟩ := run_append_eq_some.mp h
  obtain ⟨next, _, rest, hstep, hafter, -⟩ := run_cons_eq_some.mp hrest
  obtain ⟨hsep, units, units', rfl, rfl⟩ := step_lineBreak hbreak hn hr hstep
  exact ⟨hsep, ⟨units, first, hbefore⟩, units', rest, hafter⟩

theorem run_dropWhile (h : run floatOf (.str units) text = some (state', tokens)) :
    ∃ units, run floatOf (.str units) (text.dropWhile isSpace) = some (state', tokens) := by
  induction text generalizing units tokens with
  | nil => exact ⟨units, h⟩
  | cons c text ih =>
    rw [dropWhile_cons]
    split
    · rename_i hspace
      obtain ⟨next, first, rest, hstep, hrest, rfl⟩ := run_cons_eq_some.mp h
      obtain ⟨word, hword, -⟩ | ⟨_, -, -, rfl, rfl⟩ := step_of_not_mark (not_mark_of_isSpace hspace) hstep
      · cases hword
      · exact ih hrest
    · exact ⟨units, h⟩

/-- A text that ends in a string cannot be read, with or without the whitespace around it. -/
theorem lex_strip_of_run (h : run floatOf (.out []) text = some (.str units, tokens)) :
    lex floatOf (strip text) = none := by
  have hleft : run floatOf (.out []) (text.dropWhile isSpace) = some (.str units, tokens) := by
    induction text with
    | nil => exact h
    | cons c text ih =>
      rw [dropWhile_cons]
      split
      · rename_i hspace
        obtain ⟨next, first, rest, hstep, hrest, rfl⟩ := run_cons_eq_some.mp h
        obtain ⟨word, hword, -, rfl, hflush⟩ | ⟨_, hstr, -⟩ := step_of_not_mark (not_mark_of_isSpace hspace) hstep
        · cases hword
          obtain rfl := Option.some.inj hflush
          exact ih hrest
        · cases hstr
      · exact h
  have hright : ∀ {text : List Char}, (∃ units tokens, run floatOf (.out []) text = some (.str units, tokens)) →
      ∃ units tokens, run floatOf (.out []) (text.rdropWhile isSpace) = some (.str units, tokens) := by
    intro text
    induction text using List.reverseRecOn with
    | nil => exact id
    | append_singleton text c ih =>
      intro ⟨units, tokens, h⟩
      rw [rdropWhile_concat]
      split
      · rename_i hspace
        exact ih (run_str_of_concat (not_mark_of_isSpace hspace) h)
      · exact ⟨units, tokens, h⟩
  obtain ⟨units', tokens', hrun⟩ := hright ⟨units, tokens, hleft⟩
  rw [lex, strip_eq, hrun]
  rfl

theorem plain_strip_of_run {skipped : List Token} (houter : run floatOf (.str units) text = some (state', skipped))
    (h : lex floatOf (strip text) = some tokens) : Plain tokens := by
  obtain ⟨units', hrun⟩ := run_dropWhile houter
  have hcut : strip text ++ (text.dropWhile isSpace).rtakeWhile isSpace = text.dropWhile isSpace :=
    rdropWhile_append_rtakeWhile
  rw [← hcut] at hrun
  obtain ⟨mid, first, _, hfirst, -⟩ := run_append_eq_some.mp hrun
  exact plain_of_run hfirst h

theorem anyChar_of_plain (hplain : Plain tokens) (h : parse tokens = some value) : anyChar isSeparator value = false := by
  rw [parse_anyChar h, any_eq_false]
  intro token htoken
  cases token with
  | text s =>
    rw [Token.anyChar, any_eq_true]
    intro h
    obtain ⟨c, hc, hsep⟩ := h
    rcases hplain s htoken c hc with hmark | hblank
    · rw [not_mark_of_isSpace (isSpace_of_isLineBreak (isLineBreak_of_isSeparator hsep))] at hmark
      cases hmark
    · rw [not_blank_of_isSeparator hsep] at hblank
      cases hblank
  | lbrace | rbrace | lbracket | rbracket | colon | comma | atom => exact Bool.false_ne_true

theorem anyChar_of_mem (hc : c ∈ text) (hsep : isSeparator c = true) (h : read floatOf text = some value) :
    anyChar isSeparator value = true := by
  obtain ⟨tokens, htokens, hparse⟩ := Option.bind_eq_some_iff.mp h
  have hmark := not_mark_of_isSpace (isSpace_of_isLineBreak (isLineBreak_of_isSeparator hsep))
  obtain ⟨s, hs, hcs⟩ := exists_text_of_mem hmark (not_blank_of_isSeparator hsep) hc htokens
  rw [parse_anyChar hparse, any_eq_true]
  exact ⟨.text s, hs, any_eq_true.mpr ⟨c, hcs, hsep⟩⟩

end Reading

/-! ### Frames -/

/-- `json.loads` of an interpreter with limits: it returns what the text stands for, if the value fits. -/
structure Loader where
  floatOf : List Char → ℚ
  loads : String → Loaded
  /-- Nested no deeper, and with no longer integers, than the interpreter allows. -/
  fits : Json → Bool
  loads_eq_value : ∀ {text : String} {value : Json},
    loads text = .value value ↔ JsonText.read floatOf text.toList = some value ∧ fits value = true

structure EventLine (loader : Loader) where
  object : Fields
  text : List Char
  no_lf : '\n' ∉ text
  no_cr : '\r' ∉ text
  reads : JsonText.read loader.floatOf text = some (.obj object)

variable {loader : Loader}

def EventLine.frame (line : EventLine loader) : List Char := "data: ".toList ++ line.text ++ "\n\n".toList

def EventLine.texts (line : EventLine loader) : List String :=
  (splitLines [] ("data: ".toList ++ line.text)).filterMap dataText

theorem EventLine.frame_append (line : EventLine loader) (rest : List Char) :
    line.frame ++ rest = ("data: ".toList ++ line.text) ++ '\n' :: '\n' :: rest :=
  append_assoc _ _ _

theorem dataTexts_frames (lines : List (EventLine loader)) :
    dataTexts (lines.flatMap EventLine.frame) = lines.flatMap EventLine.texts := by
  have hevents : splitEvents [] (lines.flatMap EventLine.frame) = lines.map (fun line => "data: ".toList ++ line.text) ++ [[]] := by
    induction lines with
    | nil => rfl
    | cons line lines ih =>
      have hlf : '\n' ∉ "data: ".toList ++ line.text := by
        rw [mem_append, not_or]
        exact ⟨by decide, line.no_lf⟩
      rw [flatMap_cons, line.frame_append, splitEvents_append hlf, ih]
      rfl
  rw [dataTexts, hevents, flatMap_append, flatMap_map]
  exact append_nil _

theorem dataText_append (text : List Char) : dataText ("data:".toList ++ text) =
    if strip text = [] ∨ strip text = "[DONE]".toList then none else some (String.ofList (strip text)) := rfl

theorem eq_append_of_dataText {data : String} (h : dataText piece = some data) :
    ∃ text, piece = "data:".toList ++ text ∧ data.toList = strip text := by
  have hprefix : "data:".toList <+: piece := by
    rw [dataText] at h
    split at h
    · exact isPrefixOf_iff_prefix.mp ‹_›
    · cases h
  obtain ⟨text, rfl⟩ := hprefix
  rw [dataText_append] at h
  split at h
  · cases h
  · exact ⟨text, rfl, by rw [← Option.some.inj h, String.toList_ofList]⟩

theorem splitLines_frame (text : List Char) :
    splitLines [] ("data: ".toList ++ text) = splitLines "data: ".toList.reverse text := by
  have hplain : ∀ c ∈ "data: ".toList, isLineBreak c = false := by simp [isLineBreak]
  rw [splitLines_append hplain, append_nil]

namespace EventLine

variable (line : EventLine loader)

theorem exists_run : ∃ state tokens, JsonText.run loader.floatOf (.out []) line.text = some (state, tokens) := by
  obtain ⟨tokens, htokens, -⟩ := Option.bind_eq_some_iff.mp line.reads
  obtain ⟨state, first, -, hrun, -⟩ := JsonText.lex_eq_some.mp htokens
  exact ⟨state, first, hrun⟩

theorem cut {before after : List Char} {c : Char} (hcut : line.text = before ++ c :: after) (hbreak : isLineBreak c = true) :
    isSeparator c = true ∧ (∃ units tokens, JsonText.run loader.floatOf (.out []) before = some (.str units, tokens)) ∧
      ∃ state units tokens, JsonText.run loader.floatOf (.str units) after = some (state, tokens) := by
  have hc : c ∈ line.text := hcut ▸ mem_append_right _ mem_cons_self
  obtain ⟨state, tokens, hrun⟩ := line.exists_run
  rw [hcut] at hrun
  obtain ⟨hsep, hbefore, hafter⟩ := run_cut hbreak (fun h => line.no_lf (h ▸ hc)) (fun h => line.no_cr (h ▸ hc)) hrun
  exact ⟨hsep, hbefore, state, hafter⟩

variable {line}

theorem texts_of_clean (h : ∀ c ∈ line.text, isSeparator c = false) : line.texts = [String.ofList (strip line.text)] := by
  have hbreak : ∀ c ∈ line.text, isLineBreak c = false := by
    intro c hc
    rw [← Bool.not_eq_true]
    intro hbreak
    obtain ⟨before, after, hcut⟩ := append_of_mem hc
    have hsep := (line.cut hcut hbreak).1
    rw [h c hc] at hsep
    cases hsep
  have hlines : splitLines [] ("data: ".toList ++ line.text) = ["data:".toList ++ ' ' :: line.text] := by
    have happend := splitLines_append hbreak "data: ".toList.reverse []
    rw [append_nil] at happend
    rw [splitLines_frame, happend, splitLines, if_neg (by simp), reverse_append, reverse_reverse, reverse_reverse]
    rfl
  have hread := read_strip line.reads
  have hdata : ¬(strip line.text = [] ∨ strip line.text = "[DONE]".toList) := by
    rintro (hnil | hdone)
    · rw [hnil] at hread
      cases hread
    · rw [hdone] at hread
      cases hread
  have hsome : dataText ("data:".toList ++ ' ' :: line.text) = some (String.ofList (strip line.text)) := if_neg hdata
  rw [texts, hlines, filterMap_cons_some hsome]
  rfl

theorem anyChar_of_dirty {c : Char} (hc : c ∈ line.text) (hsep : isSeparator c = true) {value : Json}
    (h : value ∈ valuesOf loader.loads line.texts) : JsonText.anyChar isSeparator value = false := by
  obtain ⟨data, hdata, hvalue⟩ := mem_filterMap.mp h
  obtain ⟨piece, hpiece, htext⟩ := mem_filterMap.mp hdata
  obtain ⟨text, rfl, hstrip⟩ := eq_append_of_dataText htext
  have hread := (loader.loads_eq_value.mp (Loaded.toOption_eq_some.mp hvalue)).1
  rw [hstrip] at hread
  obtain ⟨tokens, hlex, hparse⟩ := Option.bind_eq_some_iff.mp hread
  rw [splitLines_frame] at hpiece
  obtain ⟨first, rest, hfirst, hcut, hclean, hbreak⟩ | ⟨before, d, after, hcut, hbreak⟩ := mem_splitLines line.no_cr hpiece
  · -- the first piece, which ends in a string
    obtain ⟨d, after, rfl⟩ : ∃ d after, rest = d :: after := by
      apply exists_cons_of_ne_nil
      rintro rfl
      rw [append_nil] at hcut
      have := hclean c (hcut ▸ hc)
      rw [isLineBreak_of_isSeparator hsep] at this
      cases this
    obtain ⟨-, ⟨units, skipped, hrun⟩, -⟩ := line.cut hcut (hbreak d rfl)
    obtain rfl : text = ' ' :: first := by
      rw [reverse_reverse] at hfirst
      exact append_cancel_left hfirst
    have hnone : JsonText.lex loader.floatOf (strip first) = none := lex_strip_of_run hrun
    exact absurd (hnone.symm.trans hlex) (by simp)
  · -- a later piece, which starts in one
    obtain ⟨-, -, state, units, skipped, hrun⟩ := line.cut hcut hbreak
    rw [append_assoc] at hrun
    obtain ⟨mid, _, _, hdata, hrest, -⟩ := JsonText.run_append_eq_some.mp hrun
    obtain ⟨next, _, _, htext, -⟩ := JsonText.run_append_eq_some.mp hrest
    obtain ⟨rfl, -⟩ := Prod.ext_iff.mp (Option.some.inj hdata)
    exact anyChar_of_plain (plain_strip_of_run htext hlex) hparse

theorem loads_strip : loader.loads (String.ofList (strip line.text)) = .value (.obj line.object) ↔
    loader.fits (.obj line.object) = true := by
  rw [loader.loads_eq_value, String.toList_ofList]
  exact and_iff_right (read_strip line.reads)

theorem values_of_clean (h : ∀ c ∈ line.text, isSeparator c = false) : valuesOf loader.loads line.texts =
    if loader.fits (.obj line.object) then [.obj line.object] else [] := by
  rw [texts_of_clean h, valuesOf]
  split
  · rename_i hfits
    simp only [filterMap_cons, filterMap_nil, loads_strip.mpr hfits, Loaded.toOption]
  · rename_i hfits
    apply filterMap_cons_none
    rw [Option.eq_none_iff_forall_ne_some]
    intro value hvalue
    have hloads := Loaded.toOption_eq_some.mp hvalue
    have hread := (loader.loads_eq_value.mp hloads).1
    rw [String.toList_ofList, read_strip line.reads] at hread
    exact hfits (loads_strip.mp (Option.some.inj hread ▸ hloads))

end EventLine

/-! ### Streams -/

/-- Events that `_absorb` takes, in frames, cut into chunks anywhere, within the limit. -/
structure EventStream (loader : Loader) where
  lines : List (EventLine loader)
  chunks : List (List UInt8)
  maxBytes : Option ℕ
  framed : chunks.flatten = Utf8.encode (lines.flatMap EventLine.frame)
  within : Fits chunks maxBytes
  processed : ∃ capture, (lines.map fun line => Json.obj line.object).foldlM AssistantCapture.absorb { maxBytes } = .ok capture

/-- The objects of a stream are not among the values that are read, if there are fewer values of some sort. -/
theorem not_prefix_of_lost {lines : List (EventLine loader)} (p : Json → Bool)
    (hle : ∀ line ∈ lines, (valuesOf loader.loads line.texts).countP p ≤ [Json.obj line.object].countP p)
    (hlt : ∃ line ∈ lines, (valuesOf loader.loads line.texts).countP p < [Json.obj line.object].countP p) :
    ¬(lines.map fun line => Json.obj line.object) <+: lines.flatMap fun line => valuesOf loader.loads line.texts := by
  intro hprefix
  have hcount := hprefix.sublist.countP_le (p := p)
  have hmap : (lines.map fun line => Json.obj line.object) = lines.flatMap fun line => [Json.obj line.object] :=
    map_eq_flatMap
  rw [hmap, countP_flatMap, countP_flatMap] at hcount
  exact absurd hcount (Nat.not_le.mpr (sum_lt_sum _ _ hle hlt))

namespace EventStream

variable (stream : EventStream loader)

def fed : AssistantCapture := stream.chunks.foldl AssistantCapture.feed { maxBytes := stream.maxBytes }

theorem fed_eq : stream.fed = { buffer := Utf8.encode (stream.lines.flatMap EventLine.frame), maxBytes := stream.maxBytes } := by
  rw [fed, (fed_foldl stream.chunks stream.maxBytes).holds stream.within, stream.framed]

theorem dataTexts_fed : dataTexts (Utf8.decode stream.fed.buffer) = stream.lines.flatMap EventLine.texts := by
  rw [fed_eq, Utf8.decode_encode, dataTexts_frames]

theorem absorbed_fed : stream.fed.absorbed loader.loads =
    absorbedTexts loader.loads stream.fed (stream.lines.flatMap EventLine.texts) := by
  rw [AssistantCapture.absorbed, dataTexts_fed, if_neg]
  rw [fed_eq]
  exact Bool.false_ne_true

theorem valuesOf_lines : valuesOf loader.loads (stream.lines.flatMap EventLine.texts) =
    stream.lines.flatMap fun line => valuesOf loader.loads line.texts := by
  rw [valuesOf, filterMap_flatMap]
  rfl

variable {stream}

/-- Lines without a separator, and with objects that fit, are all absorbed. -/
theorem absorbed_of_clean
    (h : ∀ line ∈ stream.lines, loader.fits (.obj line.object) = true ∧ ∀ c ∈ line.text, isSeparator c = false) :
    stream.fed.absorbed loader.loads = stream.lines.map fun line => .obj line.object := by
  have hvalues : valuesOf loader.loads (stream.lines.flatMap EventLine.texts) =
      stream.lines.map fun line => .obj line.object := by
    rw [valuesOf_lines, map_eq_flatMap]
    refine flatMap_congr fun line hline => ?_
    rw [EventLine.values_of_clean (h line hline).2, if_pos (h line hline).1]
  have hdeep : ∀ text ∈ stream.lines.flatMap EventLine.texts, loader.loads text ≠ .tooDeep := by
    intro text htext
    obtain ⟨line, hline, htext⟩ := mem_flatMap.mp htext
    obtain ⟨hfits, hclean⟩ := h line hline
    rw [EventLine.texts_of_clean hclean, mem_singleton] at htext
    rw [htext, EventLine.loads_strip.mpr hfits]
    exact nofun
  obtain ⟨capture, hcapture⟩ := (exists_foldlM_iff exists_absorb stream.fed).mpr
    ((exists_foldlM_iff exists_absorb _).mp stream.processed)
  rw [absorbed_fed, absorbedTexts_of_ok (absorbTexts_eq_ok.mpr ⟨hdeep, hvalues.symm ▸ hcapture⟩), hvalues]

section

variable (h : stream.fed.absorbed loader.loads = stream.lines.map fun line => .obj line.object)
include h

theorem prefix_of_absorbed : (stream.lines.map fun line => Json.obj line.object) <+:
      stream.lines.flatMap fun line => valuesOf loader.loads line.texts := by
  rw [← h, absorbed_fed, ← valuesOf_lines]
  exact absorbedTexts_prefix ..

/-- If all events are absorbed, no line has a separator: the values that are read have fewer of them than the objects. -/
theorem clean_of_absorbed : ∀ line ∈ stream.lines, ∀ c ∈ line.text, isSeparator c = false := by
  intro line hline c hc
  by_contra hsep
  rw [Bool.not_eq_false] at hsep
  -- what is read of a line with a separator has none
  have hlost : ∀ (line : EventLine loader) {c : Char}, c ∈ line.text → isSeparator c = true →
      (valuesOf loader.loads line.texts).countP (JsonText.anyChar isSeparator) = 0 := by
    intro line c hc hsep
    rw [countP_eq_zero]
    intro value hvalue
    rw [EventLine.anyChar_of_dirty hc hsep hvalue]
    exact Bool.false_ne_true
  refine not_prefix_of_lost (JsonText.anyChar isSeparator) ?_ ?_ (prefix_of_absorbed h)
  · intro other _
    by_cases hclean : ∃ d ∈ other.text, isSeparator d = true
    · obtain ⟨d, hd, hdsep⟩ := hclean
      rw [hlost other hd hdsep]
      exact Nat.zero_le _
    · rw [EventLine.values_of_clean fun d hd => Bool.not_eq_true _ ▸ fun hdsep => hclean ⟨d, hd, hdsep⟩]
      split
      · exact Nat.le_refl _
      · exact Nat.zero_le _
  · refine ⟨line, hline, ?_⟩
    rw [hlost line hc hsep, countP_singleton, anyChar_of_mem hc hsep line.reads]
    exact Nat.zero_lt_one

theorem fits_of_absorbed (hclean : ∀ line ∈ stream.lines, ∀ c ∈ line.text, isSeparator c = false) :
    ∀ line ∈ stream.lines, loader.fits (.obj line.object) = true := by
  intro line hline
  by_contra hfits
  refine not_prefix_of_lost (fun _ => true) ?_ ?_ (prefix_of_absorbed h)
  · intro other hother
    rw [EventLine.values_of_clean (hclean other hother)]
    split
    · exact Nat.le_refl _
    · exact Nat.zero_le _
  · refine ⟨line, hline, ?_⟩
    rw [EventLine.values_of_clean (hclean line hline), if_neg hfits]
    exact Nat.zero_lt_one

end

/-- All events of a stream are absorbed, once and in order, exactly if no text has one of the line breaks that JSON allows in strings, and no object is too large for the interpreter. -/
theorem absorbed_iff (stream : EventStream loader) :
    stream.fed.absorbed loader.loads = stream.lines.map (fun line => .obj line.object) ↔
      ∀ line ∈ stream.lines, loader.fits (.obj line.object) = true ∧ ∀ c ∈ line.text, isSeparator c = false := by
  refine ⟨fun h line hline => ?_, absorbed_of_clean⟩
  have hclean := clean_of_absorbed h
  exact ⟨fits_of_absorbed h hclean line hline, hclean line hline⟩

def unbounded : Loader where
  floatOf := fun _ => 0
  loads := fun text => (JsonText.read (fun _ => 0) text.toList).elim .malformed .value
  fits := fun _ => true
  loads_eq_value := by
    intro text value
    cases JsonText.read (fun _ => 0) text.toList with
    | none => simp
    | some read => simp

def separatedLine : EventLine unbounded where
  object := [("choices", .arr [.obj [("delta", .obj [("content", .str "a\u2028b")])]])]
  text := "\x7b\"choices\": [\x7b\"delta\": \x7b\"content\": \"a\u2028b\"\x7d\x7d]\x7d".toList
  no_lf := by decide +kernel
  no_cr := by decide +kernel
  reads := by decide +kernel

def separatedStream : EventStream unbounded where
  lines := [separatedLine]
  chunks := [Utf8.encode separatedLine.frame]
  maxBytes := none
  framed := by simp
  within := by trivial
  processed := ⟨_, rfl⟩

/-- The separator cuts the line, and nothing of the event is absorbed. -/
theorem separator_loses_event : separatedStream.fed.absorbed unbounded.loads = [] ∧
      separatedStream.lines.map (fun line => Json.obj line.object) =
        [.obj [("choices", .arr [.obj [("delta", .obj [("content", .str "a\u2028b")])]])]] := by
  refine ⟨?_, rfl⟩
  decide +kernel

end EventStream

end ContextProxy
