import ContextProxy.Capture.Framing
import ContextProxy.Context.Fusion
import ContextProxy.Lib.JsonPrint
import ContextProxy.Memory.Chunking

/-!
# A chunk and its turn

A chunk is stored as one JSON text per message, joined by newlines, and compared with the turns of the recent window by the text of the messages read back from it. It is taken apart by `str.splitlines`, and `json.dumps` with `ensure_ascii=False` leaves U+0085, U+2028 and U+2029 as they are. With one of them in a message, the line cannot be read, and the chunk is compared by its raw text instead (`chunkObjects_chunkText`).
-/

namespace ContextProxy

open Json JsonText
open List hiding lex

/-- `json.dumps(message, ensure_ascii=False)`. -/
def dumpsMessage (floats : FloatText) (message : Message) : String := String.ofList (print floats (.obj message))

def chunkText (floats : FloatText) (messages : List Message) : String :=
  joinWith "\n" (messages.map (dumpsMessage floats))

def turnText (rt : Runtime) (messages : List Message) : Except PyError String :=
  (messageTexts rt messages).map (canonicalText rt)

theorem rawContent_unitChunk (floats : FloatText) (draw : ℤ → RowId) (unit : TurnUnit) (tokenCount : ℕ) :
    (unitChunk (dumpsMessage floats) draw unit tokenCount).rawContent = chunkText floats (unit.rows.map (·.content)) := by
  rw [chunkText, map_map]
  rfl

theorem text_unitCandidate {F : Type} (rt : Runtime) (unit : InteractionUnit) (index : ℕ) :
    (unitCandidate rt unit index).map (fun candidate : Candidate F => candidate.text) = turnText rt unit.messages := by
  rw [turnText, unitCandidate]
  cases htext : messageTexts rt unit.messages with
  | error error => rfl
  | ok text =>
    -- what can be rendered has been hashed, so its content texts can be made too
    obtain ⟨lines, hlines, -⟩ := bind_eq_ok.mp htext
    obtain ⟨texts, htexts⟩ : ∃ texts, unit.messages.mapM (contentTexts rt) = .ok texts := by
      refine exists_mapM_eq_ok.mpr fun m hm => exists_contentTexts.mpr ?_
      obtain ⟨line, -, hline⟩ := exists_right_of_forall₂ (mapM_eq_ok.mp hlines) hm
      obtain ⟨content, hcontent, -⟩ := bind_eq_ok.mp hline
      exact exists_renderContent.mp ⟨content, hcontent⟩
    rw [htexts]
    rfl

/-! ### The lines of a chunk -/

theorem any_isLineBreak_print (floats : FloatText) (value : Json) :
    (print floats value).any isLineBreak = anyChar isSeparator value := by
  have hforeign : Foreign isLineBreak := by
    intro c hlow hhigh
    rw [← Bool.not_eq_true]
    simp only [isLineBreak, Bool.or_eq_true, Bool.and_eq_true, decide_eq_true_eq]
    omega
  rw [hforeign.any_print]
  apply congrArg (anyChar · value)
  funext c
  rw [Bool.eq_iff_iff]
  simp only [isLineBreak, isSeparator, Bool.or_eq_true, Bool.and_eq_true, decide_eq_true_eq]
  omega

theorem strip_print (floats : FloatText) (message : Message) :
    strip (print floats (.obj message)) = print floats (.obj message) := by
  have hopen : isSpace '{' = false := by decide
  have hclose : isSpace '}' = false := by decide
  obtain ⟨inner, hinner⟩ := print_obj floats message
  simp [hinner, strip, hopen, hclose]

theorem toList_chunkText_singleton (floats : FloatText) (message : Message) :
    (chunkText floats [message]).toList = print floats (.obj message) := by
  rw [chunkText, map_singleton, joinWith, dumpsMessage, String.toList_ofList]

theorem toList_chunkText_cons (floats : FloatText) (message next : Message) (messages : List Message) :
    (chunkText floats (message :: next :: messages)).toList =
      print floats (.obj message) ++ '\n' :: (chunkText floats (next :: messages)).toList := by
  rw [chunkText, map_cons, map_cons, joinWith, String.toList_append, String.toList_append, dumpsMessage,
    String.toList_ofList, append_assoc]
  · rfl
  · exact cons_ne_nil _ _

theorem toList_chunkText (floats : FloatText) (message : Message) (messages : List Message) :
    ∃ rest, (chunkText floats (message :: messages)).toList = print floats (.obj message) ++ rest := by
  cases messages with
  | nil => exact ⟨[], by rw [toList_chunkText_singleton, append_nil]⟩
  | cons next messages => exact ⟨_, toList_chunkText_cons floats message next messages⟩

section Lines

variable {floats : FloatText} {message : Message}

theorem not_isLineBreak_of_mem (floats : FloatText) (h : anyChar isSeparator (.obj message) = false) :
    ∀ c ∈ print floats (.obj message), isLineBreak c = false := by
  rw [← any_isLineBreak_print floats, any_eq_false] at h
  intro c hc
  exact Bool.eq_false_of_not_eq_true (h c hc)

theorem splitLines_chunkText_singleton (h : anyChar isSeparator (.obj message) = false) :
    splitLines [] (chunkText floats [message]).toList = [print floats (.obj message)] := by
  obtain ⟨inner, hinner⟩ := print_obj floats message
  have hlines := splitLines_append (not_isLineBreak_of_mem floats h) [] []
  rw [toList_chunkText_singleton, ← append_nil (print floats (.obj message)), hlines, splitLines, if_neg]
  · simp
  · simp [hinner]

theorem splitLines_chunkText_cons (h : anyChar isSeparator (.obj message) = false) {next : Message} {messages : List Message} :
    splitLines [] (chunkText floats (message :: next :: messages)).toList =
      print floats (.obj message) :: splitLines [] (chunkText floats (next :: messages)).toList := by
  rw [toList_chunkText_cons, splitLines_append (not_isLineBreak_of_mem floats h), splitLines_cons (by decide), if_pos (by decide),
    append_nil, reverse_reverse]

end Lines

theorem strip_ne_nil (cs : List Char) : strip ('{' :: cs) ≠ [] := by
  have hopen : isSpace '{' = false := by decide
  rw [strip, dropWhile_cons, hopen, if_neg Bool.false_ne_true, ne_eq, reverse_eq_nil_iff, dropWhile_eq_nil_iff]
  intro hall
  exact absurd (hall '{' (by simp)) (by decide)

/-! ### Reading a chunk -/

section Reading

variable {rt : Runtime} {floats : FloatText} {floatOf : List Char → ℚ} {message : Message}

theorem chunkObjects_of_clean (hinverse : rt.loads (dumpsMessage floats message) = some (.obj message))
    (lines : List (List Char)) :
    chunkObjects rt (print floats (.obj message) :: lines) = (chunkObjects rt lines).map (message :: ·) := by
  obtain ⟨inner, hinner⟩ := print_obj floats message
  have hne : print floats (.obj message) ≠ [] := by simp [hinner]
  rw [chunkObjects, strip_print, if_neg hne]
  rw [dumpsMessage] at hinverse
  rw [hinverse]

/-- A message with a line break in a string: the line ends in that string and cannot be read. -/
theorem chunkObjects_of_separator (hloads : ∀ text : String, JsonText.read floatOf text.toList = none → rt.loads text = none)
    (hinverse : rt.loads (dumpsMessage floats message) = some (.obj message))
    (hseparator : anyChar isSeparator (.obj message) = true) (rest : List Char) :
    chunkObjects rt (splitLines [] (print floats (.obj message) ++ rest)) = none := by
  have hlex : ∃ tokens, lex floatOf (print floats (.obj message)) = some tokens := by
    rw [← Option.isSome_iff_exists, ← Option.ne_none_iff_isSome]
    intro hnone
    rw [hloads] at hinverse
    · cases hinverse
    · rw [dumpsMessage, String.toList_ofList, JsonText.read, hnone]
      rfl
  obtain ⟨tokens, htokens⟩ := hlex
  obtain ⟨state, first, _, hrun, -⟩ := lex_eq_some.mp htokens
  rw [← any_isLineBreak_print floats] at hseparator
  obtain ⟨c, hfind⟩ := Option.isSome_iff_exists.mp (find?_isSome.mpr (any_eq_true.mp hseparator))
  obtain ⟨hbreak, before, after, hcut, hbefore⟩ := find?_eq_some_iff_append.mp hfind
  have hvisible : 0x20 ≤ c.toNat := visible_of_mem_print (mem_of_find?_eq_some hfind)
  have hn : c ≠ '\n' := fun heq => absurd (heq ▸ hvisible) (by decide)
  have hr : c ≠ '\r' := fun heq => absurd (heq ▸ hvisible) (by decide)
  -- the first line is what stands before the line break
  have hlines : splitLines [] (print floats (.obj message) ++ rest) = before :: splitLines [] (after ++ rest) := by
    rw [hcut, append_assoc, splitLines_append (fun d hd => by simpa using hbefore d hd), cons_append,
      splitLines_cons hr, if_pos hbreak, append_nil, reverse_reverse]
  have hne : strip before ≠ [] := by
    obtain ⟨inner, hinner⟩ := print_obj floats message
    rw [hinner] at hcut
    cases before with
    | nil =>
      rw [← (List.cons.inj hcut).1] at hbreak
      cases hbreak
    | cons d before =>
      rw [← (List.cons.inj hcut).1]
      exact strip_ne_nil before
  rw [hcut] at hrun
  obtain ⟨-, ⟨units, tokens, hrun⟩, -⟩ := run_cut hbreak hn hr hrun
  have hread : rt.loads (String.ofList (strip before)) = none := by
    apply hloads
    rw [String.toList_ofList, JsonText.read, lex_strip_of_run hrun]
    rfl
  rw [hlines, chunkObjects, if_neg hne, hread]

variable {messages : List Message}

/-- What is read from the chunk of a turn: its messages, or nothing if one of them has a line break in a string. -/
theorem chunkObjects_chunkText (hloads : ∀ text : String, JsonText.read floatOf text.toList = none → rt.loads text = none)
    (hne : messages ≠ []) (hinverse : ∀ message ∈ messages, rt.loads (dumpsMessage floats message) = some (.obj message)) :
    chunkObjects rt (splitLines [] (chunkText floats messages).toList) =
      if messages.any (fun message => anyChar isSeparator (.obj message)) then none else some messages := by
  induction messages with
  | nil => exact absurd rfl hne
  | cons message messages ih =>
    rw [forall_mem_cons] at hinverse
    rw [any_cons]
    cases hmessage : anyChar isSeparator (.obj message) with
    | true =>
      rw [Bool.true_or, if_pos rfl]
      obtain ⟨rest, hrest⟩ := toList_chunkText floats message messages
      rw [hrest]
      exact chunkObjects_of_separator hloads hinverse.1 hmessage rest
    | false =>
      rw [Bool.false_or]
      cases messages with
      | nil =>
        rw [splitLines_chunkText_singleton hmessage, chunkObjects_of_clean hinverse.1]
        rfl
      | cons next messages =>
        rw [splitLines_chunkText_cons hmessage, chunkObjects_of_clean hinverse.1, ih (cons_ne_nil _ _) hinverse.2]
        split <;> rfl

theorem chunkCanonicalText_chunkText
    (hloads : ∀ text : String, JsonText.read floatOf text.toList = none → rt.loads text = none) (hne : messages ≠ [])
    (hinverse : ∀ message ∈ messages, rt.loads (dumpsMessage floats message) = some (.obj message)) :
    chunkCanonicalText rt (chunkText floats messages) =
      if messages.any (fun message => anyChar isSeparator (.obj message)) then
        .ok (canonicalText rt (chunkText floats messages))
      else turnText rt messages := by
  rw [chunkCanonicalText, chunkObjects_chunkText hloads hne hinverse]
  by_cases hcut : messages.any (fun message => anyChar isSeparator (.obj message)) = true
  · rw [if_pos hcut, if_pos hcut]
    rfl
  · rw [if_neg hcut, if_neg hcut, turnText]
    cases messages with
    | nil => exact absurd rfl hne
    | cons message messages =>
      show (messageTexts rt (message :: messages)).bind (fun texts => .ok (canonicalText rt texts)) = _
      cases messageTexts rt (message :: messages) <;> rfl

end Reading

/-- The chunk of a turn is compared by the text of the turn exactly if no key and no string of its messages has a U+0085, U+2028 or U+2029, or if the text of the turn happens to be that of the chunk. Reading is assumed to invert printing on the messages, and to fail on what is no JSON text. -/
theorem chunk_recognised_iff (rt : Runtime) (floats : FloatText) (floatOf : List Char → ℚ) (messages : List Message)
    (hne : messages ≠ []) (hloads : ∀ text : String, JsonText.read floatOf text.toList = none → rt.loads text = none)
    (hinverse : ∀ message ∈ messages, rt.loads (dumpsMessage floats message) = some (.obj message)) :
    chunkCanonicalText rt (chunkText floats messages) = turnText rt messages ↔
      (∀ message ∈ messages, anyChar isSeparator (.obj message) = false) ∨
        turnText rt messages = .ok (canonicalText rt (chunkText floats messages)) := by
  rw [chunkCanonicalText_chunkText hloads hne hinverse]
  by_cases hclean : ∀ message ∈ messages, anyChar isSeparator (.obj message) = false
  · have hany : messages.any (fun message => anyChar isSeparator (.obj message)) = false := by
      simpa using hclean
    rw [hany, if_neg Bool.false_ne_true]
    exact ⟨fun _ => .inl hclean, fun _ => rfl⟩
  · have hany : messages.any (fun message => anyChar isSeparator (.obj message)) = true := by
      simpa using hclean
    rw [hany, if_pos rfl, or_iff_right hclean]
    exact eq_comm

/-- A runtime that reads JSON, up to floats and the order of nested fields. -/
def lineRuntime : Runtime where
  __ := plainRuntime
  loads := fun text => (JsonText.read (fun _ => 0) text.toList).map fun
    | .obj fields => .obj fields.reverse
    | value => value

/-- One line separator in a message: the two halves of its line are not JSON, and the chunk keeps braces and quotes. -/
theorem chunk_unrecognised_lineSeparator :
    let message : Message := [("role", .str "user"), ("content", .str "a\u2028b")]
    lineRuntime.loads (dumpsMessage FloatText.zero message) = some (.obj message) ∧
      chunkCanonicalText lineRuntime (chunkText FloatText.zero [message]) =
        .ok "\x7b\"role\": \"user\", \"content\": \"a b\"\x7d" ∧
      turnText lineRuntime [message] = .ok "user: a b" := by
  refine ⟨?_, ?_, ?_⟩
  · decide +kernel
  · rfl
  · rfl

/-- Control characters are escaped, and a chunk with them is recognised. -/
theorem chunk_recognised_newline :
    let messages : List Message := [[("role", .str "user"), ("content", .str "a\nb")], [("role", .str "assistant")]]
    messages ≠ [] ∧ (∀ text : String, JsonText.read (fun _ => 0) text.toList = none → lineRuntime.loads text = none) ∧
      (∀ message ∈ messages, lineRuntime.loads (dumpsMessage FloatText.zero message) = some (.obj message)) ∧
      chunkCanonicalText lineRuntime (chunkText FloatText.zero messages) = turnText lineRuntime messages := by
  intro messages
  have hne : messages ≠ [] := cons_ne_nil _ _
  have hloads : ∀ text : String, JsonText.read (fun _ => 0) text.toList = none → lineRuntime.loads text = none := by
    intro text h
    rw [lineRuntime]
    simp only [h, Option.map_none]
  have hinverse : ∀ message ∈ messages, lineRuntime.loads (dumpsMessage FloatText.zero message) = some (.obj message) := by
    decide +kernel
  refine ⟨hne, hloads, hinverse, ?_⟩
  exact (chunk_recognised_iff lineRuntime FloatText.zero (fun _ => 0) messages hne hloads hinverse).mpr (.inl (by decide +kernel))

end ContextProxy
