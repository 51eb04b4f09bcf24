import ContextProxy.Context.Tokens

/-!
# Candidates

Every source of context, normalised to a `Candidate`: where it comes from, what it costs, the messages it renders, and the texts by which a duplicate is recognised, down to whitespace, image fingerprints and the JSON lines of a stored chunk.
-/

namespace ContextProxy

open Json

/-! ### Text -/

/-- `str.isspace`, which is what `\s` matches and `strip` removes. -/
def isSpace (c : Char) : Bool :=
  let n := c.toNat
  (9 ≤ n && n ≤ 13) || (28 ≤ n && n ≤ 32) || n = 0x85 || n = 0xA0 || n = 0x1680 || (0x2000 ≤ n && n ≤ 0x200A) ||
    n = 0x2028 || n = 0x2029 || n = 0x202F || n = 0x205F || n = 0x3000

/-- `re.sub(r"\s+", " ", …)`, from inside a run of whitespace or outside of one. -/
def collapse (inRun : Bool) : List Char → List Char
  | [] => []
  | c :: cs =>
    if isSpace c then if inRun then collapse true cs else ' ' :: collapse true cs
    else c :: collapse false cs

def strip (chars : List Char) : List Char := ((chars.dropWhile isSpace).reverse.dropWhile isSpace).reverse

def canonicalText (rt : Runtime) (value : String) : String :=
  rt.lower (String.ofList (strip (collapse false value.toList)))

/-- `separator.join(texts)`. -/
def joinWith (separator : String) : List String → String
  | [] => ""
  | [text] => text
  | text :: texts => text ++ separator ++ joinWith separator texts

/-- The characters at which `str.splitlines` splits. -/
def isLineBreak (c : Char) : Bool :=
  let n := c.toNat
  (10 ≤ n && n ≤ 13) || (28 ≤ n && n ≤ 30) || n = 0x85 || n = 0x2028 || n = 0x2029

/-- `str.splitlines`, with the current line in reverse. -/
def splitLines (line : List Char) : List Char → List (List Char)
  | [] => if line = [] then [] else [line.reverse]
  | '\r' :: '\n' :: cs => line.reverse :: splitLines [] cs
  | c :: cs => if isLineBreak c then line.reverse :: splitLines [] cs else splitLines (c :: line) cs

/-! ### The texts of a message -/

/-- `value or default`. -/
def orElse (value default : Json) : Json := if truthy value then value else default

def partFingerprint (rt : Runtime) (part : Fields) : Except PyError String :=
  if get part "type" = .str "image_url" then do
    let digest ← rt.hexdigest (imageUrl rt part)
    return "[image:" ++ digest ++ "]"
  else do
    let digest ← rt.hexdigest (rt.dumpsSorted (.obj part))
    return "[" ++ rt.str (orElse (get part "type") (.str "unknown")) ++ ":" ++ digest ++ "]"

/-- The texts of the parts of a content; those of a text part are made by `ofText`, and a part that is no dict has none. -/
def partTexts (rt : Runtime) (ofText : String → List String) : Json → Except PyError (List String)
  | .obj part =>
    if get part "type" = .str "text" then return ofText (rt.str (orElse (get part "text") (.str "")))
    else do
      let fingerprint ← partFingerprint rt part
      return [fingerprint]
  | _ => return []

def renderContent (rt : Runtime) : Json → Except PyError String
  | .str text => return text
  | .arr parts => do
      let rendered ← parts.mapM (partTexts rt fun text => [text])
      return joinWith " " rendered.flatten
  | _ => return ""

/-- Name and arguments of a tool call; its id is left out. -/
def renderToolCall (rt : Runtime) : Json → Except PyError String
  | .obj call =>
    let (label, payload) :=
      match get call "function", get call "custom" with
      | .obj function, _ => ("function", function)
      | _, .obj custom => ("custom", custom)
      | _, _ => ("custom", [])
    let value := orElse (get payload "arguments") (get payload "input")
    .ok ("tool_call[" ++ label ++ "]: " ++ rt.str (get payload "name") ++ " " ++ rt.str value)
  | _ => .error .attributeError

/-- The lines of `message_texts` for one message. -/
def messageLines (rt : Runtime) (message : Message) : Except PyError (List String) := do
  let content ← renderContent rt (get message "content")
  let calls ← itemsOr (get message "tool_calls")
  let rendered ← calls.mapM (renderToolCall rt)
  return (rt.str (get message "role") ++ ": " ++ content) :: rendered

def messageTexts (rt : Runtime) (messages : List Message) : Except PyError String := do
  let lines ← messages.mapM (messageLines rt)
  return joinWith "\n" lines.flatten

def bareText (rt : Runtime) (text : String) : List String :=
  if canonicalText rt text = "" then [] else [canonicalText rt text]

def contentTexts (rt : Runtime) (message : Message) : Except PyError (List String) :=
  match get message "content" with
  | .str text => return bareText rt text
  | .arr parts => do
      let texts ← parts.mapM (partTexts rt (bareText rt))
      return texts.flatten
  | _ => return []

def queryPart (rt : Runtime) : Json → Option String
  | .obj part => if get part "type" = .str "text" then some (rt.str (orElse (get part "text") (.str ""))) else none
  | _ => none

def queryText (rt : Runtime) : Json → String
  | .str text => text
  | .arr parts => String.ofList (strip (joinWith " " (parts.filterMap (queryPart rt))).toList)
  | _ => ""

/-- The loop of `extract_retrieval_query`, over the reversed messages of the body. -/
def latestQuery (rt : Runtime) : List Json → Except PyError String
  | [] => .ok ""
  | .obj message :: messages =>
    if pyEq (get message "role") (.str "user") then .ok (queryText rt (get message "content"))
    else latestQuery rt messages
  | _ :: _ => .error .attributeError

def extractRetrievalQuery (rt : Runtime) (messages : List Json) : Except PyError String := latestQuery rt messages.reverse

/-- The objects among the JSON lines of a chunk, or nothing if a line is not JSON. -/
def chunkObjects (rt : Runtime) : List (List Char) → Option (List Fields)
  | [] => some []
  | line :: lines =>
    if strip line = [] then chunkObjects rt lines
    else
      match rt.loads (String.ofList (strip line)) with
      | none => none
      | some (.obj fields) => (chunkObjects rt lines).map (fields :: ·)
      | some _ => chunkObjects rt lines

def chunkCanonicalText (rt : Runtime) (rawContent : String) : Except PyError String :=
  match chunkObjects rt (splitLines [] rawContent.toList) with
  | none | some [] => return canonicalText rt rawContent
  | some objects => do
      let texts ← messageTexts rt objects
      return canonicalText rt texts

/-! ### Candidates -/

inductive CandidateSource where
  | system
  | toolDefinitions
  | pinned
  | currentRequest
  | recentTurn
  | memory
  | chunk
  deriving DecidableEq, Repr

/-- `TIER_BY_SOURCE`: lower is packed earlier and dropped later. -/
def CandidateSource.tier : CandidateSource → ℕ
  | .system | .toolDefinitions => 1
  | .pinned => 2
  | .currentRequest => 3
  | .recentTurn => 4
  | .memory | .chunk => 5

inductive CandidateClassification where
  | trustedInstruction
  | derivedContext
  | untrustedUserData
  deriving DecidableEq, Repr

/-- `CLASSIFICATION_BY_SOURCE`. -/
def CandidateSource.classification : CandidateSource → CandidateClassification
  | .system | .toolDefinitions | .pinned => .trustedInstruction
  | .currentRequest | .recentTurn => .untrustedUserData
  | .memory | .chunk => .derivedContext

/-- A candidate; `F` is the type of its score components. -/
structure Candidate (F : Type) where
  source : CandidateSource
  key : String
  tokens : ℕ
  render : List Message := []
  text : String := ""
  components : List (String × F) := []
  position : ℕ := 0
  contentTexts : List String := []
  dedupText : Option String := none
  conversationId : Option String := none

def Candidate.tier {F : Type} (candidate : Candidate F) : ℕ := candidate.source.tier

def Candidate.isRetrieval {F : Type} (candidate : Candidate F) : Bool :=
  candidate.source = .memory || candidate.source = .chunk

inductive ItemType where
  | chunk
  | memory
  deriving DecidableEq, Repr

def ItemType.name : ItemType → String
  | .chunk => "chunk"
  | .memory => "memory"

def ItemType.source : ItemType → CandidateSource
  | .chunk => .chunk
  | .memory => .memory

structure RetrievedItem (F : Type) where
  itemType : ItemType
  id : String
  conversationId : String
  kind : String
  content : String
  components : List (String × F) := []

section Retrieved

variable {F : Type} (rt : Runtime)

/-- The rendered text of a retrieved item: a provenance line and the content. -/
def RetrievedItem.blockText (item : RetrievedItem F) : String :=
  "[retrieved " ++ item.itemType.name ++ ":" ++ item.kind ++ " id=" ++ item.id ++ "]\n" ++ item.content

def RetrievedItem.block (item : RetrievedItem F) : Message :=
  [("role", .str "user"), ("content", .str item.blockText)]

def RetrievedItem.dedupText (item : RetrievedItem F) : Except PyError String :=
  match item.itemType with
  | .chunk => chunkCanonicalText rt item.content
  | .memory => return canonicalText rt item.content

def candidateFromRetrieved (item : RetrievedItem F) : Except PyError (Candidate F) := do
  let dedupText ← item.dedupText rt
  let tokens ← messageTokens rt item.block
  -- `content_fingerprint`, which only the metadata carry
  let _ ← rt.hexdigest (canonicalText rt dedupText)
  return {
    source := item.itemType.source
    key := item.id
    tokens
    render := [item.block]
    text := canonicalText rt item.blockText
    components := item.components
    dedupText := some dedupText
    conversationId := some item.conversationId }

end Retrieved

end ContextProxy
