import ContextProxy.Lib.Runtime
import Mathlib.Data.List.Infix

/-!
# Messages and what a client may do to them

A message is a dict in the chat-completions format. Clients send it back in other shapes: without its reasoning, with its text split into parts, with an old tool result cleared. `equivalent` decides whether an incoming message is such a projection of a persisted one. It is reflexive and transitive, and not symmetric.
-/

namespace ContextProxy

open Json

abbrev Message := Fields

def textMessage (role text : String) : Message := [("role", .str role), ("content", .str text)]

def prunedToolResult : String := "[Old tool result content cleared]"

def textParts : List Json → Option String
  | [] => some ""
  | .obj part :: parts =>
    match get part "type", get part "text" with
    | .str kind, .str text => if kind = "text" then (textParts parts).map (text ++ ·) else none
    | _, _ => none
  | _ :: _ => none

def textContent : Json → Option String
  | .str text => some text
  | .arr parts => textParts parts
  | _ => none

def reasoningKeys : List String := ["reasoning_content", "reasoning", "reasoning_text"]

/-- `canonical_message`: only known representation-level differences go. -/
def canonicalMessage (message : Message) : Message :=
  let result := reasoningKeys.foldl pop message
  match textContent (get result "content") with
  | some text => set result "content" (.str text)
  | none => result

/-- An incoming canonical message that is the cleared form of a persisted canonical tool result. -/
def clearedToolResult (left right : Message) : Bool :=
  if pyEq (get left "role") (get right "role") && pyEq (get right "role") (.str "tool") then
    if !truthy (get left "tool_call_id") || !pyEq (get left "tool_call_id") (get right "tool_call_id") then false
    else pyEq (get right "content") (.str prunedToolResult)
  else false

/-- Whether the incoming message `b` is a projection of the persisted message `a`. -/
def equivalent (a b : Message) : Bool :=
  let left := canonicalMessage a
  let right := canonicalMessage b
  if pyEq (.obj left) (.obj right) then true else clearedToolResult left right

/-! ### Equivalence is a preorder -/

variable {left right mid : Message}

theorem clearedToolResult_iff : clearedToolResult left right = true ↔
      get left "role" = .str "tool" ∧ get right "role" = .str "tool" ∧ truthy (get left "tool_call_id") = true ∧
        pyEq (get left "tool_call_id") (get right "tool_call_id") = true ∧
          get right "content" = .str prunedToolResult := by
  rw [clearedToolResult]
  constructor
  · intro h
    split at h
    · rename_i hrole
      simp only [Bool.and_eq_true, pyEq_str_iff] at hrole
      obtain ⟨hsame, htool⟩ := hrole
      rw [htool, pyEq_str_iff] at hsame
      split at h
      · exact Bool.noConfusion h
      · rename_i hid
        simp only [Bool.or_eq_true, Bool.not_eq_true', not_or, Bool.not_eq_false] at hid
        exact ⟨hsame, htool, hid.1, hid.2, pyEq_str_iff.mp h⟩
    · exact Bool.noConfusion h
  · rintro ⟨hleft, hright, htruthy, hid, hcontent⟩
    simp [hleft, hright, htruthy, hid, hcontent]

theorem equivalent_iff {a b : Message} :
    equivalent a b = true ↔ pyEq (.obj (canonicalMessage a)) (.obj (canonicalMessage b)) = true ∨
      clearedToolResult (canonicalMessage a) (canonicalMessage b) = true := by
  rw [equivalent]
  split <;> simp_all

@[simp] theorem equivalent_refl (a : Message) : equivalent a a = true :=
  equivalent_iff.mpr (.inl (pyEq_refl _))

theorem clearedToolResult_of_pyEq_left (h : pyEq (.obj left) (.obj mid) = true)
    (hcleared : clearedToolResult mid right = true) : clearedToolResult left right = true := by
  obtain ⟨hmid, hright, htruthy, hid, hcontent⟩ := clearedToolResult_iff.mp hcleared
  have hrole := get_pyEq h "role"
  have hids := get_pyEq h "tool_call_id"
  rw [hmid, pyEq_str_iff] at hrole
  exact clearedToolResult_iff.mpr ⟨hrole, hright, (truthy_of_pyEq hids).trans htruthy, pyEq_trans hids hid, hcontent⟩

theorem clearedToolResult_of_pyEq_right (h : pyEq (.obj mid) (.obj right) = true)
    (hcleared : clearedToolResult left mid = true) : clearedToolResult left right = true := by
  obtain ⟨hleft, hmid, htruthy, hid, hcontent⟩ := clearedToolResult_iff.mp hcleared
  have hrole := pyEq_symm (get_pyEq h "role")
  have hbody := pyEq_symm (get_pyEq h "content")
  rw [hmid, pyEq_str_iff] at hrole
  rw [hcontent, pyEq_str_iff] at hbody
  exact clearedToolResult_iff.mpr ⟨hleft, hrole, htruthy, pyEq_trans hid (get_pyEq h "tool_call_id"), hbody⟩

theorem clearedToolResult_trans (h₁ : clearedToolResult left mid = true) (h₂ : clearedToolResult mid right = true) :
    clearedToolResult left right = true := by
  obtain ⟨hleft, _, htruthy, hid, _⟩ := clearedToolResult_iff.mp h₁
  obtain ⟨_, hright, _, hid', hcontent⟩ := clearedToolResult_iff.mp h₂
  exact clearedToolResult_iff.mpr ⟨hleft, hright, htruthy, pyEq_trans hid hid', hcontent⟩

theorem equivalent_trans {a b c : Message} (hab : equivalent a b = true) (hbc : equivalent b c = true) :
    equivalent a c = true := by
  rw [equivalent_iff] at *
  rcases hab with hab | hab <;> rcases hbc with hbc | hbc
  · exact .inl (pyEq_trans hab hbc)
  · exact .inr (clearedToolResult_of_pyEq_left hab hbc)
  · exact .inr (clearedToolResult_of_pyEq_right hbc hab)
  · exact .inr (clearedToolResult_trans hab hbc)

/-! ### Compaction summaries -/

/-- `needle in text`. -/
def occursIn (needle text : String) : Bool := decide (needle.toList <:+: text.toList)

/-- `str(mode).lower() == "compaction"`. Only a string can pass, and no character outside ASCII lowers to a letter of the word. -/
def isCompactionMode : Json → Bool
  | .str mode => mode.toList.map Char.toLower == "compaction".toList
  | _ => false

def hasCompactionFlag : Json → Bool
  | .obj metadata => get metadata "compaction" == .bool true || get metadata "compaction_continue" == .bool true
  | _ => false

def compactionWrapper : String :=
  "The conversation history before this point was compacted into the following summary:"

/-- `_is_compaction_summary`: explicit flags, or the wrapper text. -/
def isCompactionSummary (message : Message) : Bool :=
  if get message "summary" = .bool true then true
  else if isCompactionMode (get message "mode") then true
  else if hasCompactionFlag (get message "metadata") then true
  else
    match textContent (get message "content") with
    | none => false
    | some text =>
      if text = "" then false
      else occursIn compactionWrapper text && occursIn "<summary>" text && occursIn "</summary>" text

/-! ### Image parts -/

def imageUrl (rt : Runtime) (part : Fields) : String :=
  match if truthy (get part "image_url") then get part "image_url" else .obj [] with
  | .obj image => rt.str ((image.lookup "url").getD (.str ""))
  | other => rt.str other

/-- What is hashed of a part of a content: the URL of an image, the JSON of a part that is neither image nor text. -/
def hashedText (rt : Runtime) : Json → Option String
  | .obj part =>
    if get part "type" = .str "text" then none
    else if get part "type" = .str "image_url" then some (imageUrl rt part)
    else some (rt.dumpsSorted (.obj part))
  | _ => none

def Fingerprintable (rt : Runtime) (message : Message) : Prop :=
  ∀ parts, get message "content" = .arr parts → ∀ part ∈ parts, ∀ text ∈ hashedText rt part, (rt.sha256 text).isSome = true

end ContextProxy
