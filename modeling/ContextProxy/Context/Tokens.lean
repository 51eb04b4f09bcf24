import ContextProxy.Conversation.Message
import ContextProxy.Lib.Except
import ContextProxy.Lib.Runtime

/-!
# Token accounting

The estimate of `TokenCounter`: about four characters a token, plus overhead. Nobody has checked the fields that are counted, so counting can raise. A message on which it does not is `Readable` and has a fixed cost `tokensOf`; the cost of a list is the sum.
-/

namespace ContextProxy

open Json

def charsPerToken : ℕ := 4

def messageOverheadTokens : ℕ := 4

def toolCallOverheadTokens : ℕ := 8

def toolDefOverheadTokens : ℕ := 8

def imagePartTokens : ℕ := 1024

def unknownPartTokens : ℕ := 16

/-- The tokens of something of the given length: a rounded-up quarter. -/
def lengthTokens (length : ℕ) : ℕ :=
  if length = 0 then 0 else max 1 ((length + charsPerToken - 1) / charsPerToken)

/-- `TokenCounter.text` of a string. -/
def textTokens (text : String) : ℕ := lengthTokens text.length

/-- `TokenCounter.text` of a value that need not be a string. -/
def valueTokens : Json → Except PyError ℕ
  | .str text => .ok (textTokens text)
  | .arr items => .ok (lengthTokens items.length)
  | .obj fields => .ok (lengthTokens fields.length)
  | value => if truthy value then .error .typeError else .ok 0

/-- One content part: text by its length, images and unknown parts by flat estimates. -/
def partTokens : Json → ℕ
  | .obj part =>
    if get part "type" = .str "text" then
      match get part "text" with
      | .str text => textTokens text
      | _ => unknownPartTokens
    else if get part "type" = .str "image_url" then imagePartTokens
    else unknownPartTokens
  | _ => unknownPartTokens

/-- `TokenCounter._serialized`. -/
def serializedTokens (rt : Runtime) : Json → ℕ
  | .null => 0
  | .str text => textTokens text
  | .arr parts => (parts.map partTokens).sum
  | value => textTokens (rt.dumps value)

def toolCallTokens (rt : Runtime) : Json → Except PyError ℕ
  | .obj call => do
      let function ← dictOr (get call "function")
      let name ← valueTokens (get function "name")
      return toolCallOverheadTokens + name + serializedTokens rt (get function "arguments")
  | _ => .error .attributeError

/-- `TokenCounter.message`. -/
def messageTokens (rt : Runtime) (message : Message) : Except PyError ℕ := do
  let calls ← itemsOr (get message "tool_calls")
  let callTokens ← sumM (toolCallTokens rt) calls
  let idTokens ← valueTokens (get message "tool_call_id")
  let nameTokens ← valueTokens (get message "name")
  return messageOverheadTokens + serializedTokens rt (get message "content") + callTokens + idTokens + nameTokens

/-- `TokenCounter.messages`. -/
def messagesTokens (rt : Runtime) (messages : List Message) : Except PyError ℕ := sumM (messageTokens rt) messages

/-- `TokenCounter.tools`. -/
def toolsTokens (rt : Runtime) (tools : List Json) : ℕ :=
  (tools.map fun tool => toolDefOverheadTokens + serializedTokens rt tool).sum

def Readable (rt : Runtime) (message : Message) : Prop := ∃ n, messageTokens rt message = .ok n

def tokensOf (rt : Runtime) (message : Message) : ℕ := okOrZero (messageTokens rt message)

def tokensOfAll (rt : Runtime) (messages : List Message) : ℕ := (messages.map (tokensOf rt)).sum

theorem messageTokens_eq_ok {rt : Runtime} {message : Message} {n : ℕ} :
    messageTokens rt message = .ok n ↔ Readable rt message ∧ n = tokensOf rt message := by
  constructor
  · intro h
    exact ⟨⟨n, h⟩, by rw [tokensOf, h, okOrZero]⟩
  · rintro ⟨⟨k, hk⟩, rfl⟩
    rw [tokensOf, hk, okOrZero]

theorem messagesTokens_eq_ok {rt : Runtime} {messages : List Message} {n : ℕ} :
    messagesTokens rt messages = .ok n ↔ (∀ m ∈ messages, Readable rt m) ∧ n = tokensOfAll rt messages := sumM_eq_ok

theorem tokensOfAll_append (rt : Runtime) (a b : List Message) :
    tokensOfAll rt (a ++ b) = tokensOfAll rt a + tokensOfAll rt b := by
  rw [tokensOfAll, List.map_append, List.sum_append, tokensOfAll, tokensOfAll]

theorem tokensOfAll_flatMap {α : Type} (rt : Runtime) (f : α → List Message) (as : List α) :
    tokensOfAll rt (as.flatMap f) = (as.map fun a => tokensOfAll rt (f a)).sum := by
  induction as with
  | nil => rfl
  | cons a as ih => rw [List.flatMap_cons, tokensOfAll_append, ih, List.map_cons, List.sum_cons]

end ContextProxy
