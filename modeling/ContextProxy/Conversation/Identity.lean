import ContextProxy.Memory.Spelling
import ContextProxy.Provider.Failures

/-!
# Which conversation a request belongs to

`resolve_conversation_id`: the field of the body, then the conversation header, then the session header, then a fresh identifier. An explicit identifier has to be a UUID and is passed on in its printed form; a session is any short text, hashed to a UUID. The field of the body never goes upstream.
-/

namespace ContextProxy

open Json

structure IdentitySettings where
  clientIdHeader : String := "X-Session-ID"
  maxSessionIdentityChars : ℕ := 128

def conversationHeader : String := "x-conversation-id"

/-- What the code gets from its language for identifiers; `uuid5` is in the namespace of the sessions. -/
structure Identifiers where
  uuid : UuidText
  uuid5 : String → String
  texts : ErrorTexts

def sessionConversationId (ids : Identifiers) (token : String) (maxChars : ℕ) : Except String String :=
  let token := String.ofList (strip token.toList)
  if token = "" ∨ maxChars < token.length then
    .error ("session identity header must be a short non-empty string (max " ++ toString maxChars ++ " characters)")
  else .ok (ids.uuid5 token)

/-- `payload.pop("conversation_id", None) or request.headers.get(…)`. -/
def explicitId (rt : Runtime) (headers : Headers) (payload : Fields) : Option Json :=
  if truthy (get payload "conversation_id") then some (get payload "conversation_id")
  else (getHeader rt headers conversationHeader).map .str

/-- The token of the client's session, if the header is configured and not empty. -/
def sessionToken (rt : Runtime) (settings : IdentitySettings) (headers : Headers) : Option String :=
  if settings.clientIdHeader = "" then none
  else (getHeader rt headers (rt.lower settings.clientIdHeader)).filter (· ≠ "")

def requestedConversation (rt : Runtime) (ids : Identifiers) (settings : IdentitySettings) (headers : Headers)
    (payload : Fields) : Except String (Option String) :=
  match explicitId rt headers payload with
  | some raw => (validatedExplicitId ids.uuid ids.texts settings.maxSessionIdentityChars raw).map some
  | none =>
    match sessionToken rt settings headers with
    | some token => (sessionConversationId ids token settings.maxSessionIdentityChars).map some
    | none => .ok none

end ContextProxy
