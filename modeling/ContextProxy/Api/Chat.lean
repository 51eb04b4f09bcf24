import ContextProxy.Api.Responses
import ContextProxy.Api.Validation
import ContextProxy.Context.Fallback
import ContextProxy.Context.Plan
import ContextProxy.Conversation.Identity
import ContextProxy.Lib.Runs

/-!
# The chat endpoint

`POST /v1/chat/completions`, from the body of the request to the end of the response. The handler asks the store, the memories, the provider and, for a stream, whoever reads it; how each of them fails is part of its answer, and a cancellation is a failure of the call that is waited for. A stream's `persist_assistant` belongs to the run too. Each stage is a program of its own.
-/

namespace ContextProxy

open Json

/-! ### The calls of the handler -/

inductive StoreFailure where
  /-- `HistoryDivergenceError`, with its text. -/
  | divergence (index : ℕ) (message : String)
  /-- One of `_PERSISTENCE_INFRA_ERRORS`. -/
  | infrastructure (text : String)
  | exception (text : String)
  /-- What `except Exception` does not catch, such as a cancellation. -/
  | baseException (text : String)
  deriving DecidableEq, Repr

inductive IndexFailure where
  | timeout
  | exception (text : String)
  | baseException (text : String)
  deriving DecidableEq, Repr

/-- How a stream plays out: the chunks of the upstream, how they end, and who reads them. -/
structure Playback where
  chunks : List (List UInt8)
  ending : UpstreamEnd String
  consumer : Consumer

inductive ChatCall where
  | uuid4
  | ensureConversation (conversationId : String)
  | reconcileHistory (conversationId : String) (messages : List Json) (metadata : Option Fields)
  | retrieve (query conversationId : String)
  | complete (payload : Fields)
  | openStream (payload : Fields)
  | readStream
  | recordTokens (usage : Json)
  | indexCompletedTurns (conversationId : String)

@[reducible] def ChatAnswer (F : Type) : ChatCall → Type
  | .uuid4 => String
  | .ensureConversation _ => Except StoreFailure Unit
  | .reconcileHistory .. => Except StoreFailure Unit
  | .retrieve .. => Except RetrieveError (List (RetrievedItem F))
  | .complete _ => Except Raised (ℕ × Headers × Body)
  | .openStream _ => Except Raised ResponseHead
  | .readStream => Option Playback
  | .recordTokens _ => Unit
  | .indexCompletedTurns _ => Except IndexFailure ℕ

inductive ChatError where
  | store (failure : StoreFailure)
  | retrieval (error : ProgrammingError)
  | python (error : PyError)
  /-- The `RuntimeError` of the engine. -/
  | promoted (key : String)
  /-- An error of the provider that is not answered, or one whose body nests too deep to be read. -/
  | provider (raised : Raised)
  | indexing (text : String)
  deriving DecidableEq, Repr

abbrev ChatProg (F : Type) := Prog (ChatAnswer F) ChatError

/-- The state of the application, and what the handler gets from its language. -/
structure ProxyApp (F : Type) where
  rt : Runtime
  ids : Identifiers
  /-- `json.loads` of a body, and of the data of an event. -/
  loads : Body → JsonBody
  loadsEvent : String → Loaded
  identity : IdentitySettings
  store : Bool
  memory : Bool
  engine : Option (ContextAssemblyEngine F)
  usableBudgetTokens : ℕ
  pinnedBudgetTokens : ℕ
  autoIndex : Bool
  maxCaptureBytes : ℕ

/-- A request; its body is what `request.json()` returns, or the text of what it raises. -/
structure ChatRequest where
  headers : Headers
  body : Except String Json

/-! ### The stages before the provider -/

def parseJsonBody : Except String Json → Except String Fields
  | .error text => .error ("invalid JSON body: " ++ text)
  | .ok (.obj payload) => .ok payload
  | .ok _ => .error "request body must be a JSON object"

def acceptedPayload (body : Except String Json) : Except String Fields := do
  let payload ← parseJsonBody body
  validateChatPayload (.obj payload)
  return payload

/-- `payload.get("messages") or []`, where validation has seen to it that they are dicts. -/
def messagesOf (payload : Fields) : List Message := dictItems (get payload "messages")

/-- `payload.get("tools")`. -/
def toolsOf (payload : Fields) : List Json :=
  match get payload "tools" with
  | .arr tools => tools
  | _ => []

def invalidRequest (rt : Runtime) (code message : String) (param : Option String) (status : ℕ) (headers : Headers) :
    ApiResponse := openaiError rt message "invalid_request_error" (some code) param status headers

inductive Inbound where
  | conflict (message : String)
  /-- The handler goes on, with the store or without it. -/
  | proceed (store : Bool)
  deriving DecidableEq, Repr

/-- The handlers around the calls that persist the request. -/
def StoreFailure.inbound : StoreFailure → Except ChatError Inbound
  | .divergence _ message => .ok (.conflict message)
  | .infrastructure _ => .ok (.proceed false)
  | .exception text => .error (.store (.exception text))
  | .baseException text => .error (.store (.baseException text))

/-- The handlers around the call that persists the reply. -/
def StoreFailure.outbound : StoreFailure → Except ChatError Unit
  | .divergence .. | .infrastructure _ => .ok ()
  | .exception text => .error (.store (.exception text))
  | .baseException text => .error (.store (.baseException text))

/-- The handlers in `index_memory`. -/
def indexOutcome : Except IndexFailure ℕ → Except ChatError Unit
  | .error (.baseException text) => .error (.indexing text)
  | .error .timeout | .error (.exception _) | .ok _ => .ok ()

section Stages

variable {F : Type}

def retrievedOrNone : Except RetrieveError (List (RetrievedItem F)) → Except ChatError (List (RetrievedItem F))
  | .ok items => .ok items
  | .error (.retrieval _) => .ok []
  | .error (.programming error) => .error (.retrieval error)

/-- Step 1: the messages of the request. -/
def persistInbound (store : Bool) (conversationId : String) (messages : List Message) : ChatProg F Inbound :=
  if !store then return .proceed false
  else do
    let ensured : Except StoreFailure Unit ← Prog.send (ChatCall.ensureConversation conversationId)
    match ensured with
    | .error failure => Prog.ofExcept failure.inbound
    | .ok _ => do
        let reconciled : Except StoreFailure Unit ← Prog.send (ChatCall.reconcileHistory conversationId (messages.map .obj) none)
        match reconciled with
        | .error failure => Prog.ofExcept failure.inbound
        | .ok _ => return .proceed true

def retrieveContext (app : ProxyApp F) (conversationId : String) (messages : List Message) :
    ChatProg F (List (RetrievedItem F)) := do
  let query ← Prog.ofExcept ((extractRetrievalQuery app.rt (messages.map .obj)).mapError .python)
  if app.memory && query ≠ "" then do
    let answer : Except RetrieveError (List (RetrievedItem F)) ← Prog.send (ChatCall.retrieve query conversationId)
    Prog.ofExcept (retrievedOrNone answer)
  else return []

/-- What the handlers make of what `build` returns or raises. -/
def planOutcome : Except BuildError (ContextPlan F) → Except ChatError (Except String (List Message))
  | .ok plan => .ok (.ok plan.messages)
  | .error (.overflow required usable) =>
    .ok (.error ("context requires " ++ toString required ++ " tokens, usable budget is " ++ toString usable))
  | .error (.python error) => .error (.python error)
  | .error (.promoted key) => .error (.promoted key)

def enginePlan [Score F] (app : ProxyApp F) (engine : ContextAssemblyEngine F) (conversationId : String)
    (messages : List Message) (tools : List Json) (retrieved : List (RetrievedItem F)) :
    Except ChatError (Except String (List Message)) := do
  let (history, currentRequest) ← (separateCurrentRequest messages).mapError .python
  planOutcome (engine.build app.rt { history, currentRequest, tools, retrieved, conversationId := some conversationId })

def windowPlan (app : ProxyApp F) (messages : List Message) (tools : List Json) :
    Except ChatError (Except String (List Message)) := do
  let (history, currentRequest) ← (separateCurrentRequest messages).mapError .python
  match planContext app.rt history currentRequest tools app.usableBudgetTokens app.pinnedBudgetTokens with
  | .ok plan => return .ok plan.messages
  | .error (.overflow required usable) =>
    return .error ("request requires " ++ toString required ++ " tokens, usable budget is " ++ toString usable)
  | .error (.python error) => throw (.python error)

/-- Step 2: the messages to send, or the text of an overflow. -/
def assembleContext [Score F] (app : ProxyApp F) (conversationId : String) (messages : List Message) (tools : List Json) :
    ChatProg F (Except String (List Message)) :=
  match app.engine with
  | some engine => do
      let retrieved ← retrieveContext app conversationId messages
      Prog.ofExcept (enginePlan app engine conversationId messages tools retrieved)
  | none => Prog.ofExcept (windowPlan app messages tools)

/-! ### The stages behind the provider -/

def indexMemory (app : ProxyApp F) (conversationId : String) : ChatProg F Unit :=
  if !app.memory || !app.autoIndex then return ()
  else do
    let indexed : Except IndexFailure ℕ ← Prog.send (ChatCall.indexCompletedTurns conversationId)
    Prog.ofExcept (indexOutcome indexed)

/-- `persist_assistant`; a message that is `null` is none. -/
def persistAssistant (app : ProxyApp F) (store : Bool) (conversationId : String) (messages : List Message) (message : Json)
    (metadata : Option Fields) : ChatProg F Unit := do
  let () ← Prog.send (ChatCall.recordTokens (get (metadata.getD []) "usage"))
  if !store || message = .null then return ()
  else do
    let reconciled : Except StoreFailure Unit ←
      Prog.send (ChatCall.reconcileHistory conversationId (messages.map .obj ++ [message]) metadata)
    match reconciled with
    | .error failure => Prog.ofExcept failure.outbound
    | .ok _ => indexMemory app conversationId

/-- The message and the metadata of a buffered answer, if it has the expected shape. -/
def answerOf : JsonBody → Option (Json × Fields)
  | .value (.obj parsed) =>
    match get parsed "choices" with
    | .arr (.obj choice :: _) =>
      if has choice "message" then
        some (get choice "message",
          [("finish_reason", get choice "finish_reason"), ("usage", get parsed "usage"),
            ("model", get parsed "model")].filter (·.2 ≠ .null))
      else none
    | _ => none
  | _ => none

/-- The message and the metadata of a buffered answer that are persisted: those of a success that can be read. -/
def bufferedAnswer (app : ProxyApp F) (status : ℕ) (body : Body) : Option (Json × Fields) :=
  if 200 ≤ status ∧ status < 300 then answerOf (app.loads body) else none

/-- `metadata or None`. -/
def orNone (metadata : Fields) : Option Fields := if metadata = [] then none else some metadata

/-- What the routes catch of the provider's errors, and the answer they make of it. -/
def upstreamFailed (app : ProxyApp F) (raised : Raised) : Except ChatError ApiResponse :=
  match errorBodyResponse app.rt app.loads raised with
  | some response => .ok response
  | none => .error (.provider raised)

/-- What `persist_assistant` raises, as the stream sees it. -/
def finishOutcome : Except ChatError Unit → FinishOutcome String
  | .ok () => .returns
  | .error (.store (.baseException text)) | .error (.indexing text) => .baseException text
  | .error _ => .exception ""

/-- What a stream passes to `persist_assistant`, if the capture can be finished. -/
def streamedAnswer (app : ProxyApp F) (playback : Playback) : Option (Json × Fields) :=
  let left := (pump playback.ending playback.consumer { maxBytes := some app.maxCaptureBytes } playback.chunks).2
  match finishArguments app.loadsEvent left.1 left.2 with
  | .error _ => none
  | .ok (message, metadata) => some ((message.map .obj).getD .null, metadata)

/-- What the reader of a stream sees, with what `persist_assistant` comes to. -/
def played (app : ProxyApp F) (playback : Playback) (finish : FinishOutcome String) : ResponseContent :=
  .stream (iterBytes app.loadsEvent (some app.maxCaptureBytes) finish playback.ending playback.consumer playback.chunks)

/-- `PersistingLLMStream.iter_bytes` with `persist_assistant` behind it. -/
def streamContent (app : ProxyApp F) (store : Bool) (conversationId : String) (messages : List Message)
    (playback : Playback) : ChatProg F ResponseContent :=
  match streamedAnswer app playback with
  | none => return played app playback .returns
  | some (message, metadata) => do
      let finished ← (persistAssistant app store conversationId messages message (some metadata)).attempt
      return played app playback (finishOutcome finished)

def streamedResponse (app : ProxyApp F) (conversationId : String) (head : ResponseHead) (content : ResponseContent) :
    ApiResponse := (streamingResponse app.rt head content).withHeader conversationHeader conversationId

def answerStreaming (app : ProxyApp F) (store : Bool) (conversationId : String) (messages : List Message)
    (payload : Fields) : ChatProg F ApiResponse := do
  let opened : Except Raised ResponseHead ← Prog.send (ChatCall.openStream payload)
  match opened with
  | .error raised => Prog.ofExcept (upstreamFailed app raised)
  | .ok head => do
      let playback : Option Playback ← Prog.send ChatCall.readStream
      match playback with
      | none => return streamedResponse app conversationId head .unread
      | some playback => do
          let content ← streamContent app store conversationId messages playback
          return streamedResponse app conversationId head content

def bufferedResponse (app : ProxyApp F) (conversationId : String) (status : ℕ) (headers : Headers) (body : Body) : ApiResponse :=
  (upstreamResponse app.rt status headers body).withHeader conversationHeader conversationId

def answerBuffered (app : ProxyApp F) (store : Bool) (conversationId : String) (messages : List Message)
    (payload : Fields) : ChatProg F ApiResponse := do
  let completed : Except Raised (ℕ × Headers × Body) ← Prog.send (ChatCall.complete payload)
  match completed with
  | .error raised => Prog.ofExcept (upstreamFailed app raised)
  | .ok (status, headers, body) =>
    match bufferedAnswer app status body with
    | none => return bufferedResponse app conversationId status headers body
    | some (message, metadata) => do
        persistAssistant app store conversationId messages message (orNone metadata)
        return bufferedResponse app conversationId status headers body

/-! ### The handler -/

def outPayload (payload : Fields) (messages : List Message) : Fields :=
  Dict.set "messages" (.arr (messages.map .obj)) payload

def answer (app : ProxyApp F) (store : Bool) (conversationId : String) (payload : Fields) (messages : List Message) :
    ChatProg F ApiResponse :=
  if get payload "stream" = .bool true then
    answerStreaming app store conversationId (messagesOf payload) (outPayload payload messages)
  else answerBuffered app store conversationId (messagesOf payload) (outPayload payload messages)

def conflictResponse (app : ProxyApp F) (conversationId message : String) : ApiResponse :=
  invalidRequest app.rt "history_conflict" message none 409 [("X-Conversation-ID", conversationId)]

def overflowResponse (app : ProxyApp F) (conversationId message : String) : ApiResponse :=
  invalidRequest app.rt "context_length_exceeded" message (some "messages") 400 [("X-Conversation-ID", conversationId)]

/-- The handler behind its first step. -/
def proceedWith [Score F] (app : ProxyApp F) (conversationId : String) (payload : Fields) : Inbound → ChatProg F ApiResponse
  | .conflict message => return conflictResponse app conversationId message
  | .proceed store => do
      let planned ← assembleContext app conversationId (messagesOf payload) (toolsOf payload)
      match planned with
      | .error message => return overflowResponse app conversationId message
      | .ok messages => answer app store conversationId payload messages

/-- The handler once the conversation is known; the payload no longer names it. -/
def serveConversation [Score F] (app : ProxyApp F) (conversationId : String) (payload : Fields) : ChatProg F ApiResponse :=
  persistInbound app.store conversationId (messagesOf payload) >>= proceedWith app conversationId payload

def chatCompletions [Score F] (app : ProxyApp F) (request : ChatRequest) : ChatProg F ApiResponse :=
  match acceptedPayload request.body with
  | .error message => return invalidRequest app.rt "invalid_request_body" message none 400 []
  | .ok payload =>
    match requestedConversation app.rt app.ids app.identity request.headers payload with
    | .error message => return invalidRequest app.rt "invalid_conversation_id" message none 400 []
    | .ok (some conversationId) => serveConversation app conversationId (pop payload "conversation_id")
    | .ok none => do
        let conversationId : String ← Prog.send ChatCall.uuid4
        serveConversation app conversationId (pop payload "conversation_id")

end Stages

end ContextProxy
