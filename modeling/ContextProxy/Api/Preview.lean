import ContextProxy.Api.ChatGuard

/-!
# The preview of a context

`POST /internal/v1/conversations/{conversation_id}/context/preview` plans a context and shows the plan without its messages. It runs the steps of the chat endpoint in another order and has to agree with it: on the same answers of the memories it shows the plan that would be sent, or the overflow (`preview_agrees`).
-/

namespace ContextProxy

open Json Prog

/-- `debug_view`. -/
structure DebugView (F : Type) where
  selected : List (SelectedItem F)
  dropped : List DroppedCandidate
  tokenEstimate : ℕ
  toolsTokens : ℕ
  budget : ℕ
  rationale : String
  diagnostics : Diagnostics F

def ContextPlan.debugView {F : Type} (plan : ContextPlan F) : DebugView F where
  selected := plan.selectedItems
  dropped := plan.droppedItems
  tokenEstimate := plan.tokenEstimate
  toolsTokens := plan.toolsTokens
  budget := plan.budget
  rationale := plan.rationale
  diagnostics := plan.diagnostics

/-- How the endpoint fails: with an `HTTPException`, or with an exception that leaves it. -/
inductive PreviewError where
  | route (error : RouteError)
  | raised (error : ChatError)

structure PreviewRequest where
  messages : List Message
  tools : Option (List Fields)

def PreviewRequest.toolsList (body : PreviewRequest) : List Json := (body.tools.getD []).map .obj

def PreviewRequest.payload (body : PreviewRequest) : Json :=
  .obj [("messages", .arr (body.messages.map .obj)), ("tools", (body.tools.map fun tools => .arr (tools.map .obj)).getD .null)]

section Preview

variable {F : Type}

/-- What the endpoint makes of what `build` returns or raises. -/
def viewOutcome : Except BuildError (ContextPlan F) → Except PreviewError (DebugView F)
  | .ok plan => .ok plan.debugView
  | .error (.overflow required usable) => .error (.route (.http 400
      ("context requires " ++ toString required ++ " tokens, usable budget is " ++ toString usable)))
  | .error (.python error) => .error (.raised (.python error))
  | .error (.promoted key) => .error (.raised (.promoted key))

variable [Score F]

def previewOf (app : ProxyApp F) (engine : ContextAssemblyEngine F) (c : String)
    (history currentRequest : List Message) (tools : List Json) :
    Except ChatError (List (RetrievedItem F)) → Except PreviewError (DebugView F)
  | .error error => .error (.raised error)
  | .ok retrieved =>
    viewOutcome
      (engine.build app.rt { history, currentRequest, tools, retrieved, conversationId := some c })

/-- `context_preview`, once `require_internal_auth` has passed. -/
def contextPreview (app : ProxyApp F) (c : String) (body : PreviewRequest) :
    Prog (ChatAnswer F) PreviewError (DebugView F) :=
  match parseUuid app.ids.uuid app.ids.texts c "conversation_id" with
  | .error error => .raise (.route error)
  | .ok parsed =>
    match app.engine with
    | none => .raise (.route (.http 503 "context engine unavailable"))
    | some engine =>
      match validateChatPayload body.payload with
      | .error text => .raise (.route (.http 400 text))
      | .ok () =>
        match separateCurrentRequest body.messages with
        | .error error => .raise (.raised (.python error))
        | .ok (history, currentRequest) => do
            let retrieved ← (retrieveContext app parsed body.messages).attempt
            Prog.ofExcept (previewOf app engine parsed history currentRequest body.toolsList retrieved)

/-- What the preview shows of what production plans with the same items. -/
inductive Shows (app : ProxyApp F) (engine : ContextAssemblyEngine F) (c : String) (history currentRequest : List Message)
    (tools : List Json) : Except ChatError (Except String (List Message)) → Except PreviewError (DebugView F) → Prop
  | plan {retrieved : List (RetrievedItem F)} {plan : ContextPlan F}
      (h : engine.build app.rt { history, currentRequest, tools, retrieved, conversationId := some c } = .ok plan)
      (htokens : plan.debugView.tokenEstimate = tokensOfAll app.rt plan.messages + toolsTokens app.rt tools) :
      Shows app engine c history currentRequest tools (.ok (.ok plan.messages)) (.ok plan.debugView)
  | overflow (message : String) :
      Shows app engine c history currentRequest tools (.ok (.error message)) (.error (.route (.http 400 message)))
  | raised (error : ChatError) :
      Shows app engine c history currentRequest tools (.error error) (.error (.raised error))

variable {app : ProxyApp F} {engine : ContextAssemblyEngine F}

theorem assembleContext_eq (hengine : app.engine = some engine) (c : String) (messages : List Message)
    (tools : List Json) : assembleContext app c messages tools = retrieveContext app c messages >>=
      fun retrieved => Prog.ofExcept (enginePlan app engine c messages tools retrieved) := by
  rw [assembleContext, hengine]

variable {currentRequest history : List Message}

theorem contextPreview_eq (hengine : app.engine = some engine) {c parsed : String}
    (hid : app.ids.uuid.python c = some parsed) {body : PreviewRequest}
    (hvalid : validateChatPayload body.payload = .ok ())
    (hsplit : separateCurrentRequest body.messages = .ok (history, currentRequest)) :
    contextPreview app c body = (retrieveContext app parsed body.messages).attempt >>=
      fun retrieved => Prog.ofExcept (previewOf app engine parsed history currentRequest body.toolsList retrieved) := by
  simp only [contextPreview, parseUuid, hid, hengine, hvalid, hsplit]

theorem tokenEstimate_of_build {rt : Runtime} {input : BuildInput F} {plan : ContextPlan F}
    (h : engine.build rt input = .ok plan) :
    plan.tokenEstimate = tokensOfAll rt plan.messages + toolsTokens rt input.tools := by
  obtain ⟨-, -, _, _, _, hplan⟩ := assembled_of_build h
  obtain ⟨tokens, htokens, hestimate⟩ := hplan.estimate
  rw [hestimate, (messagesTokens_eq_ok.mp htokens).2]

theorem shows_previewOf (engine : ContextAssemblyEngine F) (c : String) {messages : List Message}
    (tools : List Json) (hsplit : separateCurrentRequest messages = .ok (history, currentRequest))
    (retrieved : Except ChatError (List (RetrievedItem F))) : Shows app engine c history currentRequest tools
      (retrieved >>= enginePlan app engine c messages tools)
      (previewOf app engine c history currentRequest tools retrieved) := by
  cases retrieved with
  | error error => exact .raised error
  | ok retrieved =>
    have hplan : enginePlan app engine c messages tools retrieved = planOutcome
        (engine.build app.rt { history, currentRequest, tools, retrieved, conversationId := some c }) := by
      rw [enginePlan, hsplit]
      rfl
    rw [previewOf]
    change Shows app engine c history currentRequest tools (enginePlan app engine _ _ _ _) _
    rw [hplan]
    cases hbuild : engine.build app.rt
        { history, currentRequest, tools, retrieved, conversationId := some c } with
    | ok plan => exact .plan hbuild (tokenEstimate_of_build hbuild)
    | error error =>
      cases error with
      | overflow required usable => exact .overflow _
      | python error => exact .raised _
      | promoted key => exact .raised _

/-- The preview asks what production asks, and nothing else, and shows what production would do with the answers. -/
theorem preview_agrees {app : ProxyApp F} {engine : ContextAssemblyEngine F} (hengine : app.engine = some engine)
    {c parsed : String} (hid : app.ids.uuid.python c = some parsed) {body : PreviewRequest}
    (hvalid : validateChatPayload body.payload = .ok ()) {history currentRequest : List Message}
    (hsplit : separateCurrentRequest body.messages = .ok (history, currentRequest)) (trace : ChatTrace F) :
    (∀ planned, (assembleContext app parsed body.messages body.toolsList).Runs trace planned →
      ∃ shown, (contextPreview app c body).Runs trace shown ∧
        Shows app engine parsed history currentRequest body.toolsList planned shown) ∧
    (∀ shown, (contextPreview app c body).Runs trace shown →
      (∀ event ∈ trace, ∃ query, event.1 = .retrieve query parsed) ∧
      ∃ planned, (assembleContext app parsed body.messages body.toolsList).Runs trace planned ∧
        Shows app engine parsed history currentRequest body.toolsList planned shown) := by
  rw [assembleContext_eq hengine, contextPreview_eq hengine hid hvalid hsplit]
  refine ⟨?_, ?_⟩
  · intro planned hplanned
    obtain ⟨retrieved, hretrieve, rfl⟩ := runs_bind_ofExcept.mp hplanned
    refine ⟨_, ?_, shows_previewOf engine parsed body.toolsList hsplit retrieved⟩
    exact runs_attempt_bind.mpr ⟨retrieved, trace, [], hretrieve, runs_ofExcept.mpr ⟨rfl, rfl⟩, (List.append_nil _).symm⟩
  · intro shown hshown
    obtain ⟨retrieved, front, back, hretrieve, hback, rfl⟩ := runs_attempt_bind.mp hshown
    obtain ⟨rfl, rfl⟩ := runs_ofExcept.mp hback
    rw [List.append_nil]
    refine ⟨?_, _, runs_bind_ofExcept.mpr ⟨retrieved, hretrieve, rfl⟩, shows_previewOf engine parsed body.toolsList hsplit retrieved⟩
    intro event hevent
    cases retrieves_of_runs hretrieve with
    | unread => simp at hevent
    | skipped => simp at hevent
    | asked =>
      rw [List.mem_singleton.mp hevent]
      exact ⟨_, rfl⟩

end Preview

def helloPreview : PreviewRequest := { messages := [textMessage "user" "Hello."], tools := none }

/-- The preview of a greeting asks for memories, and shows the plan with the one it is given. -/
theorem preview_agrees_hello : ∃ planned shown,
    (assembleContext memoryApp "c" helloPreview.messages []).Runs [⟨.retrieve "Hello." "c", .ok [doorCode]⟩] planned ∧
      (contextPreview memoryApp "c" helloPreview).Runs [⟨.retrieve "Hello." "c", .ok [doorCode]⟩] shown ∧
      Shows memoryApp (plainEngine 1000 (by decide)) "c" [] [textMessage "user" "Hello."] [] planned shown ∧
      planned = .ok (.ok [doorCode.block, textMessage "user" "Hello."]) := by
  have hengine : memoryApp.engine = some (plainEngine 1000 (by decide)) := rfl
  have hid : memoryApp.ids.uuid.python "c" = some "c" := rfl
  have hplanned : ((assembleContext memoryApp "c" helloPreview.messages []).play memoryAnswers).2
      = .ok (.ok [doorCode.block, textMessage "user" "Hello."]) := by decide +kernel
  have hruns : (assembleContext memoryApp "c" helloPreview.messages helloPreview.toolsList).Runs
      [⟨.retrieve "Hello." "c", .ok [doorCode]⟩] _ := runs_play memoryAnswers _
  obtain ⟨shown, hshown, hshows⟩ := (preview_agrees hengine hid rfl rfl _).1 _ hruns
  exact ⟨_, shown, hruns, hshown, hshows, hplanned⟩

end ContextProxy
