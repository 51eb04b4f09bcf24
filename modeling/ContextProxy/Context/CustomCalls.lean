import ContextProxy.Context.Alike

/-!
# What a custom tool call costs

`TokenCounter.message` opens the `function` field of a tool call and no other. A custom call has its name and its text under `custom`, so it costs the overhead of a call and nothing for them. A message with function calls turned into custom ones is cheaper by those texts, and costs the same only if they are empty; validation accepts no function call with an empty name.
-/

namespace ContextProxy

open Json

/-! ### Turning calls -/

def customCall (call : Fields) (name input : String) : Fields :=
  Json.set (Json.set (pop call "function") "type" (.str "custom")) "custom" (.obj [("name", .str name), ("input", .str input)])

/-- A call left as it is, or a function call turned into a custom call, if its strings are of the given sort. -/
inductive TurnedCall (p : String → String → Prop) : Json → Json → Prop where
  | same (call : Json) : TurnedCall p call call
  | turned {call function : Fields} {name arguments : String} (hfunction : Json.get call "function" = .obj function)
      (hname : Json.get function "name" = .str name) (harguments : Json.get function "arguments" = .str arguments)
      (hp : p name arguments) : TurnedCall p (.obj call) (.obj (customCall call name arguments))

inductive Turned (p : String → String → Prop) : Message → Message → Prop where
  | same (message : Message) : Turned p message message
  | turned {message : Message} {calls calls' : List Json} (hcalls : Json.get message "tool_calls" = .arr calls)
      (h : List.Forall₂ (TurnedCall p) calls calls') : Turned p message (Json.set message "tool_calls" (.arr calls'))

def AnyText (_ _ : String) : Prop := True

def BlankText (name arguments : String) : Prop := name = "" ∧ arguments = ""

/-! ### Costs -/

section Costs

variable {rt : Runtime} {p : String → String → Prop} {call function : Fields} {name arguments : String}

theorem textTokens_eq_zero_iff {text : String} : textTokens text = 0 ↔ text = "" := by
  rw [textTokens, lengthTokens]
  constructor
  · intro h
    by_contra hne
    rw [if_neg fun hlength => hne (String.length_eq_zero_iff.mp hlength)] at h
    omega
  · rintro rfl
    rfl

theorem toolCallTokens_function (hfunction : Json.get call "function" = .obj function)
    (hname : Json.get function "name" = .str name) (harguments : Json.get function "arguments" = .str arguments) :
    toolCallTokens rt (.obj call) = .ok (toolCallOverheadTokens + textTokens name + textTokens arguments) := by
  have hne : function ≠ [] := by
    rintro rfl
    cases hname
  have hdict : dictOr (.obj function) = .ok function := by
    rw [dictOr, if_neg (by simp [truthy, hne])]
  rw [toolCallTokens, hfunction, hdict]
  show (valueTokens (Json.get function "name") >>= _) = _
  rw [hname, harguments]
  rfl

theorem toolCallTokens_custom (call : Fields) (name input : String) :
    toolCallTokens rt (.obj (customCall call name input)) = .ok toolCallOverheadTokens := by
  have hfunction : Json.get (customCall call name input) "function" = .null := by
    rw [Json.get, customCall, lookup_set, if_neg (by decide), lookup_set, if_neg (by decide), lookup_pop, if_pos rfl]
    rfl
  rw [toolCallTokens, hfunction]
  rfl

variable {calls calls' : List Json}

theorem callTokens_turned (h : List.Forall₂ (TurnedCall AnyText) calls calls') :
    SameOutcome (fun n n' => n' ≤ n ∧ (n' = n → List.Forall₂ (TurnedCall BlankText) calls calls'))
      (sumM (toolCallTokens rt) calls) (sumM (toolCallTokens rt) calls') := by
  induction h with
  | nil => exact .ok ⟨le_rfl, fun _ => .nil⟩
  | @cons call call' calls calls' hcall _ ih =>
    rw [sumM_cons, sumM_cons]
    cases hcall with
    | same call =>
      cases toolCallTokens rt call with
      | error e => exact .error e
      | ok n =>
        refine ih.bind fun k k' hk => .ok ⟨by omega, ?_⟩
        intro heq
        exact .cons (.same call) (hk.2 (by omega))
    | @turned fields function name arguments hfunction hname harguments hp =>
      rw [toolCallTokens_function hfunction hname harguments, toolCallTokens_custom]
      refine ih.bind fun k k' hk => .ok ⟨by omega, ?_⟩
      intro heq
      have hblank : BlankText name arguments :=
        ⟨textTokens_eq_zero_iff.mp (by omega), textTokens_eq_zero_iff.mp (by omega)⟩
      exact .cons (.turned hfunction hname harguments hblank) (hk.2 (by omega))

theorem callTokens_blank (h : List.Forall₂ (TurnedCall BlankText) calls calls') :
    sumM (toolCallTokens rt) calls = sumM (toolCallTokens rt) calls' := by
  apply sumM_congr_forall₂
  refine h.imp fun call call' hcall => ?_
  cases hcall with
  | same call => rfl
  | turned hfunction hname harguments hp =>
    rw [toolCallTokens_function hfunction hname harguments, toolCallTokens_custom, hp.1, hp.2]
    rfl

theorem itemsOr_arr (items : List Json) : itemsOr (.arr items) = .ok items := by
  cases items with
  | nil => rfl
  | cons item items => rfl

theorem messageTokens_eq_bind (message : Message) : messageTokens rt message
    = (itemsOr (Json.get message "tool_calls") >>= fun calls => sumM (toolCallTokens rt) calls >>= fun callTokens =>
        valueTokens (Json.get message "tool_call_id") >>= fun idTokens =>
        valueTokens (Json.get message "name") >>= fun nameTokens =>
        pure (messageOverheadTokens + serializedTokens rt (Json.get message "content") + callTokens + idTokens + nameTokens)) :=
  rfl

theorem get_set_of_ne (message : Message) {key k : String} (h : k ≠ key) (value : Json) :
    Json.get (Json.set message key value) k = Json.get message k := by
  rw [Json.get, Json.get, lookup_set, if_neg h]

theorem get_set_self (message : Message) (key : String) (value : Json) : Json.get (Json.set message key value) key = value := by
  rw [Json.get, lookup_set, if_pos rfl, Option.getD_some]

variable {m m' : Message}

theorem Turned.role_eq (h : Turned p m m') : Json.get m' "role" = Json.get m "role" := by
  cases h with
  | same => rfl
  | turned hcalls h => exact get_set_of_ne m (by decide) _

theorem Turned.fingerprintable_iff (h : Turned p m m') : Fingerprintable rt m ↔ Fingerprintable rt m' := by
  cases h with
  | same => rfl
  | turned hcalls h => rw [Fingerprintable, Fingerprintable, get_set_of_ne m (by decide)]

theorem messageTokens_turned (h : Turned AnyText m m') :
    SameOutcome (fun n n' => n' ≤ n ∧ (n' = n → Turned BlankText m m')) (messageTokens rt m) (messageTokens rt m') := by
  cases h with
  | same =>
    cases messageTokens rt m with
    | error e => exact .error e
    | ok n => exact .ok ⟨le_rfl, fun _ => .same m⟩
  | @turned calls calls' hcalls h =>
    rw [messageTokens_eq_bind, messageTokens_eq_bind, get_set_self, get_set_of_ne m (by decide), get_set_of_ne m (by decide),
      get_set_of_ne m (by decide), hcalls, itemsOr_arr, itemsOr_arr]
    refine (callTokens_turned h).bind fun k k' hk => ?_
    cases valueTokens (Json.get m "tool_call_id") with
    | error e => exact .error e
    | ok idTokens =>
      cases valueTokens (Json.get m "name") with
      | error e => exact .error e
      | ok nameTokens =>
        refine .ok ⟨by omega, ?_⟩
        intro heq
        exact .turned hcalls (hk.2 (by omega))

theorem messageTokens_blank (h : Turned BlankText m m') : messageTokens rt m' = messageTokens rt m := by
  cases h with
  | same => rfl
  | @turned calls calls' hcalls h =>
    rw [messageTokens_eq_bind, messageTokens_eq_bind, get_set_self, get_set_of_ne m (by decide), get_set_of_ne m (by decide),
      get_set_of_ne m (by decide), hcalls, itemsOr_arr, itemsOr_arr]
    show (sumM (toolCallTokens rt) calls' >>= _) = (sumM (toolCallTokens rt) calls >>= _)
    rw [callTokens_blank h]

/-- A message that can be counted has the same cost only if the turned strings are empty. One that cannot raises in both forms. -/
theorem messageTokens_turned_iff (h : Turned AnyText m m') :
    messageTokens rt m' = messageTokens rt m ↔ (Readable rt m → Turned BlankText m m') := by
  have houtcome : SameOutcome _ (messageTokens rt m) (messageTokens rt m') := messageTokens_turned h
  constructor
  · rintro heq ⟨n, hn⟩
    obtain ⟨n', hn', -, hblank⟩ := houtcome.exists_ok hn
    exact hblank (Except.ok.inj (hn'.symm.trans (heq.trans hn)))
  · intro hblank
    by_cases hreadable : Readable rt m
    · exact messageTokens_blank (hblank hreadable)
    · rw [Readable] at hreadable
      generalize messageTokens rt m = outcome at houtcome hreadable
      generalize messageTokens rt m' = outcome' at houtcome
      cases houtcome with
      | error e => rfl
      | ok hn => exact absurd ⟨_, rfl⟩ hreadable

end Costs

/-! ### Budgets -/

/-- Every message costs the same, and whatever is planned for the two payloads overflows together and keeps the same units. -/
structure SameBudget (rt : Runtime) (messages messages' : List Message) : Prop where
  costs : List.Forall₂ (fun m m' => messageTokens rt m' = messageTokens rt m) messages messages'
  plans : ∀ history request, separateCurrentRequest messages = .ok (history, request) →
    ∃ history' request', separateCurrentRequest messages' = .ok (history', request')
      ∧ (∀ tools usable reserved, SameOutcome (SameWindow (Turned AnyText))
        (planContext rt history request tools usable reserved) (planContext rt history' request' tools usable reserved))
      ∧ ∀ (F : Type) [Score F] (engine : ContextAssemblyEngine F) (input : BuildInput F), input.history = history →
        input.currentRequest = request →
        SameBuild engine rt (Turned AnyText) input { input with history := history', currentRequest := request' }

theorem keepsBudget_turned (rt : Runtime) :
    KeepsBudget rt fun m m' => Turned AnyText m m' ∧ messageTokens rt m' = messageTokens rt m where
  role _ _ h := h.1.role_eq
  cost _ _ h := h.2
  fingerprintable _ _ h := h.1.fingerprintable_iff

theorem sameBudget_of_costs {rt : Runtime} {messages messages' : List Message}
    (h : List.Forall₂ (fun m m' => Turned AnyText m m' ∧ messageTokens rt m' = messageTokens rt m) messages messages') :
    SameBudget rt messages messages' := by
  have hkeeps := keepsBudget_turned rt
  refine ⟨h.imp fun _ _ hm => hm.2, ?_⟩
  intro history request hsplit
  obtain ⟨⟨history', request'⟩, hsplit', hhistory, hrequest⟩ := (hkeeps.separateCurrentRequest h).exists_ok hsplit
  refine ⟨history', request', hsplit', ?_, ?_⟩
  · intro tools usable reserved
    exact (hkeeps.planContext hhistory hrequest tools usable reserved).imp fun _ _ => SameWindow.imp fun _ _ hm => hm.1
  · rintro F _ engine input rfl rfl
    exact (hkeeps.build hhistory hrequest engine).imp fun _ _ hm => hm.1

/-- Turning function calls into custom calls leaves the budget as it is only if the turned calls have empty names and arguments. -/
theorem sameBudget_turned_iff (rt : Runtime) {messages messages' : List Message}
    (h : List.Forall₂ (Turned AnyText) messages messages') : SameBudget rt messages messages' ↔
      List.Forall₂ (fun m m' => Readable rt m → Turned BlankText m m') messages messages' := by
  constructor
  · intro hbudget
    exact List.Forall₂.mp (fun _ _ hm => (messageTokens_turned_iff hm).mp) h hbudget.costs
  · intro hblank
    apply sameBudget_of_costs
    exact List.Forall₂.mp (fun _ _ hm hblank => ⟨hm, (messageTokens_turned_iff hm).mpr hblank⟩) h hblank

def callMessage (name arguments : String) : Message :=
  [("role", .str "assistant"), ("tool_calls", .arr [.obj [("type", .str "function"),
    ("function", .obj [("name", .str name), ("arguments", .str arguments)])]])]

def customMessage (name input : String) : Message :=
  Json.set (callMessage name input) "tool_calls" (.arr [.obj (customCall [("type", .str "function"),
    ("function", .obj [("name", .str name), ("arguments", .str input)])] name input)])

theorem turned_callMessage {p : String → String → Prop} {name arguments : String} (hp : p name arguments) :
    Turned p (callMessage name arguments) (customMessage name arguments) :=
  .turned rfl (.cons (.turned rfl rfl rfl hp) .nil)

/-- A call without name and arguments costs the same in both forms. -/
theorem sameBudget_turned_blank : SameBudget plainRuntime [callMessage "" ""] [customMessage "" ""] :=
  (sameBudget_turned_iff plainRuntime (.cons (turned_callMessage trivial) .nil)).mpr
    (.cons (fun _ => turned_callMessage ⟨rfl, rfl⟩) .nil)

/-- A request with a function call that does not fit in twenty tokens fits with a custom call. -/
theorem custom_call_undercounted : List.Forall₂ (Turned AnyText) [textMessage "user" "Hi", callMessage "search" "[1,2,3]"]
      [textMessage "user" "Hi", customMessage "search" "[1,2,3]"]
    ∧ messageTokens plainRuntime (callMessage "search" "[1,2,3]") = .ok 16
    ∧ messageTokens plainRuntime (customMessage "search" "[1,2,3]") = .ok 12
    ∧ planContext plainRuntime [] [textMessage "user" "Hi", callMessage "search" "[1,2,3]"] [] 20 0 = .error (.overflow 21 20)
    ∧ (∃ plan, planContext plainRuntime [] [textMessage "user" "Hi", customMessage "search" "[1,2,3]"] [] 20 0 = .ok plan)
    ∧ ¬SameBudget plainRuntime [textMessage "user" "Hi", callMessage "search" "[1,2,3]"]
      [textMessage "user" "Hi", customMessage "search" "[1,2,3]"] := by
  refine ⟨.cons (.same _) (.cons (turned_callMessage trivial) .nil), rfl, rfl, rfl, ⟨_, rfl⟩, ?_⟩
  intro hbudget
  cases hbudget.costs with
  | cons _ hcosts =>
    cases hcosts with
    | cons hcost _ => exact absurd hcost (by decide)

end ContextProxy
