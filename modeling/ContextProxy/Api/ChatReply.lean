import ContextProxy.Api.ChatGuard

/-!
# What the client gets

Once the provider has answered, the answer is the client's: persisting and indexing come behind it, and what they meet does not show unless it is an error that no handler expects (`reply_unaffected`). The tokens of an answer are counted once, store or no store (`tokens_counted_once`).
-/

namespace ContextProxy

open Json Prog
open List hiding get

section Reply

variable {F : Type}

/-! ### Behind the answer -/

/-- A cancellation, or what else `except Exception` does not catch, behind the answer. -/
def Aborts : Sigma (ChatAnswer F) → Prop
  | ⟨.reconcileHistory .., .error (.baseException _)⟩ => True
  | ⟨.indexCompletedTurns _, .error (.baseException _)⟩ => True
  | _ => False

/-- A failure of the store that no handler expects. -/
def Surprises : Sigma (ChatAnswer F) → Prop
  | ⟨.reconcileHistory .., .error (.exception _)⟩ => True
  | _ => False

section Persisted

variable {app : ProxyApp F} {store : Bool} {c : String} {messages : List Message} {message : Json}
  {metadata : Option Fields} {trace : ChatTrace F} {outcome : Except ChatError Unit}

theorem Persists.eq_ok (h : Persists app store c messages message metadata trace outcome)
    (hexpected : ∀ event ∈ trace, ¬Surprises event ∧ ¬Aborts event) : outcome = .ok () := by
  cases h with
  | skipped => rfl
  | unindexed => rfl
  | failed _ failure =>
    cases failure with
    | divergence => rfl
    | infrastructure => rfl
    | exception => exact ((hexpected _ (.tail _ (.head _))).1 trivial).elim
    | baseException => exact ((hexpected _ (.tail _ (.head _))).2 trivial).elim
  | indexed _ _ answer =>
    match answer with
    | .ok _ => rfl
    | .error .timeout => rfl
    | .error (.exception _) => rfl
    | .error (.baseException _) => exact ((hexpected _ (.tail _ (.tail _ (.head _)))).2 trivial).elim

theorem Persists.caught (h : Persists app store c messages message metadata trace outcome)
    (hexpected : ∀ event ∈ trace, ¬Aborts event) : (finishOutcome outcome).Caught := by
  cases h with
  | skipped => trivial
  | unindexed => trivial
  | failed _ failure =>
    cases failure with
    | divergence => trivial
    | infrastructure => trivial
    | exception => trivial
    | baseException => exact (hexpected _ (.tail _ (.head _)) trivial).elim
  | indexed _ _ answer =>
    match answer with
    | .ok _ => trivial
    | .error .timeout => trivial
    | .error (.exception _) => trivial
    | .error (.baseException _) => exact (hexpected _ (.tail _ (.tail _ (.head _))) trivial).elim

end Persisted

/-- What a handler catches makes no difference to whoever reads the stream. -/
theorem played_of_caught (app : ProxyApp F) (playback : Playback) {finish : FinishOutcome String} (h : finish.Caught) :
    played app playback finish = played app playback .returns := by
  simp only [played, iterBytes, FinishOutcome.raised_of_caught h]
  rfl

/-! ### The reply -/

variable [Score F] {app : ProxyApp F} {request : ChatRequest} {trace : ChatTrace F} {outcome : Except ChatError ApiResponse}

def RunsIn (app : ProxyApp F) (request : ChatRequest) (c : String) (trace : ChatTrace F) : Prop :=
  ∃ payload start rest, acceptedPayload request.body = .ok payload ∧
    Identifies app request.headers payload c start ∧ trace = start ++ rest

/-- Whatever the provider answers is what the client gets, and the failures that the handlers expect behind it do not show. -/
theorem reply_unaffected (h : (chatCompletions app request).Runs trace outcome) {event : Sigma (ChatAnswer F)}
    (hevent : event ∈ trace) {sent : Fields} (hsent : event.1.payload? = some sent) : ∃ c, RunsIn app request c trace ∧
      match event with
      | ⟨.complete _, .error raised⟩ => outcome = upstreamFailed app raised ∧ trace.getLast? = some event
      | ⟨.openStream _, .error raised⟩ => outcome = upstreamFailed app raised ∧ trace.getLast? = some event
      | ⟨.complete _, .ok (status, headers, body)⟩ =>
        (∀ event ∈ trace, ¬Surprises event ∧ ¬Aborts event) →
          outcome = .ok (bufferedResponse app c status headers body)
      | ⟨.openStream _, .ok head⟩ =>
        ∃ content, outcome = .ok (streamedResponse app c head content) ∧
          ((∀ event ∈ trace, ¬Aborts event) → (content = .unread ∧ ⟨.readStream, none⟩ ∈ trace) ∨
            ∃ playback, content = played app playback .returns ∧ ⟨.readStream, some playback⟩ ∈ trace)
      | _ => False := by
  rcases declined_or_asked h with ⟨hpreliminary, -⟩ |
    ⟨payload, c, start, inbound, assembly, back, store, forwarded, hasked, htrace⟩
  · rw [hpreliminary.unasked event hevent] at hsent
    cases hsent
  refine ⟨c, ⟨payload, start, inbound ++ assembly ++ back, hasked.accepted, hasked.identified, by simp [htrace]⟩, ?_⟩
  obtain ⟨-, rest, rfl⟩ := hasked.exists_rest (htrace ▸ hevent) hsent
  have hrest : rest ⊆ trace := by
    rw [htrace]
    exact fun event hmem => mem_append_right _ (mem_cons_of_mem _ hmem)
  cases hasked.answered with
  | refused _ raised => exact ⟨rfl, by simp [htrace]⟩
  | unopened _ raised => exact ⟨rfl, by simp [htrace]⟩
  | unparsed => exact fun _ => rfl
  | buffered _ _ _ _ hanswer hpersist =>
    intro hexpected
    rw [hpersist.eq_ok fun event hmem => hexpected event (hrest hmem)]
    rfl
  | unread _ head => exact ⟨.unread, rfl, fun _ => .inl ⟨rfl, hrest (.head _)⟩⟩
  | broken _ head playback => exact ⟨_, rfl, fun _ => .inr ⟨playback, rfl, hrest (.head _)⟩⟩
  | streamed _ head playback hanswer hpersist =>
    refine ⟨_, rfl, fun hexpected => .inr ⟨playback, ?_, hrest (.head _)⟩⟩
    apply played_of_caught
    exact hpersist.caught fun event hmem => hexpected event (hrest (.tail _ hmem))

/-- The greeting is answered with what the provider says. -/
theorem reply_unaffected_hello : ∃ c, helloRun.2 = .ok (bufferedResponse plainApp c 200 [] []) := by
  have hcompleted : ⟨.complete helloPayload, .ok (200, [], [])⟩ ∈ helloRun.1 := mem_of_getElem? (i := 3) rfl
  have hsent : (ChatCall.complete helloPayload).payload? = some helloPayload := rfl
  obtain ⟨c, -, h⟩ := reply_unaffected runs_helloRun hcompleted hsent
  refine ⟨c, h ?_⟩
  iterate 6 refine forall_mem_cons.mpr ⟨⟨id, id⟩, ?_⟩
  exact forall_mem_nil _

/-! ### Token accounting -/

omit [Score F]

def usageOf : JsonBody → Json
  | .value (.obj parsed) => get parsed "usage"
  | _ => .null

def ChatCall.counted? : ChatCall → Option Json
  | .recordTokens usage => some usage
  | _ => none

def countedUsage (event : Sigma (ChatAnswer F)) : Option Json := event.1.counted?

/-- What the upstream reports with an answer that can be read. -/
def reportedUsage (app : ProxyApp F) : Sigma (ChatAnswer F) → Option Json
  | ⟨.complete _, .ok (status, _, body)⟩ => (bufferedAnswer app status body).map fun _ => usageOf (app.loads body)
  | ⟨.readStream, some playback⟩ => (streamedAnswer app playback).map fun answer => get answer.2 "usage"
  | _ => none

theorem get_filter_ne_null {fields : Fields} (hkeys : (fields.map Prod.fst).Nodup) (key : String) :
    get (fields.filter (·.2 ≠ .null)) key = get fields key := by
  induction fields with
  | nil => rfl
  | cons field fields ih =>
    obtain ⟨hfresh, hrest⟩ := nodup_cons.mp hkeys
    have hget : ∀ rest : Fields, get (field :: rest) key = if key = field.1 then field.2 else get rest key := by
      intro rest
      rw [Json.get, Dict.lookup_cons]
      split <;> rfl
    by_cases hnull : field.2 = .null
    · rw [filter_cons_of_neg (by simpa using hnull), ih hrest, hget]
      split
      · rename_i hkey
        rw [Json.get, Option.not_isSome_iff_eq_none.mp (mt Dict.lookup_isSome_iff.mp (hkey ▸ hfresh)), hnull]
        rfl
      · rfl
    · rw [filter_cons_of_pos (by simpa using hnull), hget, hget, ih hrest]

variable {message : Json}

theorem usageOf_of_answerOf {body : JsonBody} {metadata : Fields} (h : answerOf body = some (message, metadata)) :
    get metadata "usage" = usageOf body := by
  unfold answerOf at h
  split at h
  · split at h
    · split at h
      · obtain ⟨-, rfl⟩ := Prod.mk.inj (Option.some.inj h)
        rw [get_filter_ne_null (by simp [List.map])]
        rfl
      · cases h
    · cases h
  · cases h

theorem usageOf_of_bufferedAnswer {status : ℕ} {body : Body} {metadata : Fields}
    (h : bufferedAnswer app status body = some (message, metadata)) : get metadata "usage" = usageOf (app.loads body) := by
  rw [bufferedAnswer, Option.ite_none_right_eq_some] at h
  exact usageOf_of_answerOf h.2

theorem getD_orNone (metadata : Fields) : (orNone metadata).getD [] = metadata := by
  rw [orNone]
  split
  · rename_i hnil
    exact hnil.symm
  · rfl

theorem Preliminary.usage (h : Preliminary trace) (app : ProxyApp F) :
    trace.filterMap countedUsage = [] ∧ trace.filterMap (reportedUsage app) = [] := by
  rw [filterMap_eq_nil_iff, filterMap_eq_nil_iff]
  refine ⟨?_, ?_⟩ <;> intro ⟨call, answer⟩ hevent <;> have hcall := h _ hevent <;> cases call <;>
    first | rfl | cases hcall

theorem Persists.usage {store : Bool} {c : String} {messages : List Message} {metadata : Option Fields}
    {outcome : Except ChatError Unit} (h : Persists app store c messages message metadata trace outcome) :
    trace.filterMap countedUsage = [get (metadata.getD []) "usage"] ∧ trace.filterMap (reportedUsage app) = [] := by
  cases h with
  | _ => exact ⟨rfl, rfl⟩

theorem Answers.usage {store : Bool} {c : String} {payload sent : Fields}
    (h : Answers app store c payload sent trace outcome) :
    trace.filterMap countedUsage = trace.filterMap (reportedUsage app) ∧ (trace.filterMap countedUsage).length ≤ 1 := by
  cases h with
  | refused => exact ⟨rfl, Nat.zero_le _⟩
  | unopened => exact ⟨rfl, Nat.zero_le _⟩
  | unread => exact ⟨rfl, Nat.zero_le _⟩
  | unparsed _ status headers body hanswer =>
    have hnone : reportedUsage app ⟨.complete sent, .ok (status, headers, body)⟩ = none :=
      congrArg (Option.map _) hanswer
    rw [filterMap_cons_none hnone]
    exact ⟨rfl, Nat.zero_le _⟩
  | broken _ head playback hanswer =>
    have hnone : reportedUsage app ⟨.readStream, some playback⟩ = none := congrArg (Option.map _) hanswer
    rw [filterMap_cons_none (f := reportedUsage app) rfl, filterMap_cons_none hnone]
    exact ⟨rfl, Nat.zero_le _⟩
  | @buffered _ status headers body _ metadata hanswer trace _ hpersist =>
    obtain ⟨hcounted, hreported⟩ := hpersist.usage
    have hsome : reportedUsage app ⟨.complete sent, .ok (status, headers, body)⟩ = some (get metadata "usage") := by
      rw [usageOf_of_bufferedAnswer hanswer]
      exact congrArg (Option.map _) hanswer
    rw [getD_orNone] at hcounted
    rw [filterMap_cons_none rfl, hcounted, filterMap_cons_some hsome, hreported]
    exact ⟨rfl, Nat.le_refl _⟩
  | @streamed _ head playback _ metadata hanswer trace _ hpersist =>
    obtain ⟨hcounted, hreported⟩ := hpersist.usage
    have hsome : reportedUsage app ⟨.readStream, some playback⟩ = some (get metadata "usage") :=
      congrArg (Option.map _) hanswer
    rw [filterMap_cons_none rfl, filterMap_cons_none rfl, hcounted, filterMap_cons_none rfl,
      filterMap_cons_some hsome, hreported]
    exact ⟨rfl, Nat.le_refl _⟩

/-- The tokens of an answer are counted exactly if it can be read, once, and as it reports them. -/
theorem tokens_counted_once [Score F] {app : ProxyApp F} {request : ChatRequest} {trace : ChatTrace F}
    {outcome : Except ChatError ApiResponse} (h : (chatCompletions app request).Runs trace outcome) :
    trace.filterMap countedUsage = trace.filterMap (reportedUsage app) ∧ (trace.filterMap countedUsage).length ≤ 1 := by
  rcases declined_or_asked h with ⟨hpreliminary, -⟩ |
    ⟨payload, c, start, inbound, assembly, back, store, forwarded, hasked, rfl⟩
  · obtain ⟨hcounted, hreported⟩ := hpreliminary.usage app
    simp [hcounted, hreported]
  · obtain ⟨hcounted, hreported⟩ := hasked.preliminary.usage app
    have hlast : (start ++ inbound ++ assembly ++ back).filterMap countedUsage = back.filterMap countedUsage := by
      rw [filterMap_append, hcounted, nil_append]
    have hlate : (start ++ inbound ++ assembly ++ back).filterMap (reportedUsage app) = back.filterMap (reportedUsage app) := by
      rw [filterMap_append, hreported, nil_append]
    rw [hlast, hlate]
    exact hasked.answered.usage

/-- The greeting is counted once, with no usage. -/
theorem tokens_counted_once_hello : [.null] = helloRun.1.filterMap (reportedUsage plainApp) :=
  (tokens_counted_once runs_helloRun).1

end Reply

end ContextProxy
