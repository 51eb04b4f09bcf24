import ContextProxy.Api.Traffic
import ContextProxy.Capture.Framing

/-!
# One client, one conversation

A client that sends its whole history, one request after the other: an equivalent copy of its last list and of the reply it has read, and something new. The store may be out of order at any call, before a transaction commits or after it; the upstream may fail; other conversations go on meanwhile.

The client reads the bytes it is sent, and the proxy stores what it has captured of them. The capture cuts a stream with `str.splitlines`, a reader at CR LF, LF and CR only. As long as both find the same events, the client is never told of a conflict, and what is stored is a copy of the start of what it has been told, or of all of it if the store was in order and the streams were whole (`serial_client_never_refused`).
-/

namespace ContextProxy

open Json Prog List

section SerialClient

variable {F : Type}
  {c : String} {logs : Logs} {told messages : List Message} {items : List Json} {item : Json}
  {metadata : Option Fields} {store : Bool} {trace start rest : ChatTrace F} {request : ChatRequest}

/-- A handler's calls are answered one by one, with the log of its conversation in nobody else's hands. -/
inductive Plays (c : String) : Logs → ChatTrace F → Logs → Prop
  | nil (logs : Logs) : Plays c logs [] logs
  | call (reaction : Reaction F) (logs : Logs) (call : ChatCall) {trace : ChatTrace F} {final : Logs}
      (h : Plays c (respond reaction logs call).2 trace final) :
      Plays c logs (⟨call, (respond reaction logs call).1⟩ :: trace) final
  | elsewhere {logs logs' : Logs} (hsame : logs' c = logs c) {trace : ChatTrace F} {final : Logs}
      (h : Plays c logs' trace final) : Plays c logs trace final

def Diverges (c : String) : Sigma (ChatAnswer F) → Prop
  | ⟨.ensureConversation id, .error (.divergence ..)⟩ => id = c
  | ⟨.reconcileHistory id .., .error (.divergence ..)⟩ => id = c
  | _ => False

def StoreFails : Sigma (ChatAnswer F) → Prop
  | ⟨.ensureConversation _, .error _⟩ => True
  | ⟨.reconcileHistory .., .error _⟩ => True
  | _ => False

instance : DecidablePred (StoreFails (F := F))
  | ⟨.ensureConversation _, .error _⟩ | ⟨.reconcileHistory .., .error _⟩ => .isTrue trivial
  | ⟨.ensureConversation _, .ok _⟩ | ⟨.reconcileHistory .., .ok _⟩ | ⟨.uuid4, _⟩ | ⟨.retrieve .., _⟩ | ⟨.complete _, _⟩
  | ⟨.openStream _, _⟩ | ⟨.readStream, _⟩ | ⟨.recordTokens _, _⟩ | ⟨.indexCompletedTurns _, _⟩ => .isFalse id

/-- The list that a call reconciles with the log of the conversation; one with anything but dicts in it never gets there. -/
def ChatCall.reconciles? (c : String) : ChatCall → Option (List Message)
  | .reconcileHistory id items _ => if id = c then asMessages items else none
  | _ => none

def reconciledLists (c : String) (trace : ChatTrace F) : List (List Message) :=
  trace.filterMap fun event => event.1.reconciles? c

theorem reconciledLists_cons (c : String) (event : Sigma (ChatAnswer F)) (trace : ChatTrace F) :
    reconciledLists c (event :: trace) = (event.1.reconciles? c).toList ++ reconciledLists c trace := by
  rw [reconciledLists, reconciledLists, filterMap_cons]
  cases event.1.reconciles? c <;> rfl

theorem reconciledLists_append (c : String) (front back : ChatTrace F) :
    reconciledLists c (front ++ back) = reconciledLists c front ++ reconciledLists c back := filterMap_append

/-! ### Lists that continue each other -/

variable {incoming : List Message} {answer : Except StoreFailure Unit} {event : Sigma (ChatAnswer F)}

theorem reconcileLog_of_continues {log : List Message} (h : Continues log incoming)
    (hitems : asMessages items = some incoming) (fault : Option StoreFault) (text : String) :
    (∀ index message, (reconcileLog fault text log items).1 ≠ .error (.divergence index message)) ∧
      ((reconcileLog fault text log items).2 = log ∨ Agree equivalent (reconcileLog fault text log items).2 incoming) ∧
      ((reconcileLog fault text log items).1 = .ok () → Agree equivalent (reconcileLog fault text log items).2 incoming) := by
  obtain ⟨hmode, hagree⟩ := h.appends
  rw [reconcileLog, hitems]
  cases fault with
  | none =>
    simp only [hmode, if_false]
    exact ⟨by simp, .inr hagree, fun _ => hagree⟩
  | some fault =>
    refine ⟨?_, ?_, ?_⟩
    · intro index message herror
      cases fault with
      | _ => cases herror
    · cases hcommitted : fault.committed with
      | false => exact .inl (by simp [hcommitted])
      | true => exact .inr (by simpa [hcommitted, hmode] using hagree)
    · intro hok
      cases hok

theorem Continues.trans {r r' r'' : List Message} (h : Continues r r') (h' : Continues r' r'') : Continues r r'' := by
  obtain ⟨a, b, rfl, ha⟩ := h
  exact (h'.of_append).of_agree ha

theorem Diverges.of_reconcile {id : String} (h : Diverges (F := F) c ⟨.reconcileHistory id items metadata, answer⟩) :
    id = c ∧ ∃ index message, answer = .error (.divergence index message) := by
  match answer, h with
  | .error (.divergence index message), h => exact ⟨h, index, message, rfl⟩

theorem eq_ok_of_not_storeFails {id : String} (h : ¬StoreFails (F := F) ⟨.reconcileHistory id items metadata, answer⟩) :
    answer = .ok () := by
  match answer, h with
  | .ok (), _ => rfl
  | .error _, h => exact (h trivial).elim

theorem reconcileLog_of_asMessages_none (h : asMessages items = none) (fault : Option StoreFault) (text : String)
    (log : List Message) : (∀ index message, (reconcileLog fault text log items).1 ≠ .error (.divergence index message)) ∧
      (reconcileLog fault text log items).2 = log := by
  rw [reconcileLog, h]
  refine ⟨?_, rfl⟩
  intro index message herror
  cases fault with
  | none => cases herror
  | some fault =>
    cases fault with
    | _ => cases herror

theorem respond_of_not_reconciles {call : ChatCall} (h : call.reconciles? c = none) (reaction : Reaction F) (logs : Logs) :
    ¬Diverges c ⟨call, (respond reaction logs call).1⟩ ∧ (respond reaction logs call).2 c = logs c := by
  cases call with
  | reconcileHistory id items metadata =>
    by_cases hid : id = c
    · subst hid
      rw [ChatCall.reconciles?, if_pos rfl] at h
      obtain ⟨hanswer, hlog⟩ := reconcileLog_of_asMessages_none h reaction.fault reaction.text (logs id)
      refine ⟨?_, (Function.update_self ..).trans hlog⟩
      intro hdiverges
      obtain ⟨-, index, message, herror⟩ := hdiverges.of_reconcile
      exact hanswer index message herror
    · exact ⟨fun hdiverges => hid hdiverges.of_reconcile.1, Function.update_of_ne (Ne.symm hid) _ _⟩
  | ensureConversation id =>
    refine ⟨?_, rfl⟩
    rw [respond]
    match reaction.fault with
    | none => exact fun hdiverges => hdiverges
    | some (.infrastructure ..) => exact fun hdiverges => hdiverges
    | some (.exception ..) => exact fun hdiverges => hdiverges
    | some (.baseException ..) => exact fun hdiverges => hdiverges
  | _ => exact ⟨fun hdiverges => hdiverges, rfl⟩

theorem respond_of_reconciles {call : ChatCall} (h : call.reconciles? c = some incoming) (reaction : Reaction F)
    (hcontinues : Continues (logs c) incoming) : ¬Diverges c ⟨call, (respond reaction logs call).1⟩ ∧
      ((respond reaction logs call).2 c = logs c ∨ Agree equivalent ((respond reaction logs call).2 c) incoming) ∧
      (¬StoreFails ⟨call, (respond reaction logs call).1⟩ →
        Agree equivalent ((respond reaction logs call).2 c) incoming) := by
  cases call with
  | reconcileHistory id items metadata =>
    rw [ChatCall.reconciles?, Option.ite_none_right_eq_some] at h
    obtain ⟨rfl, hitems⟩ := h
    obtain ⟨hanswer, hlog, hok⟩ := reconcileLog_of_continues hcontinues hitems reaction.fault reaction.text
    have hself : (respond reaction logs (.reconcileHistory id items metadata)).2 id
        = (reconcileLog reaction.fault reaction.text (logs id) items).2 := Function.update_self ..
    rw [hself]
    refine ⟨?_, hlog, ?_⟩
    · intro hdiverges
      obtain ⟨-, index, message, herror⟩ := hdiverges.of_reconcile
      exact hanswer index message herror
    · intro hworks
      apply hok
      exact eq_ok_of_not_storeFails hworks
  | _ => cases h

/-- Lists that continue the log and one another are not refused, and what they leave is continued by what continues them. If the store is in order, it is a copy of the last one. -/
theorem plays_chain {final : Logs} (h : Plays c logs trace final)
    (hchain : (reconciledLists c trace ++ [told]).IsChain Continues)
    (hstart : ∀ first ∈ (reconciledLists c trace ++ [told]).head?, Continues (logs c) first) :
    (∀ event ∈ trace, ¬Diverges c event) ∧ Continues (final c) told ∧
      ((∀ event ∈ trace, ¬StoreFails event) →
        match (reconciledLists c trace).getLast? with
        | none => final c = logs c
        | some last => Agree equivalent (final c) last) := by
  induction h with
  | nil logs => exact ⟨forall_mem_nil _, hstart told rfl, fun _ => rfl⟩
  | elsewhere hsame h ih =>
    rw [← hsame] at hstart ⊢
    exact ih hchain hstart
  | call reaction logs call h ih =>
    cases hcall : call.reconciles? c with
    | none =>
      obtain ⟨hquiet, hlog⟩ := respond_of_not_reconciles hcall reaction logs
      rw [reconciledLists_cons, hcall, Option.toList_none, nil_append] at hchain hstart ⊢
      rw [← hlog] at hstart ⊢
      obtain ⟨htrace, hfinal, hlast⟩ := ih hchain hstart
      exact ⟨forall_mem_cons.mpr ⟨hquiet, htrace⟩, hfinal, fun hworks => hlast fun event hevent =>
        hworks event (mem_cons_of_mem _ hevent)⟩
    | some incoming =>
      rw [reconciledLists_cons, hcall, Option.toList_some, singleton_append] at hchain hstart ⊢
      rw [cons_append] at hchain hstart
      obtain ⟨hquiet, hlog, hok⟩ := respond_of_reconciles hcall reaction (hstart incoming rfl)
      obtain ⟨hnext, hrest⟩ := isChain_cons.mp hchain
      obtain ⟨htrace, hfinal, hlast⟩ := ih hrest fun first hfirst => by
        rcases hlog with hsame | hagree
        · rw [hsame]
          exact (hstart incoming rfl).trans (hnext first hfirst)
        · exact (hnext first hfirst).of_agree hagree
      refine ⟨forall_mem_cons.mpr ⟨hquiet, htrace⟩, hfinal, fun hworks => ?_⟩
      obtain ⟨hfirst, hothers⟩ := forall_mem_cons.mp hworks
      have hend := hlast hothers
      rw [getLast?_cons]
      cases hlists : (reconciledLists c _).getLast? with
      | none =>
        rw [hlists] at hend
        rw [Option.getD_none]
        exact hend ▸ hok hfirst
      | some last =>
        rw [hlists] at hend
        exact hend

/-! ### What a handler reconciles -/

def replies (app : ProxyApp F) (trace : ChatTrace F) : List Message :=
  (trace.filterMap (reply? app)).flatMap fun reply => (asMessages [reply]).getD []

theorem replies_append (app : ProxyApp F) (front back : ChatTrace F) :
    replies app (front ++ back) = replies app front ++ replies app back := by
  rw [replies, filterMap_append, flatMap_append]
  rfl

variable {app : ProxyApp F}

theorem replies_cons (h : reply? app event = some item) (trace : ChatTrace F) :
    replies app (event :: trace) = (asMessages [item]).getD [] ++ replies app trace := by
  rw [replies, filterMap_cons_some h, flatMap_cons]
  rfl

theorem replies_cons_of_none (h : reply? app event = none) (trace : ChatTrace F) :
    replies app (event :: trace) = replies app trace := by
  rw [replies, filterMap_cons_none h]
  rfl

theorem PersistsInbound.reconciled {outcome : Except ChatError Inbound}
    (h : PersistsInbound store c messages trace outcome) (app : ProxyApp F) :
    (reconciledLists c trace = [] ∨ reconciledLists c trace = [messages]) ∧ replies app trace = [] ∧
      (store = true → (∀ event ∈ trace, ¬StoreFails event) →
        outcome = .ok (.proceed true) ∧ reconciledLists c trace = [messages]) := by
  have hlists : ∀ answer answer', reconciledLists (F := F) c [⟨.ensureConversation c, answer⟩,
      ⟨.reconcileHistory c (messages.map .obj) none, answer'⟩] = [messages] := by
    intro answer answer'
    simp [reconciledLists, ChatCall.reconciles?, asMessages_map_obj]
  cases h with
  | off hstore =>
    refine ⟨.inl rfl, rfl, ?_⟩
    intro hon
    rw [hstore] at hon
    cases hon
  | unensured _ failure => exact ⟨.inl rfl, rfl, fun _ hok => (hok _ (.head _) trivial).elim⟩
  | unreconciled _ failure => exact ⟨.inr (hlists _ _), rfl, fun _ hok => (hok _ (.tail _ (.head _)) trivial).elim⟩
  | stored => exact ⟨.inr (hlists _ _), rfl, fun _ _ => ⟨rfl, hlists _ _⟩⟩

theorem Assembles.reconciled [Score F] {tools : List Json} {outcome : Except ChatError (Except String (List Message))}
    (h : Assembles app c messages tools trace outcome) : reconciledLists c trace = [] ∧ replies app trace = [] := by
  cases h with
  | window => exact ⟨rfl, rfl⟩
  | engine _ hretrieve =>
    cases hretrieve with
    | _ => exact ⟨rfl, rfl⟩

theorem Persists.reconciled {outcome : Except ChatError Unit}
    (h : Persists app store c messages item metadata trace outcome) : replies app trace = [] ∧
      (reconciledLists c trace = [] ∧ (store = false ∨ item = .null) ∨
        reconciledLists c trace = (asMessages [item]).toList.map (messages ++ ·)) := by
  have hlists : ∀ usage answer more, reconciledLists (F := F) c (⟨.recordTokens usage, ()⟩ ::
      ⟨.reconcileHistory c (messages.map .obj ++ [item]) metadata, answer⟩ :: more)
        = (asMessages [item]).toList.map (messages ++ ·) ++ reconciledLists c more := by
    intro usage answer more
    rw [reconciledLists_cons, reconciledLists_cons]
    simp only [ChatCall.reconciles?, if_true, asMessages_concat]
    cases asMessages [item] <;> rfl
  cases h with
  | skipped hskip => exact ⟨rfl, .inl ⟨rfl, hskip⟩⟩
  | failed => exact ⟨rfl, .inr ((hlists _ _ _).trans (append_nil _))⟩
  | unindexed => exact ⟨rfl, .inr ((hlists _ _ _).trans (append_nil _))⟩
  | indexed => exact ⟨rfl, .inr ((hlists _ _ _).trans (append_nil _))⟩

theorem Persists.reconciled_reply {outcome : Except ChatError Unit}
    (h : Persists app store c messages item metadata trace outcome) :
    reconciledLists c trace = [messages ++ (asMessages [item]).getD []] ∨
      reconciledLists c trace = [] ∧ (store = true → (asMessages [item]).getD [] = []) := by
  rcases h.reconciled.2 with ⟨hlists, hskip⟩ | hlists
  · refine .inr ⟨hlists, ?_⟩
    intro hstore
    rcases hskip with hoff | rfl
    · rw [hoff] at hstore
      cases hstore
    · rfl
  · rw [hlists]
    cases asMessages [item] with
    | none => exact .inr ⟨rfl, fun _ => rfl⟩
    | some reply => exact .inl rfl

theorem Answers.reconciled {payload sent : Fields} {outcome : Except ChatError ApiResponse}
    (h : Answers app store c payload sent trace outcome) :
    reconciledLists c trace = [messagesOf payload ++ replies app trace] ∨
      reconciledLists c trace = [] ∧ (store = true → replies app trace = []) := by
  cases h with
  | refused | unopened | unread => exact .inr ⟨rfl, fun _ => rfl⟩
  | unparsed _ status headers body hanswer =>
    have hreply : reply? app ⟨.complete sent, .ok (status, headers, body)⟩ = none := congrArg (Option.map _) hanswer
    rw [replies_cons_of_none hreply]
    exact .inr ⟨rfl, fun _ => rfl⟩
  | broken _ head playback hanswer =>
    have hreply : reply? app ⟨.readStream, some playback⟩ = none := congrArg (Option.map _) hanswer
    rw [replies_cons_of_none rfl, replies_cons_of_none hreply]
    exact .inr ⟨rfl, fun _ => rfl⟩
  | @buffered _ status headers body item _ hanswer _ _ hpersist =>
    have hreply : reply? app ⟨.complete sent, .ok (status, headers, body)⟩ = some item := congrArg (Option.map _) hanswer
    rw [replies_cons hreply, hpersist.reconciled.1, append_nil]
    exact hpersist.reconciled_reply
  | @streamed _ head playback item _ hanswer _ _ hpersist =>
    have hreply : reply? app ⟨.readStream, some playback⟩ = some item := congrArg (Option.map _) hanswer
    rw [replies_cons_of_none rfl, replies_cons hreply, hpersist.reconciled.1, append_nil]
    exact hpersist.reconciled_reply

/-! ### What the client is told -/

section Heard

def streamLines (line : List Char) : List Char → List (List Char)
  | [] => [line.reverse]
  | '\r' :: '\n' :: cs => line.reverse :: streamLines [] cs
  | c :: cs => if c = '\n' ∨ c = '\r' then line.reverse :: streamLines [] cs else streamLines (c :: line) cs

def fieldValue (line : List Char) : List Char :=
  match line.drop 5 with
  | ' ' :: value => value
  | value => value

/-- The data of the events: what their data lines carry, up to the blank line that ends an event. -/
def streamData (data : List (List Char)) : List (List Char) → List (List Char)
  | [] => []
  | [] :: lines => (if data = [] then [] else [List.intercalate ['\n'] data]) ++ streamData [] lines
  | line :: lines =>
    if "data:".toList.isPrefixOf line then streamData (data ++ [fieldValue line]) lines else streamData data lines

/-- The texts that a reader of an event stream loads. -/
def streamTexts (text : List Char) : List String :=
  ((streamData [] (streamLines [] text)).filter (· ≠ "[DONE]".toList)).map String.ofList

variable (app : ProxyApp F)

def readReply (bytes : List UInt8) (texts : List String) : Except CaptureError (Option Message) := do
  let capture ← AssistantCapture.absorbTexts app.loadsEvent { buffer := bytes, maxBytes := some app.maxCaptureBytes } texts
  if capture.sawAnyChoice then
    let message ← capture.buildMessage.mapError .python
    return some message
  else return none

/-- The reply in the bytes of a stream, for whoever reads it as an event stream. -/
def heardStream (bytes : List UInt8) : List Message :=
  match readReply app bytes (streamTexts (Utf8.decode bytes)) with
  | .ok message => message.toList
  | .error _ => []

def heard : Except ChatError ApiResponse → List Message
  | .ok response =>
    match response.content with
    | .bytes body => ((bufferedAnswer app response.status body).bind fun answer => asMessages [answer.1]).getD []
    | .stream run => heardStream app run.yielded.flatten
    | .json _ | .unread => []
  | .error _ => []

def Loaded.isRead : Loaded → Bool
  | .malformed => false
  | .value _ | .tooDeep => true

def loadedEvents (loads : String → Loaded) (texts : List String) : List Loaded :=
  (texts.filter fun text => (loads text).isRead).map loads

/-- The events that the capture finds in a stream are those that its reader finds. -/
def CapturedAlike : Sigma (ChatAnswer F) → Prop
  | ⟨.readStream, some playback⟩ =>
    loadedEvents app.loadsEvent (dataTexts (Utf8.decode playback.chunks.flatten))
      = loadedEvents app.loadsEvent (streamTexts (Utf8.decode playback.chunks.flatten))
  | _ => True

/-- The stream has come to its end, within the limit of the capture, and was read to that end. -/
def Playback.Whole (playback : Playback) : Prop :=
  playback.consumer.ReachesEnd playback.chunks ∧ playback.ending = .done ∧
    Fits playback.chunks (some app.maxCaptureBytes)

/-- A whole stream, or an error of the upstream that has the status of one. -/
def Whole : Sigma (ChatAnswer F) → Prop
  | ⟨.readStream, some playback⟩ => playback.Whole app
  | ⟨.complete _, .error (.upstreamHTTPError status ..)⟩ => ¬(200 ≤ status ∧ status < 300)
  | ⟨.openStream _, .error (.upstreamHTTPError status ..)⟩ => ¬(200 ≤ status ∧ status < 300)
  | _ => True

variable {app}

theorem absorbTexts_filter (loads : String → Loaded) (capture : AssistantCapture) (texts : List String) :
    capture.absorbTexts loads (texts.filter fun text => (loads text).isRead) = capture.absorbTexts loads texts := by
  induction texts generalizing capture with
  | nil => rfl
  | cons text texts ih =>
    cases hload : loads text with
    | malformed =>
      rw [filter_cons_of_neg (by simp [hload, Loaded.isRead]), ih]
      simp only [AssistantCapture.absorbTexts, hload]
    | tooDeep | value =>
      rw [filter_cons_of_pos (by simp [hload, Loaded.isRead])]
      simp only [AssistantCapture.absorbTexts, hload, ih]

theorem absorbTexts_congr {loads : String → Loaded} {texts texts' : List String}
    (h : loadedEvents loads texts = loadedEvents loads texts') (capture : AssistantCapture) :
    capture.absorbTexts loads texts = capture.absorbTexts loads texts' := by
  rw [← absorbTexts_filter loads capture texts, ← absorbTexts_filter loads capture texts']
  rw [loadedEvents, loadedEvents] at h
  generalize texts.filter (fun text => (loads text).isRead) = read at h
  generalize texts'.filter (fun text => (loads text).isRead) = read' at h
  induction read generalizing read' capture with
  | nil =>
    obtain rfl := map_eq_nil_iff.mp h.symm
    rfl
  | cons text read ih =>
    cases read' with
    | nil => cases h
    | cons text' read' =>
      obtain ⟨hload, hrest⟩ := List.cons.inj h
      simp only [AssistantCapture.absorbTexts, hload, fun capture => ih capture read' hrest]

theorem streamLines_append {as : List Char} (hlf : '\n' ∉ as) (hcr : '\r' ∉ as) (line bs : List Char) :
    streamLines line (as ++ '\n' :: bs) = (line.reverse ++ as) :: streamLines [] bs := by
  induction as generalizing line with
  | nil => simp [streamLines]
  | cons a as ih =>
    rw [mem_cons, not_or] at hlf hcr
    rw [cons_append, streamLines, if_neg (by simp [Ne.symm hlf.1, Ne.symm hcr.1]), ih hlf.2 hcr.2]
    · simp
    · exact fun _ h => absurd h.symm hcr.1

theorem streamTexts_frames {loader : Loader} (lines : List (EventLine loader)) :
    streamTexts (lines.flatMap EventLine.frame) = lines.map fun line => String.ofList line.text := by
  have hdata : streamData [] (streamLines [] (lines.flatMap EventLine.frame)) = lines.map EventLine.text := by
    induction lines with
    | nil => rfl
    | cons line lines ih =>
      have hlf : '\n' ∉ "data: ".toList ++ line.text := by simp [line.no_lf]
      have hcr : '\r' ∉ "data: ".toList ++ line.text := by simp [line.no_cr]
      rw [flatMap_cons, EventLine.frame_append, streamLines_append hlf hcr, streamLines, if_pos (.inl rfl),
        map_cons, ← ih]
      · simp [streamData, fieldValue]
      · exact fun _ h => absurd h (by decide)
  have hevents : ∀ text ∈ lines.map EventLine.text, decide (text ≠ "[DONE]".toList) = true := by
    intro text htext
    obtain ⟨line, -, rfl⟩ := mem_map.mp htext
    apply decide_eq_true
    intro hdone
    have hreads := line.reads
    rw [hdone] at hreads
    cases hreads
  rw [streamTexts, hdata, filter_eq_self.mpr hevents, map_map]
  rfl

variable {playback : Playback}

/-- Where the capture absorbs all events of a stream, it finds what its reader finds. -/
theorem capturedAlike_of_clean {loader : Loader} (hloads : app.loadsEvent = loader.loads) (stream : EventStream loader)
    (h : ∀ line ∈ stream.lines, loader.fits (.obj line.object) = true ∧ ∀ c ∈ line.text, isSeparator c = false)
    (hchunks : playback.chunks = stream.chunks) : CapturedAlike app ⟨.readStream, some playback⟩ := by
  have hstrip : ∀ line ∈ stream.lines, loader.loads (String.ofList (strip line.text)) = .value (.obj line.object) :=
    fun line hline => EventLine.loads_strip.mpr (h line hline).1
  have hplain : ∀ line ∈ stream.lines, loader.loads (String.ofList line.text) = .value (.obj line.object) := by
    intro line hline
    rw [loader.loads_eq_value, String.toList_ofList]
    exact ⟨line.reads, (h line hline).1⟩
  have hread : ∀ texts : EventLine loader → String, (∀ line ∈ stream.lines, loader.loads (texts line) = .value (.obj line.object)) →
      loadedEvents loader.loads (stream.lines.map texts) = stream.lines.map fun line => .value (.obj line.object) := by
    intro texts htexts
    have hall : ∀ text ∈ stream.lines.map texts, (loader.loads text).isRead = true := by
      intro text htext
      obtain ⟨line, hline, rfl⟩ := mem_map.mp htext
      rw [htexts line hline]
      rfl
    rw [loadedEvents, filter_eq_self.mpr hall, map_map]
    exact map_congr_left htexts
  rw [CapturedAlike, hloads, hchunks, stream.framed, Utf8.decode_encode, streamTexts_frames, dataTexts_frames, hread _ hplain]
  have htexts : stream.lines.flatMap EventLine.texts = stream.lines.map fun line => String.ofList (strip line.text) := by
    rw [map_eq_flatMap]
    exact flatMap_congr fun line hline => EventLine.texts_of_clean (h line hline).2
  rw [htexts, hread _ hstrip]

theorem received_of_reachesEnd {chunks : List (List UInt8)} {consumer : Consumer} (h : consumer.ReachesEnd chunks) :
    consumer.received chunks = chunks := by
  cases consumer with
  | readsAll => rfl
  | closesAt position => exact take_of_length_le (Nat.le_succ_of_le h)

theorem replies_of_not_whole (h : ¬playback.Whole app) : replies app [⟨.readStream, some playback⟩] = [] := by
  have hnothing : streamedAnswer app playback = some (.null, []) := by
    rw [streamedAnswer]
    by_cases hend : playback.consumer.ReachesEnd playback.chunks
    · rw [pump_end _ _ _ hend]
      cases hending : playback.ending with
      | failed error => rfl
      | done =>
        have hfits : ¬Fits playback.chunks (some app.maxCaptureBytes) := fun hfits => h ⟨hend, hending, hfits⟩
        have hover := (fed_foldl playback.chunks (some app.maxCaptureBytes)).overflows hfits
        simp [UpstreamEnd.exit, finishArguments, hover]
    · obtain ⟨capture, hpump⟩ := pump_closed playback.ending playback.consumer
        { maxBytes := some app.maxCaptureBytes } hend
      rw [hpump]
      rfl
  simp [replies, reply?, hnothing, asMessages]

/-- Of a whole stream the capture keeps what its reader has read, if both find the same events. -/
theorem replies_of_whole (h : playback.Whole app) (halike : CapturedAlike app ⟨.readStream, some playback⟩) :
    replies app [⟨.readStream, some playback⟩] = heardStream app (playback.consumer.received playback.chunks).flatten := by
  obtain ⟨hend, hdone, hfits⟩ := h
  have hread : readReply app playback.chunks.flatten (streamTexts (Utf8.decode playback.chunks.flatten))
      = readReply app playback.chunks.flatten (dataTexts (Utf8.decode playback.chunks.flatten)) := by
    rw [readReply, readReply, absorbTexts_congr halike]
  rw [received_of_reachesEnd hend, heardStream, hread, replies, filterMap_cons]
  simp only [reply?, streamedAnswer, pump_end _ _ _ hend, hdone, finishArguments_done hfits]
  rw [readReply, AssistantCapture.finalize, if_neg (by simp)]
  cases AssistantCapture.absorbTexts app.loadsEvent
      { buffer := playback.chunks.flatten, maxBytes := some app.maxCaptureBytes }
      (dataTexts (Utf8.decode playback.chunks.flatten)) with
  | error error => rfl
  | ok capture =>
    by_cases hsaw : capture.sawAnyChoice = true
    · simp only [Bind.bind, Except.bind, hsaw, if_true]
      cases capture.buildMessage with
      | error error => rfl
      | ok message => rfl
    · simp only [Bind.bind, Except.bind, hsaw]
      rfl

theorem heard_upstreamFailed {raised : Raised} (sent : Fields) (h : Whole app ⟨.complete sent, .error raised⟩) :
    heard app (upstreamFailed app raised) = [] := by
  rw [upstreamFailed]
  cases raised with
  | upstreamUnavailable message => rfl
  | httpxError error => rfl
  | cancelledError => rfl
  | upstreamHTTPError status body contentType headers =>
    rw [errorBodyResponse]
    split
    · rename_i response hresponse
      split at hresponse
      · split at hresponse
        · cases hresponse
          simp only [heard, bufferedAnswer, if_neg (show ¬(200 ≤ status ∧ status < 300) from h)]
          rfl
        · cases hresponse
          rfl
        · cases hresponse
      · cases hresponse
        rfl
    · rfl

theorem heard_streamed (c : String) (head : ResponseHead) (playback : Playback) (finish : FinishOutcome String) :
    heard app (.ok (streamedResponse app c head (played app playback finish)))
      = heardStream app (playback.consumer.received playback.chunks).flatten := by
  have hyielded : (iterBytes app.loadsEvent (some app.maxCaptureBytes) finish playback.ending playback.consumer
      playback.chunks).yielded = playback.consumer.received playback.chunks := by
    rw [iterBytes, ← Prod.eta (pump _ _ _ _), pump_yields]
    dsimp only
    split <;> rfl
  exact congrArg (fun yielded => heardStream app yielded.flatten) hyielded

theorem heard_buffered {answer : Option (Json × Fields)} {status : ℕ} {body : Body}
    (h : bufferedAnswer app status body = answer) (c : String) (headers : Headers) :
    heard app (.ok (bufferedResponse app c status headers body)) = (answer.bind fun a => asMessages [a.1]).getD [] :=
  congrArg (fun answer => (answer.bind fun a : Json × Fields => asMessages [a.1]).getD []) h

theorem replies_readStream (halike : CapturedAlike app ⟨.readStream, some playback⟩) {heard : List Message}
    (hheard : heard = heardStream app (playback.consumer.received playback.chunks).flatten) :
    (replies app [⟨.readStream, some playback⟩] = [] ∨ replies app [⟨.readStream, some playback⟩] = heard) ∧
      (playback.Whole app → replies app [⟨.readStream, some playback⟩] = heard) := by
  subst hheard
  by_cases hwhole : playback.Whole app
  · exact ⟨.inr (replies_of_whole hwhole halike), fun _ => replies_of_whole hwhole halike⟩
  · exact ⟨.inl (replies_of_not_whole hwhole), fun h => absurd h hwhole⟩

/-- The reply that the handler has captured is none or the one that the client has read, and if nothing was cut off it is that one. -/
theorem Answers.heard {payload sent : Fields} {outcome : Except ChatError ApiResponse}
    (h : Answers app store c payload sent trace outcome) (halike : ∀ event ∈ trace, CapturedAlike app event)
    (hreceived : replies app trace = [] ∨ ∃ response, outcome = .ok response) :
    (replies app trace = [] ∨ replies app trace = heard app outcome) ∧
      ((∀ event ∈ trace, Whole app event) → replies app trace = heard app outcome) := by
  cases h with
  | refused _ raised => exact ⟨.inl rfl, fun hwhole => (heard_upstreamFailed sent (hwhole _ (.head _))).symm⟩
  | unopened _ raised =>
    refine ⟨.inl rfl, fun hwhole => (heard_upstreamFailed sent ?_).symm⟩
    have hraised := hwhole _ (.head _)
    cases raised with
    | upstreamHTTPError => exact hraised
    | upstreamUnavailable | httpxError | cancelledError => trivial
  | unread => exact ⟨.inl rfl, fun _ => rfl⟩
  | unparsed _ status headers body hanswer =>
    have hreply : reply? app ⟨.complete sent, .ok (status, headers, body)⟩ = none := congrArg (Option.map _) hanswer
    rw [replies_cons_of_none hreply, heard_buffered hanswer]
    exact ⟨.inl rfl, fun _ => rfl⟩
  | broken _ head playback hanswer =>
    rw [replies_cons_of_none rfl]
    refine (replies_readStream (halike _ (.tail _ (.head _))) (heard_streamed ..)).imp_right fun hread hwhole => hread ?_
    exact hwhole _ (.tail _ (.head _))
  | @buffered _ status headers body item metadata hanswer _ persisted hpersist =>
    have hreply : reply? app ⟨.complete sent, .ok (status, headers, body)⟩ = some item := congrArg (Option.map _) hanswer
    rw [replies_cons hreply, hpersist.reconciled.1, append_nil] at hreceived ⊢
    cases persisted with
    | error error =>
      have hnone : (asMessages [item]).getD [] = [] := hreceived.resolve_right fun ⟨_, hok⟩ => by cases hok
      exact ⟨.inl hnone, fun _ => hnone⟩
    | ok _ =>
      have hheard := (heard_buffered hanswer c headers).symm
      exact ⟨.inr hheard, fun _ => hheard⟩
  | @streamed _ head playback item metadata hanswer tail persisted hpersist =>
    have hreplies : replies app (⟨.readStream, some playback⟩ :: tail) = replies app [⟨.readStream, some playback⟩] :=
      (replies_append app [⟨.readStream, some playback⟩] tail).trans (by rw [hpersist.reconciled.1, append_nil])
    rw [replies_cons_of_none rfl, hreplies]
    refine (replies_readStream (halike _ (.tail _ (.head _))) (heard_streamed ..)).imp_right fun hread hwhole => hread ?_
    exact hwhole _ (.tail _ (.head _))

end Heard

variable [Score F] {app : ProxyApp F} {c : String} {payload : Fields} {trace : ChatTrace F}
  {outcome : Except ChatError ApiResponse}

theorem Proceeds.reconciled {inbound : Inbound} (h : Proceeds app c payload inbound trace outcome) :
    reconciledLists c trace = [messagesOf payload ++ replies app trace] ∨
      reconciledLists c trace = [] ∧ (inbound = .proceed true → replies app trace = []) := by
  cases h with
  | conflict => exact .inr ⟨rfl, fun _ => rfl⟩
  | unplanned _ hplan => exact .inr ⟨hplan.reconciled.1, fun _ => hplan.reconciled.2⟩
  | overflow _ hplan => exact .inr ⟨hplan.reconciled.1, fun _ => hplan.reconciled.2⟩
  | answered hplan hanswer =>
    rw [reconciledLists_append, replies_append, hplan.reconciled.1, hplan.reconciled.2, nil_append, nil_append]
    refine hanswer.reconciled.imp_right ?_
    intro ⟨hlists, hreplies⟩
    exact ⟨hlists, fun hstore => hreplies (Inbound.proceed.inj hstore)⟩

/-- What a handler reconciles: the request or not, and the request with the reply or not. If the store is in order, the last of it is the request with what there is of a reply. -/
theorem Serves.reconciled (h : Serves app c payload trace outcome) :
    (∃ first second, reconciledLists c trace = first ++ second ∧ (first = [] ∨ first = [messagesOf payload]) ∧
      (second = [] ∨ second = [messagesOf payload ++ replies app trace])) ∧
    (app.store = true → (∀ event ∈ trace, ¬StoreFails event) →
      (reconciledLists c trace).getLast? = some (messagesOf payload ++ replies app trace)) := by
  cases h with
  | unpersisted hinbound =>
    obtain ⟨hlists, -, hworks⟩ := hinbound.reconciled app
    refine ⟨⟨_, [], (append_nil _).symm, hlists, .inl rfl⟩, ?_⟩
    intro hstore hok
    cases (hworks hstore hok).1
  | proceeds hinbound hproceed =>
    obtain ⟨hlists, hreplies, hworks⟩ := hinbound.reconciled app
    rw [reconciledLists_append, replies_append, hreplies, nil_append]
    refine ⟨⟨_, _, rfl, hlists, hproceed.reconciled.symm.imp_left And.left⟩, ?_⟩
    intro hstore hok
    obtain ⟨hproceeds, hfirst⟩ := hworks hstore fun event hevent => hok event (mem_append_left _ hevent)
    rw [hfirst]
    rcases hproceed.reconciled with hsecond | ⟨hsecond, hnone⟩
    · rw [hsecond]
      rfl
    · rw [hsecond, hnone (Except.ok.inj hproceeds), append_nil, append_nil]
      rfl

theorem Serves.heard (h : Serves app c payload trace outcome) (halike : ∀ event ∈ trace, CapturedAlike app event)
    (hreceived : replies app trace = [] ∨ ∃ response, outcome = .ok response) :
    (replies app trace = [] ∨ replies app trace = heard app outcome) ∧
      ((∀ event ∈ trace, Whole app event) → replies app trace = heard app outcome) := by
  cases h with
  | unpersisted hinbound =>
    rw [(hinbound.reconciled app).2.1]
    exact ⟨.inl rfl, fun _ => rfl⟩
  | proceeds hinbound hproceed =>
    rw [replies_append, (hinbound.reconciled app).2.1, nil_append] at hreceived ⊢
    cases hproceed with
    | conflict => exact ⟨.inl rfl, fun _ => rfl⟩
    | unplanned _ hplan | overflow _ hplan =>
      rw [hplan.reconciled.2]
      exact ⟨.inl rfl, fun _ => rfl⟩
    | answered hplan hanswer =>
      rw [replies_append, hplan.reconciled.2, nil_append] at hreceived ⊢
      have hback : ∀ {P : Sigma (ChatAnswer F) → Prop} {front assembly back : ChatTrace F},
          (∀ event ∈ front ++ (assembly ++ back), P event) → ∀ event ∈ back, P event :=
        fun h event hevent => h event (mem_append_right _ (mem_append_right _ hevent))
      obtain ⟨hcaptured, hwhole⟩ := hanswer.heard (hback halike) hreceived
      exact ⟨hcaptured, fun hevents => hwhole (hback hevents)⟩

/-! ### Sessions -/

/-- One turn of a client whose list continues what it has been told. -/
structure SerialTurn (app : ProxyApp F) (c : String) (told : List Message) (logs : Logs) (payload : Fields)
    (trace : ChatTrace F) (outcome : Except ChatError ApiResponse) (logs' : Logs) : Prop where
  runs : ∃ request start rest, trace = start ++ rest ∧ acceptedPayload request.body = .ok payload ∧
    Identifies app request.headers payload c start ∧ (chatCompletions app request).Runs trace outcome
  plays : Plays c logs trace logs'
  continues : Continues told (messagesOf payload)

/-- The capture has found the events that the client has read, and no exception keeps a captured reply from the client. -/
def Received (app : ProxyApp F) (trace : ChatTrace F) (outcome : Except ChatError ApiResponse) : Prop :=
  (∀ event ∈ trace, CapturedAlike app event) ∧ (replies app trace = [] ∨ ∃ response, outcome = .ok response)

theorem serves_of_identified (hruns : (chatCompletions app request).Runs (start ++ rest) outcome)
    (haccepted : acceptedPayload request.body = .ok payload) (hid : Identifies app request.headers payload c start) :
    Serves app c (pop payload "conversation_id") rest outcome := by
  cases hid with
  | named hid =>
    rw [chatCompletions_of_named haccepted hid] at hruns
    exact serves_of_runs hruns
  | fresh hid =>
    rw [chatCompletions_of_fresh haccepted hid] at hruns
    obtain ⟨id, rest', htrace, hrest⟩ := runs_send_bind.mp hruns
    obtain ⟨hevent, rfl⟩ := List.cons.inj htrace
    cases hevent
    exact serves_of_runs hrest

omit [Score F] in
theorem Identifies.reconciled {headers : Headers} (h : Identifies app headers payload c start) :
    reconciledLists c start = [] ∧ replies app start = [] := by
  cases h with
  | _ => exact ⟨rfl, rfl⟩

namespace SerialTurn

variable {logs' : Logs} (h : SerialTurn app c told logs payload trace outcome logs')
include h

theorem exists_serves : ∃ rest, rest ⊆ trace ∧ Serves app c (pop payload "conversation_id") rest outcome ∧
    reconciledLists c trace = reconciledLists c rest ∧ replies app trace = replies app rest := by
  obtain ⟨request, start, rest, rfl, haccepted, hid, hruns⟩ := h.runs
  refine ⟨rest, subset_append_right _ _, serves_of_identified hruns haccepted hid, ?_, ?_⟩
  · rw [reconciledLists_append, hid.reconciled.1, nil_append]
  · rw [replies_append, hid.reconciled.2, nil_append]

theorem captured (hlog : Continues (logs c) told) :
    (∀ event ∈ trace, ¬Diverges c event) ∧ Continues (logs' c) (messagesOf payload ++ replies app trace) ∧
      (app.store = true → (∀ event ∈ trace, ¬StoreFails event) →
        Agree equivalent (logs' c) (messagesOf payload ++ replies app trace)) := by
  obtain ⟨rest, hrest, hserves, hsame, hreplies⟩ := h.exists_serves
  obtain ⟨⟨first, second, hlists, hfirst, hsecond⟩, hlast⟩ := hserves.reconciled
  rw [messagesOf_pop] at hfirst hsecond hlast
  rw [hreplies]
  have hwith : Continues (messagesOf payload) (messagesOf payload ++ replies app rest) := ⟨_, _, rfl, agree_refl _⟩
  have hagain : Continues (messagesOf payload ++ replies app rest) (messagesOf payload ++ replies app rest) :=
    ⟨_, [], (append_nil _).symm, agree_refl _⟩
  have hnow : Continues (logs c) (messagesOf payload) := hlog.trans h.continues
  have hchain : (reconciledLists c trace ++ [messagesOf payload ++ replies app rest]).IsChain Continues := by
    rw [hsame, hlists]
    rcases hfirst with rfl | rfl <;> rcases hsecond with rfl | rfl <;> simp [hwith, hagain]
  have hstart : ∀ first ∈ (reconciledLists c trace ++ [messagesOf payload ++ replies app rest]).head?,
      Continues (logs c) first := by
    rw [hsame, hlists]
    rcases hfirst with rfl | rfl <;> rcases hsecond with rfl | rfl <;> simp [hnow, hnow.trans hwith]
  obtain ⟨hquiet, hfinal, hcopy⟩ := plays_chain h.plays hchain hstart
  refine ⟨hquiet, hfinal, ?_⟩
  intro hstore hworks
  have hend := hcopy hworks
  rw [hsame, hlast hstore fun event hevent => hworks event (hrest hevent)] at hend
  exact hend

theorem heard (hlog : Continues (logs c) told) (hreceived : Received app trace outcome) :
    Continues (logs' c) (messagesOf payload ++ ContextProxy.heard app outcome) ∧
      (app.store = true → (∀ event ∈ trace, ¬StoreFails event) → (∀ event ∈ trace, Whole app event) →
        Agree equivalent (logs' c) (messagesOf payload ++ ContextProxy.heard app outcome)) := by
  obtain ⟨-, hfinal, hcopy⟩ := h.captured hlog
  obtain ⟨rest, hrest, hserves, -, hreplies⟩ := h.exists_serves
  obtain ⟨halike, hreturned⟩ := hreceived
  rw [hreplies] at hreturned hfinal hcopy
  obtain ⟨hcaptured, hwhole⟩ := hserves.heard (fun event hevent => halike event (hrest hevent)) hreturned
  refine ⟨?_, fun hstore hworks hevents => ?_⟩
  · rcases hcaptured with hnone | hheard
    · rw [hnone, append_nil] at hfinal
      exact hfinal.trans ⟨_, _, rfl, agree_refl _⟩
    · rw [← hheard]
      exact hfinal
  · rw [← hwhole fun event hevent => hevents event (hrest hevent)]
    exact hcopy hstore hworks

end SerialTurn

/-- The turns of a client so far: what it has been told, which is its last list with the reply it has read, and the logs they leave. -/
inductive Session (app : ProxyApp F) (c : String) : List Message → Logs → Prop
  | start {logs : Logs} (h : logs c = []) : Session app c [] logs
  | turn {told : List Message} {logs logs' : Logs} {payload : Fields} {trace : ChatTrace F}
      {outcome : Except ChatError ApiResponse} (h : Session app c told logs)
      (hturn : SerialTurn app c told logs payload trace outcome logs') (hreceived : Received app trace outcome) :
      Session app c (messagesOf payload ++ heard app outcome) logs'

theorem Session.continues (h : Session app c told logs) : Continues (logs c) told := by
  induction h with
  | start h =>
    rw [h]
    exact ⟨[], [], rfl, .nil⟩
  | turn _ hturn hreceived ih => exact (hturn.heard ih hreceived).1

end SerialClient

def sureLine : EventLine EventStream.unbounded where
  object := [("choices", .arr [.obj [("delta", .obj [("content", .str "Sure.")])]])]
  text := "\x7b\"choices\": [\x7b\"delta\": \x7b\"content\": \"Sure.\"\x7d\x7d]\x7d".toList
  no_lf := by decide +kernel
  no_cr := by decide +kernel
  reads := by decide +kernel

def sureStream : EventStream EventStream.unbounded where
  lines := [sureLine]
  chunks := [Utf8.encode sureLine.frame]
  maxBytes := some 1000
  framed := by simp
  within := by
    change List.length _ ≤ 1000
    decide +kernel
  processed := ⟨_, rfl⟩

def streamApp : ProxyApp ℚ := { plainApp with loadsEvent := EventStream.unbounded.loads }

def morePayload : Fields :=
  [("model", .str "m"), ("stream", .bool true), ("messages", .arr [.obj (textMessage "user" "Hello."),
    .obj (textMessage "assistant" "Hi."), .obj (textMessage "user" "More?")])]

def moreRequest : ChatRequest where
  headers := [(conversationHeader, "c")]
  body := .ok (.obj morePayload)

def sureAnswers : ∀ call, ChatAnswer ℚ call
  | .openStream _ => .ok { status := 200 }
  | .readStream => some ⟨sureStream.chunks, .done, .readsAll⟩
  | call => plainAnswers call

/-- A handler that is answered call by call with one reaction: its calls, how it ends, and the logs it leaves. -/
def playOn {F α : Type} (reaction : Reaction F) : Prog (ChatAnswer F) ChatError α → Logs →
    ChatTrace F × Except ChatError α × Logs
  | .ret result, logs => ([], .ok result, logs)
  | .raise error, logs => ([], .error error, logs)
  | .ask call next, logs =>
    let answered := respond reaction logs call
    let rest := playOn reaction (next answered.1) answered.2
    (⟨call, answered.1⟩ :: rest.1, rest.2)

theorem playOn_runs {F α : Type} (reaction : Reaction F) (p : Prog (ChatAnswer F) ChatError α) (logs : Logs) (c : String) :
    p.Runs (playOn reaction p logs).1 (playOn reaction p logs).2.1 ∧
      Plays c logs (playOn reaction p logs).1 (playOn reaction p logs).2.2 := by
  induction p generalizing logs with
  | ret result => exact ⟨.ret result, .nil logs⟩
  | raise error => exact ⟨.raise error, .nil logs⟩
  | ask call next ih =>
    obtain ⟨hruns, hplays⟩ := ih (respond reaction logs call).1 (respond reaction logs call).2
    exact ⟨.ask _ hruns, .call reaction logs call hplays⟩

theorem forall_mem_playOn {F α : Type} {reaction : Reaction F} {P : Sigma (ChatAnswer F) → Prop}
    (h : ∀ logs call, P ⟨call, (respond reaction logs call).1⟩) (p : Prog (ChatAnswer F) ChatError α) (logs : Logs) :
    ∀ event ∈ (playOn reaction p logs).1, P event := by
  induction p generalizing logs with
  | ret | raise => exact forall_mem_nil _
  | ask call next ih => exact forall_mem_cons.mpr ⟨h logs call, ih _ _⟩

def greetedRun : ChatTrace ℚ × Except ChatError ApiResponse × Logs :=
  playOn ⟨plainAnswers, none, ""⟩ (chatCompletions streamApp helloRequest) fun _ => []

def moreRun : ChatTrace ℚ × Except ChatError ApiResponse × Logs :=
  playOn ⟨sureAnswers, none, ""⟩ (chatCompletions streamApp moreRequest) greetedRun.2.2

theorem session_greeted :
    Session streamApp "c" (messagesOf helloPayload ++ heard streamApp greetedRun.2.1) greetedRun.2.2 := by
  have hrun := playOn_runs ⟨plainAnswers, none, ""⟩ (chatCompletions streamApp helloRequest) (fun _ => []) "c"
  have hturn : SerialTurn streamApp "c" [] (fun _ => []) helloPayload greetedRun.1 greetedRun.2.1 greetedRun.2.2 :=
    ⟨⟨helloRequest, [⟨.uuid4, "c"⟩], greetedRun.1.tail, rfl, accepted_helloPayload, .fresh "c" rfl, hrun.1⟩, hrun.2,
      ⟨[], _, rfl, .nil⟩⟩
  refine .turn (.start rfl) hturn ⟨forall_mem_playOn (fun logs call => ?_) _ _, .inr ⟨_, rfl⟩⟩
  cases call with
  | _ => trivial

end ContextProxy
