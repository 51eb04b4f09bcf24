import ContextProxy.Lib.Runtime

/-!
# The Qdrant client

`QdrantVectorStore`: the bootstrap of the collection and the upsert of points, as functions of what the server answers and of the cached readiness. The client raises `VectorStoreError` only for a collection that does not fit; an HTTP error of any other request comes out as it is (`upsertPoints_cases`).
-/

namespace ContextProxy

open Json

/-- What `response.json()` makes of a body. -/
inductive JsonBody where
  | value (value : Json)
  /-- `ValueError`. -/
  | malformed (text : String)
  /-- `RecursionError`. -/
  | tooDeep

/-- A response: its status, the text of the error `raise_for_status` would raise, and its body. -/
structure HttpResponse where
  status : ℕ
  statusError : String
  body : JsonBody

inductive HttpAnswer where
  | response (response : HttpResponse)
  | transport (text : String)

def HttpResponse.isSuccess (response : HttpResponse) : Bool := 200 ≤ response.status && response.status < 300

namespace HttpAnswer

def isSuccess : HttpAnswer → Bool
  | .response r => r.isSuccess
  | .transport _ => false

def hasStatus (status : ℕ) : HttpAnswer → Bool
  | .response r => r.status = status
  | .transport _ => false

end HttpAnswer

inductive VectorError where
  | vectorStore (message : String)
  | httpStatus (text : String)
  | transport (text : String)
  | attributeError
  | codec (error : CodecError)
  deriving DecidableEq, Repr

/-- The callers catch `VectorStoreError` and nothing else. -/
def VectorError.isExpected : VectorError → Bool
  | .vectorStore _ => true
  | .httpStatus _ | .transport _ | .attributeError | .codec _ => false

def HttpResponse.raiseForStatus (response : HttpResponse) : Except VectorError Unit :=
  if response.isSuccess then .ok () else .error (.httpStatus response.statusError)

/-- A request that is awaited and then checked by `raise_for_status`. -/
def HttpAnswer.raiseForStatus : HttpAnswer → Except VectorError Unit
  | .response r => r.raiseForStatus
  | .transport text => .error (.transport text)

theorem HttpAnswer.raiseForStatus_cases (answer : HttpAnswer) :
    (answer.isSuccess = true ∧ answer.raiseForStatus = .ok ()) ∨
      (answer.isSuccess = false ∧ ∃ error, error.isExpected = false ∧ answer.raiseForStatus = .error error) := by
  cases answer with
  | transport text => exact .inr ⟨rfl, .transport text, rfl, rfl⟩
  | response r =>
    rw [isSuccess, raiseForStatus, HttpResponse.raiseForStatus]
    cases r.isSuccess with
    | true => exact .inl ⟨rfl, rfl⟩
    | false => exact .inr ⟨rfl, .httpStatus r.statusError, rfl, rfl⟩

theorem HttpAnswer.not_isSuccess_of_hasStatus {answer : HttpAnswer} {status : ℕ} (hstatus : 300 ≤ status)
    (h : answer.hasStatus status = true) : answer.isSuccess = false := by
  cases answer with
  | transport text => rfl
  | response r =>
    rw [hasStatus, decide_eq_true_iff] at h
    have hlarge : ¬r.status < 300 := by omega
    simp [isSuccess, HttpResponse.isSuccess, hlarge]

/-! ### The collection -/

/-- `fields.get(key, {})`, where the code goes on to call `.get` on the outcome. -/
def nestedFields (fields : Fields) (key : String) : Except VectorError Fields :=
  if has fields key then
    match get fields key with
    | .obj inner => .ok inner
    | _ => .error .attributeError
  else .ok []

def vectorParams : Json → Except VectorError Json
  | .obj body =>
    match get body "result" with
    | .obj result => do
        let config ← nestedFields result "config"
        let params ← nestedFields config "params"
        return if has params "vectors" then get params "vectors" else .obj []
    | _ => .ok (.obj [])
  | _ => .ok (.obj [])

def isInt : Json → Bool
  | .int _ | .bool _ => true
  | _ => false

def isStr : Json → Bool
  | .str _ => true
  | _ => false

def fetchCollectionParams (collection : String) (answer : HttpAnswer) : Except VectorError Fields :=
  let failed := fun cause => Except.error (VectorError.vectorStore
    ("qdrant collection '" ++ collection ++ "' conflict check failed: " ++ cause))
  match answer with
  | .transport text => failed text
  | .response response =>
    if !response.isSuccess then failed response.statusError
    else
      match response.body with
      | .malformed text => failed text
      -- a `RecursionError` is neither of the two exceptions that are caught
      | .tooDeep => .error (.codec .recursionError)
      | .value body => do
          let params ← vectorParams body
          let fields := match params with
            | .obj fields => fields
            | _ => []
          if !isInt (get fields "size") || !isStr (get fields "distance") then
            .error (.vectorStore ("qdrant collection '" ++ collection ++
              "' reports no plain single-vector configuration; refusing to guess compatibility"))
          else .ok [("size", get fields "size"), ("distance", get fields "distance")]

def expectedParams (vectorSize : ℕ) : Fields := [("size", .int vectorSize), ("distance", .str "Cosine")]

def incompatibleMessage (rt : Runtime) (collection : String) (vectorSize : ℕ) (actual : Fields) : String :=
  "qdrant collection '" ++ collection ++ "' exists with incompatible configuration: expected size="
    ++ toString vectorSize ++ " distance=Cosine, found size=" ++ rt.str (get actual "size")
    ++ " distance=" ++ rt.str (get actual "distance") ++ "; refusing to overwrite — migrate or delete it explicitly"

/-- `ensure_collection`, with the readiness it leaves behind. -/
def ensureCollection (rt : Runtime) (collection : String) (vectorSize : ℕ) (create params : HttpAnswer) (ready : Bool) :
    Except VectorError Unit × Bool :=
  if ready then (.ok (), true)
  else
    match create with
    | .transport text => (.error (.transport text), false)
    | .response response =>
      if response.status = 409 then
        match fetchCollectionParams collection params with
        | .error error => (.error error, false)
        | .ok actual =>
          if pyEq (.obj actual) (.obj (expectedParams vectorSize)) then (.ok (), true)
          else (.error (.vectorStore (incompatibleMessage rt collection vectorSize actual)), false)
      else if response.status ≠ 200 ∧ response.status ≠ 201 then
        match response.raiseForStatus with
        | .error error => (.error error, false)
        | .ok () => (.ok (), true)
      else (.ok (), true)

/-! ### Points -/

structure Point where
  id : String
  vector : List Json
  payload : Fields

def encodePoints (rt : Runtime) (points : List Point) : Except CodecError Unit :=
  points.forM fun point => rt.encodeVector point.vector

/-- What the server answers to the requests of one upsert, those it makes only after a collection was not found included. -/
structure UpsertAnswers where
  create : HttpAnswer
  params : HttpAnswer
  put : HttpAnswer
  createAgain : HttpAnswer
  paramsAgain : HttpAnswer
  putAgain : HttpAnswer

/-- `upsert`, with the readiness it leaves behind. -/
def upsertPoints (rt : Runtime) (collection : String) (points : List Point) (vectorSize : ℕ) (answers : UpsertAnswers)
    (ready : Bool) : Except VectorError Unit × Bool :=
  if points.isEmpty then (.ok (), ready)
  else
    match ensureCollection rt collection vectorSize answers.create answers.params ready with
    | (.error error, ready) => (.error error, ready)
    | (.ok (), ready) =>
      match encodePoints rt points with
      | .error error => (.error (.codec error), ready)
      | .ok () =>
        if answers.put.hasStatus 404 then
          -- the collection has disappeared: bootstrap it once more
          match ensureCollection rt collection vectorSize answers.createAgain answers.paramsAgain false with
          | (.error error, ready) => (.error error, ready)
          | (.ok (), ready) => (answers.putAgain.raiseForStatus, ready)
        else (answers.put.raiseForStatus, ready)

/-! ### What the answers amount to -/

section Answers

variable (collection : String) (vectorSize : ℕ)

/-- The collection is there: it was created, or the one that exists fits. -/
def accepts (create params : HttpAnswer) : Bool :=
  create.isSuccess || (create.hasStatus 409 &&
    match fetchCollectionParams collection params with
    | .ok actual => pyEq (.obj actual) (.obj (expectedParams vectorSize))
    | .error _ => false)

/-- A collection exists that does not fit, or whose configuration cannot be read. -/
def refuses (create params : HttpAnswer) : Bool :=
  create.hasStatus 409 &&
    match fetchCollectionParams collection params with
    | .ok actual => !pyEq (.obj actual) (.obj (expectedParams vectorSize))
    | .error error => error.isExpected

/-- What an upsert depends on of the vectors it sends: their size, and whether they can be encoded. -/
structure Load where
  size : ℕ
  encodes : Bool

namespace UpsertAnswers

variable (load : Load) (ready : Bool) (answers : UpsertAnswers)

def opens : Bool := ready || accepts collection load.size answers.create answers.params

def reopens : Bool := accepts collection load.size answers.createAgain answers.paramsAgain

def stores : Bool :=
  load.encodes && answers.opens collection load ready &&
    (answers.put.isSuccess ||
      (answers.put.hasStatus 404 && answers.reopens collection load && answers.putAgain.isSuccess))

def declines : Bool :=
  (!ready && refuses collection load.size answers.create answers.params) ||
    (load.encodes && answers.opens collection load ready && answers.put.hasStatus 404 &&
      refuses collection load.size answers.createAgain answers.paramsAgain)

def readyAfter : Bool :=
  answers.opens collection load ready && (!answers.put.hasStatus 404 || answers.reopens collection load)

end UpsertAnswers

section Cases

/-- The collection is ready; or the client says so itself that it does not fit; or another error comes out. -/
theorem ensureCollection_cases (rt : Runtime) (create params : HttpAnswer) (ready : Bool) :
    ((ready || accepts collection vectorSize create params) = true ∧
        ensureCollection rt collection vectorSize create params ready = (.ok (), true)) ∨
      ((ready || accepts collection vectorSize create params) = false ∧
        refuses collection vectorSize create params = true ∧
        ∃ message, ensureCollection rt collection vectorSize create params ready = (.error (.vectorStore message), false)) ∨
      ((ready || accepts collection vectorSize create params) = false ∧
        refuses collection vectorSize create params = false ∧
        ∃ error, error.isExpected = false ∧
          ensureCollection rt collection vectorSize create params ready = (.error error, false)) := by
  cases ready with
  | true => exact .inl ⟨rfl, rfl⟩
  | false =>
    cases create with
    | transport text => exact .inr (.inr ⟨rfl, rfl, _, rfl, rfl⟩)
    | response r =>
      by_cases hconflict : r.status = 409
      · have hsuccess : r.isSuccess = false := by simp [HttpResponse.isSuccess, hconflict]
        simp only [ensureCollection, accepts, refuses, HttpAnswer.isSuccess, HttpAnswer.hasStatus, hconflict, hsuccess]
        cases hfetch : fetchCollectionParams collection params with
        | error error =>
          cases error with
          | vectorStore message => exact .inr (.inl ⟨rfl, rfl, message, rfl⟩)
          | httpStatus text | transport text | attributeError | codec error => exact .inr (.inr ⟨rfl, rfl, _, rfl, rfl⟩)
        | ok actual =>
          cases hfits : pyEq (.obj actual) (.obj (expectedParams vectorSize)) with
          | true => exact .inl ⟨by simp [hfits], by simp [hfits]⟩
          | false =>
            exact .inr (.inl ⟨by simp [hfits], by simp [hfits], incompatibleMessage rt collection vectorSize actual,
              by simp [hfits]⟩)
      · have hrefuses : refuses collection vectorSize (.response r) params = false := by
          simp [refuses, HttpAnswer.hasStatus, hconflict]
        have haccepts : accepts collection vectorSize (.response r) params = r.isSuccess := by
          simp [accepts, HttpAnswer.hasStatus, HttpAnswer.isSuccess, hconflict]
        rw [hrefuses, haccepts, ensureCollection, if_neg Bool.false_ne_true]
        simp only [if_neg hconflict]
        cases hsuccess : r.isSuccess with
        | true =>
          refine .inl ⟨rfl, ?_⟩
          split <;> simp [HttpResponse.raiseForStatus, hsuccess]
        | false =>
          have hstatus : r.status ≠ 200 ∧ r.status ≠ 201 := by
            constructor <;>
            · intro h
              simp [HttpResponse.isSuccess, h] at hsuccess
          refine .inr (.inr ⟨rfl, trivial, .httpStatus r.statusError, rfl, ?_⟩)
          rw [if_pos hstatus, HttpResponse.raiseForStatus, hsuccess]
          rfl

theorem not_refuses_of_accepts {create params : HttpAnswer} (h : accepts collection vectorSize create params = true) :
    refuses collection vectorSize create params = false := by
  rw [accepts, Bool.or_eq_true, Bool.and_eq_true] at h
  rw [refuses]
  cases hconflict : create.hasStatus 409 with
  | false => rfl
  | true =>
    rcases h with hsuccess | ⟨-, hfits⟩
    · simp [HttpAnswer.not_isSuccess_of_hasStatus (by decide) hconflict] at hsuccess
    · cases hfetch : fetchCollectionParams collection params with
      | error error => simp [hfetch] at hfits
      | ok actual =>
        rw [hfetch] at hfits
        simp [hfits]

theorem upsertPoints_cases (rt : Runtime) {points : List Point} (hpoints : points.isEmpty = false) {load : Load}
    (hencodes : load.encodes = (encodePoints rt points).isOk) (answers : UpsertAnswers) (ready : Bool) :
    (answers.stores collection load ready = true ∧
        upsertPoints rt collection points load.size answers ready = (.ok (), answers.readyAfter collection load ready)) ∨
      (answers.stores collection load ready = false ∧ answers.declines collection load ready = true ∧
        ∃ message, upsertPoints rt collection points load.size answers ready
          = (.error (.vectorStore message), answers.readyAfter collection load ready)) ∨
      (answers.stores collection load ready = false ∧ answers.declines collection load ready = false ∧
        ∃ error left, error.isExpected = false ∧
          upsertPoints rt collection points load.size answers ready = (.error error, left)) := by
  simp only [UpsertAnswers.stores, UpsertAnswers.declines, UpsertAnswers.readyAfter, UpsertAnswers.opens,
    UpsertAnswers.reopens, upsertPoints, hpoints, Bool.false_eq_true, if_false]
  rcases ensureCollection_cases collection load.size rt answers.create answers.params ready with
    ⟨hopens, hensure⟩ | ⟨hopens, hrefuses, message, hensure⟩ | ⟨hopens, hrefuses, error, herror, hensure⟩
  · have hnever : (!ready && refuses collection load.size answers.create answers.params) = false := by
      cases ready with
      | true => rfl
      | false => exact not_refuses_of_accepts collection load.size hopens
    rw [hensure, hopens, hnever, hencodes]
    cases encodePoints rt points with
    | error error => exact .inr (.inr ⟨rfl, rfl, .codec error, true, rfl, rfl⟩)
    | ok =>
    cases hmissing : answers.put.hasStatus 404 with
    | false =>
      rcases answers.put.raiseForStatus_cases with ⟨hput, hraise⟩ | ⟨hput, error, herror, hraise⟩
      · exact .inl ⟨by simp [hput, Except.isOk, Except.toBool], by simp [hraise]⟩
      · exact .inr (.inr ⟨by simp [hput], by simp, error, true, herror, by simp [hraise]⟩)
    | true =>
      rw [HttpAnswer.not_isSuccess_of_hasStatus (by decide) hmissing]
      rcases ensureCollection_cases collection load.size rt answers.createAgain answers.paramsAgain false with
        ⟨hreopens, hagain⟩ | ⟨hreopens, hrefuses, message, hagain⟩ | ⟨hreopens, hrefuses, error, herror, hagain⟩
      · rw [Bool.false_or] at hreopens
        have hfits := not_refuses_of_accepts collection load.size hreopens
        rcases answers.putAgain.raiseForStatus_cases with ⟨hput, hraise⟩ | ⟨hput, error, herror, hraise⟩
        · exact .inl ⟨by simp [hreopens, hput, Except.isOk, Except.toBool], by simp [hagain, hreopens, hraise]⟩
        · exact .inr (.inr ⟨by simp [hput], by simp [hfits], error, true, herror, by simp [hagain, hraise]⟩)
      · rw [Bool.false_or] at hreopens
        exact .inr (.inl ⟨by simp [hreopens], by simp [hrefuses, Except.isOk, Except.toBool], message,
          by simp [hagain, hreopens]⟩)
      · rw [Bool.false_or] at hreopens
        exact .inr (.inr ⟨by simp [hreopens], by simp [hrefuses], error, false, herror, by simp [hagain]⟩)
  · obtain ⟨rfl, -⟩ := Bool.or_eq_false_iff.mp hopens
    refine .inr (.inl ⟨by simp [hopens], by rw [hrefuses]; rfl, message, ?_⟩)
    rw [hensure, hopens]
    rfl
  · obtain ⟨rfl, -⟩ := Bool.or_eq_false_iff.mp hopens
    refine .inr (.inr ⟨by simp [hopens], by simp [hrefuses, hopens], error, false, herror, ?_⟩)
    rw [hensure]

end Cases

end Answers

end ContextProxy
