import ContextProxy.Capture.Stream
import ContextProxy.Memory.Retrieval
import ContextProxy.Provider.Failures

/-!
# Responses

How the routes answer: an error in the form of the API, an answer of the upstream with its own headers, or a stream of it. Header names are in lower case, and a response gives its media type only if the headers name none. The length of the body is left to the server.
-/

namespace ContextProxy

open Json

inductive ResponseContent where
  | json (value : Json)
  | bytes (body : Body)
  | stream (run : StreamRun String)
  /-- A stream that nobody has started to read. -/
  | unread

structure ApiResponse where
  status : ℕ
  headers : Headers
  content : ResponseContent

section Responses

variable (rt : Runtime)

def initHeaders (mediaType : Option String) (headers : Headers) : Headers :=
  let raw := headers.map fun header => (rt.lower header.1, header.2)
  match mediaType with
  | none => raw
  | some media => if raw.any (·.1 = "content-type") then raw else raw ++ [("content-type", media)]

/-- `response.headers[name] = value`, for a name in lower case: the first one is replaced and the others go. -/
def setHeader (name value : String) : Headers → Headers
  | [] => [(name, value)]
  | header :: headers =>
    if header.1 = name then (name, value) :: headers.filter (·.1 ≠ name) else header :: setHeader name value headers

def ApiResponse.withHeader (response : ApiResponse) (name value : String) : ApiResponse :=
  { response with headers := setHeader name value response.headers }

def textOrNull (text : Option String) : Json := (text.map Json.str).getD .null

def openaiError (message errType : String) (code param : Option String) (status : ℕ) (headers : Headers) : ApiResponse where
  status
  headers := initHeaders rt (some "application/json") headers
  content := .json (.obj [("error", .obj [("message", .str message), ("type", .str errType),
    ("param", textOrNull param), ("code", textOrNull code)])])

def ensureContentType (headers : Headers) (default : String) : Headers :=
  if headers.any fun header => rt.lower header.1 = "content-type" then headers
  else headers ++ [("Content-Type", default)]

def upstreamResponse (status : ℕ) (headers : Headers) (body : Body) : ApiResponse where
  status
  headers := initHeaders rt none (ensureContentType rt headers "application/json")
  content := .bytes body

/-- `streaming_response`, of a stream with these headers of the upstream. -/
def streamingResponse (head : ResponseHead) (content : ResponseContent) : ApiResponse where
  status := head.status
  headers := initHeaders rt none (ensureContentType rt (filterResponseHeaders rt true head.headers) "text/event-stream")
  content

/-- `error_body_response`, for the errors that have a form of their own. The handlers call it with no other, and what the body is read with may still raise. -/
def errorBodyResponse (loads : Body → JsonBody) : Raised → Option ApiResponse
  | .upstreamHTTPError status body contentType headers =>
    let normalized := openaiError rt "upstream inference endpoint returned an error" "upstream_error" none none status
      (headers.filter fun header => rt.lower header.1 ≠ "content-type")
    if "application/json".toList <+: contentType.toList then
      match loads body with
      | .value _ => some {
          status
          headers := initHeaders rt none (ensureContentType rt headers contentType)
          content := .bytes body }
      | .malformed _ => some normalized
      | .tooDeep => none
    else some normalized
  | .upstreamUnavailable _ =>
    some (openaiError rt "upstream inference endpoint is unavailable" "api_error" (some "upstream_unavailable") none 502 [])
  | .httpxError _ | .cancelledError => none

end Responses

end ContextProxy
