import BengProxy.Base.Number
import BengProxy.Connection
import BengProxy.Fcgi.Parser
import BengProxy.Http.HeaderParser
import BengProxy.Istream.Handler

/-!
# The FastCGI client

Models `FcgiClient`, `src/fcgi/Client.cxx`: a response is received in records from a socket. The
payloads of the `STDOUT` records are the headers, one in each line, an empty line and the body,
which is an istream. Data that has not been consumed stays in the buffer of the socket, and it is
presented again together with what is received next.

The request that is sent at the same time is left out, and so are the timeout and errors of the
socket. A destroyed client stays what it was, with a flag.
-/

namespace BengProxy.Fcgi

open Base Text Http Istream FcgiRecordType

/-- The library functions: header lines, the lookup in the header map, and which status is valid
or has no body. -/
structure FcgiLib extends HeaderLineLib, Lookup where
  statusIsValid : Nat → Bool
  statusIsEmpty : Nat → Bool

/-- The calls of the response handler and of the handler of the body, what is written to the log,
and accesses to fields of the client after its destructor has run. -/
inductive ClientOutput where
  | response (status : Nat) (headers : StringMap) (body : Bool)
  | responseError (message : String)
  | bodyError (message : String)
  | bodyEof
  | stderr (data : List UInt8)
  | accessDestroyed
  deriving DecidableEq, Repr

/-- `FcgiClient`, `Client.cxx:69-172`, with the buffer of the socket, the action with which
the socket was released, and the calls that were made. The length `available` is missing if it is
negative. The response handler closes the body at once or keeps it. -/
structure FcgiClient where
  id : Nat
  parser : FcgiParser := { }
  buffer : List UInt8 := []
  released : Option PutAction := none
  destroyed : Bool := false
  headers : StringMap := []
  totalHeaderSize : Nat := 0
  available : Option Nat := none
  status : Nat := 0
  noBody : Bool
  receivingHeaders : Bool := true
  stderr : Bool := false
  endRequest : Bool := false
  skipStderr : Nat := 0
  handler : Handler
  closesBody : Bool := false
  outputs : List ClientOutput := []

namespace FcgiClient

section

variable (s : FcgiClient)

/-- `WasResponseSubmitted`, `Client.cxx:158-160`. -/
def wasResponseSubmitted : Bool := !s.receivingHeaders && !s.noBody

/-- A call of a handler. -/
def emit (o : ClientOutput) : FcgiClient := { s with outputs := s.outputs ++ [o] }

/-- `Destroy`, and the socket is released by the destructor, `Client.cxx:323-327`. -/
def destroy (s : FcgiClient) : FcgiClient :=
  { s with destroyed := true, released := some (s.released.getD .destroy) }

/-- `AbortResponseHeaders`, `Client.cxx:329-337`. -/
def abortResponseHeaders (message : String) : FcgiClient :=
  s.destroy.emit (.responseError message)

/-- `AbortResponseBody`, `Client.cxx:339-345`. -/
def abortResponseBody (message : String) : FcgiClient :=
  s.destroy.emit (.bodyError message)

/-- `HandleStderrPayload`, `Client.cxx:366-373`. -/
def handleStderrPayload (payload : List UInt8) : FcgiClient :=
  s.emit (.stderr payload)

end

section Headers

variable (lib : FcgiLib) (s : FcgiClient)

/-- `HandleLine`, `Client.cxx:438-462`: whether it was the empty line, or an error
message. -/
def handleLine (line : Text) : Except String (FcgiClient × Bool) :=
  if line ≠ [] then
    if maxHttpHeaderSize ≤ line.length then .error "Response header is too long"
    else if maxTotalHttpHeaderSize ≤ s.totalHeaderSize + line.length then
      .error "Too many response headers"
    else
      match headerParseLine lib.toHeaderLineLib s.headers line with
      | none => .error "Malformed FastCGI response header"
      | some headers =>
        .ok ({ s with totalHeaderSize := s.totalHeaderSize + line.length, headers }, false)
  else .ok ({ s with receivingHeaders := false }, true)

/-- The first line and what follows its line feed; missing if there is none. -/
def splitLine (src : Text) : Option (Text × Text) :=
  match splitWhile src (· ≠ 0x0a) with
  | (_, []) => none
  | (line, _ :: rest) => some (line, rest)

private theorem length_of_splitLine {src line rest : Text} (h : splitLine src = some (line, rest)) :
    rest.length < src.length := by
  have hle := length_splitWhile_le src (· ≠ 0x0a)
  rw [splitLine] at h
  split at h
  · cases h
  next line' c rest' hsp =>
    cases h
    rw [hsp] at hle
    exact hle

/-- The loop of `ParseHeaders`, `Client.cxx:470-480`: what follows the empty line; missing
if there is no more line feed. -/
def parseHeadersLoop (s : FcgiClient) (src : Text) : Except String (FcgiClient × Option Text) :=
  match _h : splitLine src with
  | none => .ok (s, none)
  | some (line, rest) =>
    match s.handleLine lib (stripRight lib.toHeaderLineLib line) with
    | .error message => .error message
    | .ok (s, true) => .ok (s, some rest)
    | .ok (s, false) => parseHeadersLoop s rest
termination_by src.length
decreasing_by exact length_of_splitLine _h

/-- `ParseHeaders`, `Client.cxx:464-483`: how much has been consumed. That is nothing
unless the empty line was found, although the lines before have been handled. -/
def parseHeaders (src : Text) : Except String (FcgiClient × Nat) :=
  match s.parseHeadersLoop lib src with
  | .error message => .error message
  | .ok (s, none) => .ok (s, 0)
  | .ok (s, some rest) => .ok (s, src.length - rest.length)

/-- The status that is taken from the headers, and the other headers,
`Client.cxx:533-540`. -/
def removeStatus (headers : StringMap) : Nat × StringMap :=
  match headers.remove lib.toLookup (ascii "status") with
  | (none, headers) => (200, headers)
  | (some value, headers) =>
    (if lib.statusIsValid (atoi16 value) then atoi16 value else 200, headers)

/-- The value of a `Content-Length` header, `Client.cxx:557-563`. -/
def contentLength (value : Text) : Option Nat :=
  let (n, rest) := strtoul value
  if rest ≠ value ∧ rest = [] ∧ n < 2 ^ 63 then some n else none

/-- `SubmitResponse`, `Client.cxx:528-575`; the client is destroyed if the body is closed
at once. -/
def submitResponse : FcgiClient :=
  let (status, headers) := removeStatus lib s.headers
  if s.noBody || lib.statusIsEmpty status then
    { s with headers, noBody := true, status, parser := s.parser.skipCurrent }
  else
    let (value, headers) := headers.remove lib.toLookup (ascii "content-length")
    let s := { s with available := value.bind contentLength, headers := [] }.emit
      (.response status headers true)
    if s.closesBody then s.destroy else s

end Headers

section Records

variable (lib : FcgiLib) (s : FcgiClient) (src : List UInt8)

/-- `InvokeData`, and the rest of `Feed()` for the body, `Client.cxx:514-525`. -/
def feedBody : FcgiClient × Nat :=
  let (consumed, handler) := s.handler.invokeData src
  let s := { s with handler, available := s.available.map (· - consumed) }
  (if handler.destroyed then s.destroy else s, consumed)

/-- The part of `Feed()` for `STDERR`, `Client.cxx:488-504`. -/
def feedStderr : FcgiClient × Nat :=
  if s.skipStderr < src.length then
    ({ s with skipStderr := 0 }.handleStderrPayload (src.drop s.skipStderr), src.length)
  else ({ s with skipStderr := s.skipStderr - src.length }, src.length)

/-- `Feed`, `Client.cxx:485-526`. -/
def feed : FcgiClient × Nat :=
  if s.stderr then s.feedStderr src
  else if s.receivingHeaders then
    match s.parseHeaders lib src with
    | .ok result => result
    | .error message => (s.abortResponseHeaders message, 0)
  else s.feedBody src

/-- `HandleEndComplete`, `Client.cxx:577-590`. Status and headers are read after `Destroy()`. -/
def handleEndComplete : FcgiClient :=
  if s.noBody then (s.destroy.emit .accessDestroyed).emit (.response s.status s.headers false)
  else s.destroy.emit .bodyEof

/-- `HandleEnd`, `Client.cxx:592-615`. -/
def handleEnd : FcgiClient × FrameResult :=
  let s := { s with endRequest := true }
  if s.receivingHeaders then
    (s.abortResponseHeaders "premature end of headers from FastCGI application", .closed)
  else if !s.noBody && s.available.any (0 < ·) then
    (s.abortResponseBody "premature end of body from FastCGI application", .closed)
  else ({ s with available := some 0 }, .skip)

/-- `OnFrameHeader`, `Client.cxx:623-651`. -/
def onFrameHeader (type : UInt8) (requestId : Nat) : FcgiClient × FrameResult :=
  if requestId ≠ s.id then (s, .skip)
  else if type = stdout.code then
    ({ s with stderr := false }, if !s.receivingHeaders && s.noBody then .skip else .continue)
  else if type = FcgiRecordType.stderr.code then ({ s with stderr := true }, .continue)
  else if type = FcgiRecordType.endRequest.code then s.handleEnd
  else (s, .skip)

/-- The payload is larger than what is left of the body, `Client.cxx:658-661`. -/
def isExcess (payload : List UInt8) : Bool :=
  s.wasResponseSubmitted && !s.stderr && s.available.any (· < payload.length)

/-- `OnFramePayload`, `Client.cxx:653-696`. -/
def onFramePayload (payload : List UInt8) : FcgiClient × FrameResult × Nat :=
  if s.isExcess payload then
    (s.abortResponseBody "excess data at end of body from FastCGI application", .closed, 0)
  else
    match s.feed lib payload with
    | (s', 0) => (s', if s'.destroyed then .closed else .continue, 0)
    | (s', nbytes + 1) =>
      (s', if s.receivingHeaders && !s'.receivingHeaders then .stop else .continue, nbytes + 1)

/-- `OnFrameEnd`, `Client.cxx:698-706`. -/
def onFrameEnd : FcgiClient × FrameResult :=
  if s.endRequest then (s.handleEndComplete, .closed) else (s, .continue)

/-- The client as a handler of records. -/
def frameHandler : FcgiFrameHandler FcgiClient where
  onFrameConsumed s nbytes := { s with buffer := s.buffer.drop nbytes }
  onFrameHeader := onFrameHeader
  onFramePayload := onFramePayload lib
  onFrameEnd := onFrameEnd

/-- `AnalysisHandler`, `Client.cxx:375-423`, with `BufferAnalysis`. -/
structure Analysis where
  endRequestOffset : Nat := 0
  totalStdout : Nat := 0
  consumed : Nat := 0
  isEnd : Bool := false
  deriving DecidableEq, Repr

/-- The handler that looks for the end of the response. -/
def analysisHandler (id : Nat) : FcgiFrameHandler Analysis where
  onFrameConsumed a nbytes := { a with consumed := a.consumed + nbytes }
  onFrameHeader a type requestId :=
    if requestId ≠ id then (a, .skip)
    else if type = stdout.code then (a, .continue)
    else if type = FcgiRecordType.endRequest.code then ({ a with isEnd := true }, .skip)
    else (a, .skip)
  onFramePayload a payload :=
    ({ a with totalStdout := a.totalStdout + payload.length }, .continue, payload.length)
  onFrameEnd a :=
    if a.isEnd then ({ a with endRequestOffset := a.consumed }, .stop) else (a, .continue)

/-- `AnalyseBuffer`, `Client.cxx:425-436`. -/
def analyseBuffer : Analysis :=
  let parser := if s.stderr then s.parser.skipCurrent else s.parser
  ((analysisHandler s.id).feed parser s.buffer { }).1.state

/-- `socket.Release()`. -/
def release (action : PutAction) : FcgiClient := { s with released := some action }

/-- `ConsumeInput`, `Client.cxx:708-749`. -/
def consumeInput : FcgiClient × BufferedResult :=
  let (f, result) := (frameHandler lib).feed s.parser s.buffer s
  let s' := { f.state with parser := f.parser }
  match result with
  | .ok => (s', .more)
  | .blocking => (s', .ok)
  | .more => (s', .more)
  | .stop =>
    if s.receivingHeaders && !s'.receivingHeaders then
      let s' := s'.submitResponse lib
      (s', if s'.destroyed then .destroyed else .again)
    else (s', .ok)
  | .closed => (s', .destroyed)

/-- The socket is not needed any more if the end of the response is in the buffer,
`Client.cxx:1156-1168`. -/
def releaseEarly : FcgiClient :=
  let analysis := s.analyseBuffer
  if s.released.isNone ∧ 0 < analysis.endRequestOffset ∧
      analysis.endRequestOffset ≤ s.buffer.length then
    s.release (if analysis.endRequestOffset = s.buffer.length then .reuse else .destroy)
  else s

/-- `OnBufferedData`, `Client.cxx:1137-1171`, if the handler of the body does not take the
data from buckets. -/
def onBufferedData : FcgiClient × BufferedResult := s.releaseEarly.consumeInput lib

end Records

end FcgiClient

end BengProxy.Fcgi
