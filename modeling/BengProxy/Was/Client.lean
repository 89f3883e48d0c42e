import BengProxy.Base.Number
import BengProxy.Connection
import BengProxy.Http.HeaderParser

/-!
# The WAS client

Models `WasClient`, `src/was/Client.cxx`, together with what it needs of `WasInput`,
`src/was/Input.cxx`: a response is received in control packets and from a pipe. First there is
metadata, then the response is pending until its length is known or a timer expires, and then it is
submitted. What the process, the pipe and the lease answer is a parameter of each step.

`Cancel()` is left out. A destroyed client stays what it was, with a flag. The functions that abort
the response have preconditions; a call that does not meet them is recorded, and the rest of the
function is executed.
-/

namespace BengProxy.Was

open Base Text Http

/-- `enum was_command`, as far as it is known to the client. -/
inductive Command where
  | nop
  | request
  | uri
  | method
  | scriptName
  | pathInfo
  | queryString
  | parameter
  | remoteHost
  | header
  | status
  | noData
  | data
  | length
  | stop
  | premature
  | metric
  | unknown
  deriving DecidableEq, Repr

/-- The library functions: the numbers of the commands, valid header names, integers in the byte
order of the machine, floating point numbers, and which status is valid or has no body. -/
structure WasLib extends HeaderLineLib where
  commandCode : Command → Nat
  loadInteger : List UInt8 → Nat
  isFinite : List UInt8 → Bool
  statusIsValid : Nat → Bool
  statusIsEmpty : Nat → Bool

/-- The messages of an exception and of those that are nested in it. -/
abbrev Exception := List String

/-- The body of a response that is passed to the handler. -/
inductive ResponseBody where
  | none
  | null
  | input
  deriving DecidableEq, Repr

/-- What the client does to the outside: the response handler, the handler of the body, the metrics
handler and the lease are called. -/
inductive WasOutput where
  | invokeResponse (status : Nat) (headers : StringMap) (body : ResponseBody)
  | invokeError (error : Exception)
  | bodyError (error : Exception)
  | bodyEof
  | metric (name : Text) (value : List UInt8)
  | releaseWas (action : PutAction)
  | releaseWasStop (received : Nat)
  deriving DecidableEq, Repr

/-- `WasInput`, `Input.cxx:30-47`: how much has been received, the length if it is known,
the number of bytes in the buffer, and some flags. -/
structure WasInput where
  received : Nat := 0
  length : Option Nat := none
  buffered : Nat := 0
  enabled : Bool := false
  closed : Bool := false
  hasPipe : Bool := true
  deriving DecidableEq, Repr

/-- `CanRelease`, `Input.cxx:91-93`. -/
def WasInput.canRelease (i : WasInput) : Bool := i.length == some i.received

/-- `Response::PendingInputType`, `Client.cxx:113-117`. -/
inductive PendingInputType where
  | none
  | length
  | premature
  deriving DecidableEq, Repr

/-- `WasClient`, `Client.cxx:51-162`: the flags `requestBody` and `metrics` are set if there
is an object, the flags `deferUpdateInput` and `submitResponseTimer` if an event is scheduled. The
flag `misuse` is set if a precondition was not met. -/
structure WasClient where
  requestBody : Bool
  metrics : Bool
  status : Nat := 200
  headers : StringMap := []
  pendingSize : Nat := 0
  totalHeaderSize : Nat := 0
  body : Option WasInput
  pendingInputType : PendingInputType := .none
  receivingMetadata : Bool := true
  pending : Bool := false
  released : Bool := false
  leaseReleased : Bool := false
  ignoreControlErrors : Bool := false
  deferUpdateInput : Bool := false
  submitResponseTimer : Bool := false
  destroyed : Bool := false
  misuse : Bool := false
  outputs : List WasOutput := []
  deriving DecidableEq, Repr

/-- What the environment answers in one step: whether `PREMATURE` and `STOP` can be sent to the
process and what is the error if not, what the lease wants, and whether there is an error when the
rest of the data is read from the pipe. -/
structure Answers where
  sendPremature : Bool := true
  sendStop : Bool := true
  controlError : Exception := []
  putAction : PutAction := .reuse
  readError : Option Exception := none
  deriving DecidableEq, Repr

namespace WasClient

section

variable (s : WasClient)

/-- `IsReceivingMetadata`, `Client.cxx:142-144`. -/
def isReceivingMetadata : Bool := s.receivingMetadata && !s.pending

/-- `WasSubmitted`, `Client.cxx:149-151`. -/
def wasSubmitted : Bool := !s.receivingMetadata

/-- A call to the outside. -/
def emit (o : WasOutput) : WasClient := { s with outputs := s.outputs ++ [o] }

/-- A precondition. -/
def require (condition : Bool) : WasClient :=
  { s with misuse := s.misuse || !condition }

/-- `Destroy`, `Client.cxx:181-183`. -/
def destroy : WasClient := { s with destroyed := true }

/-- `ClearUnused`, `Client.cxx:268-276`. -/
def clearUnused : WasClient :=
  { s with requestBody := false, body := none, leaseReleased := true }.emit (.releaseWas .destroy)

variable (error : Exception)

/-- `AbortResponseHeaders`, `Client.cxx:281-287`. -/
def abortResponseHeaders : WasClient :=
  (s.require s.isReceivingMetadata).clearUnused.destroy.emit (.invokeError error)

/-- `AbortResponseBody`, `Client.cxx:292-310`, with `was_input_free`. -/
def abortResponseBody : WasClient :=
  let s' := ({ s.require s.wasSubmitted with
    requestBody := false, body := none, leaseReleased := true }.emit (.releaseWas .destroy)).destroy
  match s.body with
  | none => s'
  | some i => if !i.closed && i.enabled then s'.emit (.bodyError error) else s'

/-- `AbortPending`, `Client.cxx:331-338`. -/
def abortPending : WasClient :=
  (s.require (!s.isReceivingMetadata && !s.wasSubmitted)).clearUnused.destroy.emit
    (.invokeError error)

/-- `AbortResponse`, `Client.cxx:343-350`. -/
def abortResponse : WasClient :=
  if s.isReceivingMetadata then s.abortResponseHeaders error
  else if s.wasSubmitted then s.abortResponseBody error
  else s.abortPending error

/-- `AbortControlError`, `Client.cxx:352-363`. -/
def abortControlError : WasClient :=
  if s.ignoreControlErrors then s.clearUnused.destroy
  else s.abortResponse ("Error on WAS control channel" :: error)

end

section Release

variable (io : Answers) (s : WasClient)

/-- `CancelRequestBody`, `Client.cxx:206-212`. -/
def cancelRequestBody : WasClient × Bool :=
  if s.requestBody then
    let s := { s with requestBody := false }
    if io.sendPremature then (s, true) else (s.abortControlError io.controlError, false)
  else (s, true)

/-- `ReleaseControl`, `Client.cxx:226-236`. -/
def releaseControl : WasClient × PutAction :=
  if s.leaseReleased then (s, .reuse)
  else ({ s with leaseReleased := true }.emit (.releaseWas .reuse), io.putAction)

/-- `ReleaseControlStop`, `Client.cxx:241-261`. -/
def releaseControlStop (received : Nat) : WasClient × Bool :=
  if s.leaseReleased then (s, true)
  else
    let s := { s with requestBody := false, ignoreControlErrors := true }
    if io.sendStop then ({ s with leaseReleased := true }.emit (.releaseWasStop received), true)
    else (s.abortControlError io.controlError, false)

/-- `ResponseEof`, `Client.cxx:316-325`. -/
def responseEof : WasClient :=
  match s.cancelRequestBody io with
  | (s, false) => s
  | (s, true) => (s.releaseControl io).1.destroy

/-- `WasInputClose`, `Client.cxx:843-863`. -/
def wasInputClose (received : Nat) : WasClient :=
  let s := { s with body := none, deferUpdateInput := false, ignoreControlErrors := true }
  match s.cancelRequestBody io with
  | (s, false) => s
  | (s, true) =>
    match s.releaseControlStop io received with
    | (s, false) => s
    | (s, true) => s.destroy

/-- `WasInputRelease`, `Client.cxx:865-880`. -/
def wasInputRelease : WasClient × Bool :=
  match { s with released := true }.cancelRequestBody io with
  | (s, false) => (s, false)
  | (s, true) => ((s.releaseControl io).1, true)

/-- `WasInputEof`, `Client.cxx:882-893`. -/
def wasInputEof : WasClient :=
  { s with body := none, deferUpdateInput := false }.responseEof io

/-- `WasInputError`, `Client.cxx:895-909`. -/
def wasInputError : WasClient :=
  ({ s with body := none, leaseReleased := true }.emit (.releaseWas .destroy)).destroy

variable (i : WasInput)

/-- `ReleasePipe`, `Input.cxx:98-106`. -/
def releasePipe : WasClient × Bool :=
  { s with body := some { i with hasPipe := false } }.wasInputRelease io

/-- `AbortError`, `Input.cxx:127-137`. -/
def abortError (error : Exception) : WasClient :=
  s.wasInputError.emit (.bodyError error)

/-- `Eof`, `Input.cxx:143-152`. -/
def eof : WasClient := (s.wasInputEof io).emit .bodyEof

/-- `SetLength`, `Input.cxx:480-508`. -/
def setLength (length : Nat) : WasClient × Bool :=
  match i.length with
  | some length' =>
    if length = length' then (s, true)
    else (s.abortError ["wrong input length announced"], false)
  | none =>
    if length < i.received then (s.abortError ["announced length is too small"], false)
    else
      let i := { i with length := some length }
      if i.canRelease then
        match s.releasePipe io i with
        | (s, false) => (s, false)
        | (s, true) => if i.enabled && i.buffered == 0 then (s.eof io, false) else (s, true)
      else ({ s with body := some i }, true)

/-- `PrematureThrow`, `Input.cxx:516-546`: the exception that is thrown. -/
def prematureThrow (length : Nat) : Option Exception :=
  if i.length.any (· < length) then some ["announced premature length is too large"]
  else if length < i.received then some ["announced premature length is too small"]
  else if i.received < length then io.readError
  else none

/-- `Premature`, `Input.cxx:548-576`. -/
def premature (s : WasClient) (i : WasInput) (length : Nat) : WasClient :=
  match prematureThrow io i length with
  | some error => s.wasInputError.emit (.bodyError error)
  | none =>
    match s.releasePipe io i with
    | (s, false) => s
    | (s, true) => (s.wasInputEof io).emit (.bodyError ["premature end of WAS response"])

/-- `was_input_premature_throw`, `Input.cxx:584-590`. -/
def wasInputPrematureThrow (length : Nat) : Exception :=
  (prematureThrow io i length).getD ["premature end of WAS response"]

end Release

section Events

variable (lib : WasLib) (io : Answers) (s : WasClient)

/-- `SubmitPendingResponse`, `Client.cxx:435-464`. The headers are moved to the handler. -/
def submitPendingResponse : WasClient :=
  let s' := { s with
    submitResponseTimer := false, pending := false, receivingMetadata := false, headers := [] }
  if s.released then
    { s' with body := none }.destroy.emit (.invokeResponse s.status s.headers .null)
  else
    let body := s.body.map fun i => { i with enabled := true }
    { s' with body }.emit (.invokeResponse s.status s.headers .input)

/-- `OnDeferredInputUpdate`, `Client.cxx:476-501`. -/
def onDeferredInputUpdate : WasClient :=
  match s.body, s.pendingInputType with
  | none, _ => s
  | some _, .none => s
  | some i, .length =>
    match s.setLength io i s.pendingSize with
    | (s, false) => s
    | (s, true) => if s.pending then s.submitPendingResponse else s
  | some i, .premature => s.premature io i s.pendingSize

variable (payload : Text)

/-- `ParseHeaderPacket`, `Client.cxx:519-530`: the header that is added; missing if the
packet is malformed. -/
def parseHeaderPacket : Option (Text × Text) :=
  match cut 0x3d payload with
  | none => none
  | some (name, value) =>
    if lib.nameValid name && isValidHeaderValue value then some (name.map lower, value) else none

/-- A letter or a digit. -/
def isAlphaNumeric (ch : UInt8) : Bool :=
  isDigit ch || (0x41 ≤ ch && ch ≤ 0x5a) || (0x61 ≤ ch && ch ≤ 0x7a)

/-- `IsValidMetricName`, `Client.cxx:532-539`. -/
def isValidMetricName (name : Text) : Bool :=
  name ≠ [] && name.length < 64 && name.all fun ch => isAlphaNumeric ch || ch == 0x5f

/-- `HandleMetric`, `Client.cxx:541-560`: the name and the value; missing if the packet is
malformed. -/
def handleMetric : Option (Text × List UInt8) :=
  if payload.length ≤ 4 then none
  else if !lib.isFinite (payload.take 4) then none
  else if isValidMetricName (payload.drop 4) then some (payload.drop 4, payload.take 4)
  else none

/-- `WAS_COMMAND_HEADER`, `Client.cxx:586-609`. -/
def onHeader : WasClient × Bool :=
  if !s.isReceivingMetadata then (s.abortResponse ["response header was too late"], false)
  else if maxHttpHeaderSize ≤ payload.length then
    (s.abortResponseHeaders ["Response header is too long"], false)
  else
    let s := { s with totalHeaderSize := s.totalHeaderSize + payload.length }
    if maxTotalHttpHeaderSize ≤ s.totalHeaderSize then
      (s.abortResponseHeaders ["Too many response headers"], false)
    else
      match parseHeaderPacket lib payload with
      | none => (s.abortResponseHeaders ["Malformed WAS HEADER packet"], false)
      | some (name, value) => ({ s with headers := s.headers.add name value }, true)

/-- `WAS_COMMAND_STATUS`, `Client.cxx:611-645`. -/
def onStatus : WasClient × Bool :=
  if !s.isReceivingMetadata then (s.abortResponse ["STATUS after body start"], false)
  else if payload.length ≠ 4 ∧ payload.length ≠ 2 then
    (s.abortResponseHeaders ["malformed STATUS"], false)
  else
    let status := lib.loadInteger payload % 2 ^ 16
    if !lib.statusIsValid status then (s.abortResponseHeaders ["malformed STATUS"], false)
    else
      let body := if lib.statusIsEmpty status then none else s.body
      ({ s with status, body }, true)

/-- `WAS_COMMAND_NO_DATA`, `Client.cxx:647-666`. -/
def onNoData : WasClient × Bool :=
  if !s.isReceivingMetadata then (s.abortResponseBody ["NO_DATA after body start"], false)
  else
    match { s with receivingMetadata := false, body := none }.cancelRequestBody io with
    | (s, false) => (s, false)
    | (s, true) =>
      let (s, putAction) := s.releaseControl io
      ({ s with headers := [] }.destroy.emit (.invokeResponse s.status s.headers .none),
        putAction == .reuse)

/-- `WAS_COMMAND_DATA`, `Client.cxx:668-682`. -/
def onData : WasClient × Bool :=
  if !s.isReceivingMetadata then (s.abortResponseBody ["DATA after body start"], false)
  else if s.body.isNone then (s.abortResponseHeaders ["no response body allowed"], false)
  else ({ s with pending := true }, true)

/-- `WAS_COMMAND_LENGTH`, `Client.cxx:684-712`. -/
def onLength : WasClient × Bool :=
  if s.isReceivingMetadata then (s.abortResponseHeaders ["LENGTH before DATA"], false)
  else if s.body.isNone then (s.abortResponseBody ["LENGTH after NO_DATA"], false)
  else if s.pendingInputType ≠ .none then (s.abortResponseBody ["Misplaced LENGTH"], false)
  else if payload.length ≠ 8 then (s.abortResponseBody ["malformed LENGTH packet"], false)
  else
    ({ s with
      pendingInputType := .length
      pendingSize := lib.loadInteger payload
      deferUpdateInput := true }, true)

/-- `WAS_COMMAND_PREMATURE`, `Client.cxx:717-757`. -/
def onPremature : WasClient × Bool :=
  if s.isReceivingMetadata then (s.abortResponseHeaders ["PREMATURE before DATA"], false)
  else if s.pendingInputType = .premature then
    (s.abortResponseBody ["Misplaced PREMATURE"], false)
  else if payload.length ≠ 8 then (s.abortResponseBody ["malformed PREMATURE packet"], false)
  else
    match s.body with
    | none => (s, true)
    | some i =>
      if s.pending then
        let error := wasInputPrematureThrow io i (lib.loadInteger payload)
        ({ s with body := none }.abortPending error, false)
      else
        ({ s with
          pendingInputType := .premature
          pendingSize := lib.loadInteger payload
          deferUpdateInput := true }, true)

/-- `WAS_COMMAND_METRIC`, `Client.cxx:759-767`. -/
def onMetric : WasClient × Bool :=
  if s.metrics then
    match handleMetric lib payload with
    | none => (s.abortResponse ["Malformed METRIC packet"], false)
    | some (name, value) => (s.emit (.metric name value), true)
  else (s, true)

/-- A packet that is only sent to a process, `Client.cxx:573-584`. -/
def onUnexpected (cmd : Command) : WasClient × Bool :=
  (s.abortResponse ["Unexpected WAS packet " ++ toString (lib.commandCode cmd)], false)

/-- `OnWasControlPacket`, `Client.cxx:562-771`: false if no more packets can be handled. -/
def onWasControlPacket (cmd : Command) (payload : Text) : WasClient × Bool :=
  match cmd with
  | .nop => (s, true)
  | .request => s.onUnexpected lib cmd
  | .uri => s.onUnexpected lib cmd
  | .method => s.onUnexpected lib cmd
  | .scriptName => s.onUnexpected lib cmd
  | .pathInfo => s.onUnexpected lib cmd
  | .queryString => s.onUnexpected lib cmd
  | .parameter => s.onUnexpected lib cmd
  | .remoteHost => s.onUnexpected lib cmd
  | .header => s.onHeader lib payload
  | .status => s.onStatus lib payload
  | .noData => s.onNoData io
  | .data => s.onData
  | .length => s.onLength lib payload
  | .stop => s.cancelRequestBody io
  | .premature => s.onPremature lib io payload
  | .metric => s.onMetric lib payload
  | .unknown => (s, true)

/-- `OnWasControlDrained`, `Client.cxx:773-785`. -/
def onWasControlDrained : WasClient :=
  if s.pending && s.pendingInputType ≠ .length then { s with submitResponseTimer := true } else s

/-- Some bytes were read from the pipe, `Input.cxx:275-338`. -/
def onInputRead (i : WasInput) (nbytes : Nat) : WasClient :=
  let i := { i with received := i.received + nbytes, buffered := i.buffered + nbytes }
  if i.canRelease then (s.releasePipe io i).1 else { s with body := some i }

/-- The handler of the body has consumed something from the buffer, `Input.cxx:261-272`. -/
def onInputConsumed (i : WasInput) (nbytes : Nat) : WasClient :=
  let i := { i with buffered := i.buffered - nbytes }
  if i.canRelease && i.buffered == 0 then { s with body := some i }.eof io
  else { s with body := some i }

/-- `WasInput::_Close`, `Input.cxx:219-240`. -/
def onInputClose (i : WasInput) : WasClient :=
  let i := { i with buffered := 0, closed := true }
  let s := { s with body := some i }
  if i.canRelease then
    if i.hasPipe then
      match s.releasePipe io i with
      | (s, false) => s
      | (s, true) => s.wasInputEof io
    else s.wasInputEof io
  else s.wasInputClose io i.received

end Events

end WasClient

end BengProxy.Was
