import BengProxy.Http.Chunked

/-!
# Removing the chunked transfer coding

Models `DechunkIstream`, `src/istream/DechunkIstream.cxx`, and its handler interface,
`src/istream/DechunkIstream.hxx`. The parser runs ahead of the delivery: `chunks` is a queue
of at most eight chunk boundaries that were found in the input and not yet consumed.
Counters in the state record how often the handler was called.
-/

namespace BengProxy.Istream

open Http

/-- `DechunkIstream::ParsedChunk`, `DechunkIstream.cxx:89-91`. -/
structure ParsedChunk where
  header : Nat := 0
  data : Nat := 0
  deriving DecidableEq, Repr

/-- The capacity of `DechunkIstream::chunks`, `DechunkIstream.cxx:93`. -/
def maxChunks : Nat := 8

/-- `DechunkHandler::DechunkInputAction`, `DechunkIstream.hxx:21-37`. -/
inductive DechunkInputAction where
  | abandon
  | close
  | destroyed
  deriving DecidableEq, Repr

/-- `DechunkIstream`, `DechunkIstream.cxx:68-101`. `eofPending` is
`IsEofPending()`, `hasInput` is `HasInput()`; `endSeen` and `ends` count the calls of
`OnDechunkEndSeen` and `OnDechunkEnd`. -/
structure DechunkIstream where
  parser : HttpChunkParser := {}
  parsedInput : Nat := 0
  pendingHeader : Nat := 0
  chunks : List ParsedChunk := []
  eofPending : Bool := false
  hasInput : Bool := true
  endSeen : Nat := 0
  ends : Nat := 0
  deriving DecidableEq, Repr

/-- One call of `InvokeData`: the stream at that time, the data and the amount accepted. -/
structure Delivery where
  stream : DechunkIstream
  offered : List UInt8
  accepted : Nat
  deriving DecidableEq, Repr

/-- The bytes accepted in a sequence of calls. -/
def output (log : List Delivery) : List UInt8 :=
  log.flatMap fun call => call.offered.take call.accepted

namespace DechunkIstream

variable (d : DechunkIstream)

/-- `DechunkIstream::AddHeader`, `DechunkIstream.cxx:130-141`; `none` if there is
no room. -/
def addHeader (size : Nat) : Option DechunkIstream :=
  match d.chunks.getLast? with
  | some back =>
    if back.data = 0 then
      some { d with chunks := d.chunks.dropLast ++ [{ back with header := back.header + size }] }
    else if d.chunks.length < maxChunks then
      some { d with chunks := d.chunks ++ [{ header := size }] }
    else none
  | none => some { d with chunks := [{ header := size }] }

/-- `DechunkIstream::AddData`, `DechunkIstream.cxx:143-154`. -/
def addData (size : Nat) : DechunkIstream :=
  match d.chunks.getLast? with
  | some back => { d with chunks := d.chunks.dropLast ++ [{ back with data := back.data + size }] }
  | none => { d with chunks := [{ data := size }] }

/-- Try to move `pending_header` to the queue, `DechunkIstream.cxx:255-258` and
`295-298`; `none` if there is no room. -/
def applyPending : Option DechunkIstream :=
  if 0 < d.pendingHeader then
    (d.addHeader d.pendingHeader).map fun d => { d with pendingHeader := 0 }
  else some d

/-- One iteration of the loop of `DechunkIstream::ParseInput`,
`DechunkIstream.cxx:246-272`; also the rest of the input, or `none` if the
function returns false. -/
def parseOnce (src : List UInt8) : Except ParseError (DechunkIstream × Option (List UInt8)) :=
  match d.parser.parse src 0 with
  | .error e => .error e
  | .ok (parser, headerSize, dataSize) =>
    let d := { d with
      parser
      endSeen := if parser.hasEnded then d.endSeen + 1 else d.endSeen
      parsedInput := d.parsedInput + headerSize
      pendingHeader := d.pendingHeader + headerSize }
    match d.applyPending with
    | none => .ok (d, none)
    | some d =>
      let d :=
        if 0 < dataSize then
          { d.addData dataSize with
            parsedInput := d.parsedInput + dataSize
            parser := d.parser.consume dataSize }
        else d
      if d.parser.hasEnded then .ok (d, none) else .ok (d, some (src.drop (headerSize + dataSize)))

/-- The loop of `DechunkIstream::ParseInput`. -/
def parseLoop : Nat → DechunkIstream → List UInt8 →
    Option (Except ParseError (Bool × DechunkIstream))
  | _, d, [] => some (.ok (true, d))
  | 0, _, _ => none
  | fuel + 1, d, src =>
    match d.parseOnce src with
    | .error e => some (.error e)
    | .ok (d, none) => some (.ok (false, d))
    | .ok (d, some src) => parseLoop fuel d src

/-- `DechunkIstream::ParseInput`, `DechunkIstream.cxx:239-276`. -/
def parseInput (src : List UInt8) : Option (Except ParseError (Bool × DechunkIstream)) :=
  if d.parser.hasEnded then
    -- don't accept any more data after the EOF chunk
    some (.ok (false, d))
  else parseLoop src.length d src

/-- The local state of `DechunkIstream::OnData`: the stream, the rest of `src`, and the
calls of `InvokeData` so far. -/
structure Frame where
  stream : DechunkIstream
  src : List UInt8
  log : List Delivery

/-- How the loop over `chunks` in `OnData` ends: all chunks submitted (with `popped`, if there
was one), not enough input, a handler that did not accept everything, or one that destroyed
the stream. -/
inductive Submitted where
  | drained (popped : Bool)
  | starved
  | blocked
  | closed
  deriving DecidableEq, Repr

/-- Submit the data of the first chunk, behind its header,
`DechunkIstream.cxx:336-359`; `none` if all of it was submitted. The handler
accepts `accept k` bytes, if offered as many, in its call number `k`, or destroys the
stream. -/
def submitData (accept : Nat → Option Nat) (data : Nat) (rest : List ParsedChunk) (f : Frame) :
    Option Submitted × Frame :=
  let dataSize := min f.src.length data
  if 0 < dataSize then
    match accept f.log.length with
    | none => (some .closed, f)
    | some a =>
      let n := min a dataSize
      let f' := {
        stream := { f.stream with
          parsedInput := f.stream.parsedInput - n
          chunks := { header := 0, data := data - n } :: rest }
        src := f.src.drop n
        log := f.log ++ [{ stream := f.stream, offered := f.src.take dataSize, accepted := n }] }
      -- not everything was consumed: stop here
      if n < dataSize then (some .blocked, f')
      -- there was not enough data
      else if 0 < data - n then (some .starved, f')
      else (none, f')
  else if 0 < data then (some .starved, f)
  else (none, f)

/-- The loop over `chunks` in `DechunkIstream::OnData`,
`DechunkIstream.cxx:317-362`. -/
def submit (accept : Nat → Option Nat) : List ParsedChunk → Bool → Frame → Submitted × Frame
  | [], popped, f => (.drained popped, { f with stream := { f.stream with chunks := [] } })
  | chunk :: rest, _, f =>
    if f.src.length < chunk.header then
      -- there's not enough data to skip the whole header
      (.starved, { f with
        stream := { f.stream with
          parsedInput := f.stream.parsedInput - f.src.length
          chunks := { chunk with header := chunk.header - f.src.length } :: rest }
        src := [] })
    else
      let f := { f with
        stream := { f.stream with
          parsedInput := f.stream.parsedInput - chunk.header
          chunks := { chunk with header := 0 } :: rest }
        src := f.src.drop chunk.header }
      match submitData accept chunk.data rest f with
      | (some exit, f) => (exit, f)
      | (none, f) => submit accept rest true f

/-- The loop of `DechunkIstream::OnData`, `DechunkIstream.cxx:289-363`. -/
def onDataLoop (accept : Nat → Option Nat) :
    Nat → Frame → Option (Except ParseError (Submitted × Frame))
  | 0, _ => none
  | fuel + 1, f =>
    let d := f.stream.applyPending.getD f.stream
    let parsed :=
      if d.parsedInput < f.src.length then d.parseInput (f.src.drop d.parsedInput)
      else some (.ok (true, d))
    match parsed with
    | none => none
    | some (.error e) => some (.error e)
    | some (.ok (_, d')) =>
      let again := decide (d.parsedInput < f.src.length) && !d'.parser.hasEnded
      match submit accept d'.chunks false { f with stream := d' } with
      | (.drained popped, f) =>
        if popped || again then onDataLoop accept fuel f else some (.ok (.drained popped, f))
      | (exit, f) => some (.ok (exit, f))

/-- `DechunkIstream::InvokeDechunkEnd`, `DechunkIstream.cxx:210-231`. -/
def invokeDechunkEnd : DechunkIstream :=
  { d with ends := d.ends + 1, hasInput := false }

/-- `DechunkIstream::EofDetected`, `DechunkIstream.cxx:233-238`. -/
def eofDetected : DechunkIstream :=
  { d with eofPending := true }.invokeDechunkEnd

/-- What `OnData` returns, the stream afterwards (`none` if it was destroyed) and the calls
of `InvokeData`. -/
structure OnDataResult where
  returned : Nat
  stream : Option DechunkIstream
  log : List Delivery
  error : Option ParseError := none

/-- The end of `DechunkIstream::OnData`, `DechunkIstream.cxx:365-377`: zero is
returned if the handler closed or destroyed the input. -/
def finishData (action : DechunkInputAction) (size : Nat) (f : Frame) : OnDataResult :=
  if f.stream.chunks.isEmpty && f.stream.parser.hasEnded then
    let returned :=
      match action with
      | .abandon => size - f.src.length
      | .close | .destroyed => 0
    { returned, stream := some f.stream.eofDetected, log := f.log }
  else { returned := size - f.src.length, stream := some f.stream, log := f.log }

/-- `DechunkIstream::OnData`, `DechunkIstream.cxx:284-378`. -/
def onData (action : DechunkInputAction) (src : List UInt8)
    (accept : Nat → Option Nat) : Option OnDataResult :=
  match onDataLoop accept (src.length + 1) { stream := d, src, log := [] } with
  | none => none
  | some (.error e) => some { returned := 0, stream := none, log := [], error := some e }
  | some (.ok (.closed, f)) => some { returned := 0, stream := none, log := f.log }
  | some (.ok (.blocked, f)) =>
    some { returned := src.length - f.src.length, stream := some f.stream, log := f.log }
  | some (.ok (_, f)) => some (finishData action src.length f)

end DechunkIstream
end BengProxy.Istream
