import BengProxy.Http.ChunkCoding
import BengProxy.Istream.Bucket
import BengProxy.Istream.Handler

/-!
# Adding the chunked transfer coding

Models `ChunkedIstream`, `src/istream/ChunkedIstream.cxx`. The seven bytes of the buffer hold
a chunk header, a chunk trailer or the last chunk, until the handler has accepted them. The
formatting function of the chunk size, `HexFormatUint16Fixed` of the common library, is a
parameter, and so are the answers of the input.
-/

namespace BengProxy.Istream

open Http

/-- `ChunkedIstream`, `ChunkedIstream.cxx:22-38`; `buffer` is `ReadBuffer()`,
`missing` is `missing_from_current_chunk`. -/
structure ChunkedIstream where
  buffer : List UInt8 := []
  missing : Nat := 0
  hasInput : Bool := true
  deriving DecidableEq, Repr

namespace ChunkedIstream

/-- The size of the buffer, `ChunkedIstream.cxx:34`. -/
def bufferSize : Nat := 7

/-- The maximum chunk size, `ChunkedIstream.cxx:145-147`. -/
def maxChunkSize : Nat := 0x8000

variable (c : ChunkedIstream)

/-- `ChunkedIstream::AppendToBuffer`, `ChunkedIstream.cxx:119-136`; `none` if the
buffer is too small. -/
def appendToBuffer (src : List UInt8) : Option ChunkedIstream :=
  if c.buffer.length + src.length ≤ bufferSize then some { c with buffer := c.buffer ++ src }
  else none

variable (format : Nat → List UInt8)

/-- `ChunkedIstream::StartChunk`, `ChunkedIstream.cxx:138-155`. -/
def startChunk (c : ChunkedIstream) (length : Nat) : ChunkedIstream :=
  let length := if maxChunkSize < length then maxChunkSize else length
  { c with missing := length, buffer := chunkHeader format length }

/-- `ChunkedIstream::SendBuffer`, `ChunkedIstream.cxx:157-169`. -/
def sendBuffer (h : Handler) : Bool × ChunkedIstream × Handler :=
  if c.buffer.isEmpty then (true, c, h)
  else
    let (nbytes, h) := h.invokeData c.buffer
    (nbytes == c.buffer.length, { c with buffer := c.buffer.drop nbytes }, h)

/-- The loop of `ChunkedIstream::Feed`; `src` is what was not accepted yet. -/
def feedLoop (format : Nat → List UInt8) :
    Nat → ChunkedIstream → Handler → List UInt8 → Nat → Option (Nat × ChunkedIstream × Handler)
  | 0, _, _, _, _ => none
  | fuel + 1, c, h, src, total =>
    let c := if c.buffer.isEmpty && c.missing == 0 then c.startChunk format src.length else c
    match c.sendBuffer h with
    | (false, c, h) => some (if h.destroyed then 0 else total, c, h)
    | (true, c, h) =>
      if c.missing = 0 then
        -- we have just written the previous chunk trailer
        if src.isEmpty then some (total, c, h) else feedLoop format fuel c h src total
      else
        let rest := min src.length c.missing
        let (nbytes, h) := h.invokeData (src.take rest)
        if nbytes = 0 then some (if h.destroyed then 0 else total, c, h)
        else
          let missing := c.missing - nbytes
          let c := { c with missing, buffer := if missing = 0 then crlf else c.buffer }
          let src := src.drop nbytes
          if (!c.buffer.isEmpty || !src.isEmpty) && nbytes == rest then
            feedLoop format fuel c h src (total + nbytes)
          else some (total + nbytes, c, h)

/-- `ChunkedIstream::Feed`, `ChunkedIstream.cxx:185-232`, and
`ChunkedIstream::OnData`, `ChunkedIstream.cxx:240-248`. -/
def onData (c : ChunkedIstream) (h : Handler) (src : List UInt8) :
    Option (Nat × ChunkedIstream × Handler) :=
  feedLoop format (2 * src.length + 2) c h src 0

/-- `ChunkedIstream::OnEof`, `ChunkedIstream.cxx:250-266`; also whether the end was
reported to the handler. -/
def onEof (h : Handler) : Option (Bool × ChunkedIstream × Handler) :=
  ({ c with hasInput := false }.appendToBuffer eofChunk).map (sendBuffer · h)

/-- `ChunkedIstream::_Read`, `ChunkedIstream.cxx:308-329`, before it asks the input
for data; `available` is what the input promises in `GetAvailable(true)`. Also whether the end
was reported to the handler. -/
def read (c : ChunkedIstream) (h : Handler) (available : Nat) : Bool × ChunkedIstream × Handler :=
  match c.sendBuffer h with
  | (false, c, h) => (false, c, h)
  | (true, c, h) =>
    if !c.hasInput then (true, c, h)
    else if c.buffer.isEmpty && c.missing == 0 && decide (0 < available) then
      let (_, c, h) := (c.startChunk format available).sendBuffer h
      (false, c, h)
    else (false, c, h)

/-- Start a new chunk if there is none, `ChunkedIstream.cxx:351-365`. -/
def startNewChunk (c : ChunkedIstream) (sub : IstreamBucketList)
    (available : Nat) : ChunkedIstream :=
  if c.buffer.isEmpty && c.missing == 0 && c.hasInput then
    let available :=
      if available < sub.getTotalBufferSize then sub.getTotalBufferSize else available
    if 0 < available then c.startChunk format available else c
  else c

/-- The last part of `ChunkedIstream::_FillBucketList`,
`ChunkedIstream.cxx:367-387`. -/
def listChunk (list sub : IstreamBucketList) : IstreamBucketList :=
  let list := if c.buffer.isEmpty then list else list.push c.buffer
  if 0 < c.missing then
    let (nbytes, list) := list.spliceBuffersFrom sub c.missing
    if c.missing ≤ nbytes then list.push (if list.more then crlf else crlf ++ eofChunk) else list
  else if sub.more then
    if sub.fallback then list.setMore.enableFallback else list.setMore
  else if !sub.list.isEmpty then
    -- our buffer has no room yet for the chunk header
    list.setMore
  else list

/-- `ChunkedIstream::_FillBucketList`, `ChunkedIstream.cxx:331-388`; `sub` is what
the input lists and `available` what it promises. -/
def fillBucketList (c : ChunkedIstream) (list sub : IstreamBucketList)
    (available : Nat) : Option (ChunkedIstream × IstreamBucketList) :=
  if !c.hasInput then some (c, if c.buffer.isEmpty then list else list.push c.buffer)
  else
    let closed :=
      if sub.list.isEmpty && !sub.more then
        { c with hasInput := false }.appendToBuffer eofChunk
      else some c
    closed.map fun c =>
      let c := c.startNewChunk format sub available
      (c, c.listChunk list sub)

/-- `ChunkedIstream::ConsumeBuffer`, `ChunkedIstream.cxx:89-100`. -/
def consumeBuffer (nbytes : Nat) : Nat × ChunkedIstream :=
  let size := min nbytes c.buffer.length
  (size, { c with buffer := c.buffer.drop size })

/-- Consume from the input and from the chunk trailer behind it,
`ChunkedIstream.cxx:399-428`; `input` is `ConsumeBucketList` of the input. The
results are the number of bytes consumed, and how many of them are from the input. -/
def consumeInput (nbytes : Nat) (input : Nat → ConsumeBucketResult) : Nat × Nat × ChunkedIstream :=
  let size := min nbytes c.missing
  if 0 < size then
    let r := input size
    let hasInput := if r.eof then false else c.hasInput
    if c.missing - r.consumed = 0 then
      let buffer := if hasInput then crlf else crlf ++ eofChunk
      let (last, c) := consumeBuffer { missing := 0, hasInput, buffer } (nbytes - r.consumed)
      (r.consumed + last, r.consumed, c)
    else (r.consumed, r.consumed, { c with missing := c.missing - r.consumed, hasInput })
  else (0, 0, c)

/-- `ChunkedIstream::_ConsumeBucketList`, `ChunkedIstream.cxx:390-431`. -/
def consumeBucketList (nbytes : Nat) (input : Nat → ConsumeBucketResult) :
    ConsumeBucketResult × Nat × ChunkedIstream :=
  let (size, c) := c.consumeBuffer nbytes
  let (more, taken, c) := c.consumeInput (nbytes - size) input
  ({ consumed := size + more, eof := c.missing == 0 && c.buffer.isEmpty && !c.hasInput }, taken, c)

/-- `ChunkedIstream::_GetAvailable`, `ChunkedIstream.cxx:282-306`; `available` is what
the input answers to the same question. A missing value is the answer `-1`. -/
def getAvailable (partialOk : Bool) (available : Option Nat) : Option Nat :=
  let result := c.buffer.length
  -- end of the current chunk
  let result := if 0 < c.missing then result + 2 else result
  if c.hasInput then
    match available with
    | some n =>
      -- new chunk header and end, and the EOF chunk
      some ((if c.missing < n then result + n + (6 + 2) else result + n) + 5)
    | none => if partialOk then some (result + 5) else none
  else some result

end ChunkedIstream
end BengProxy.Istream
