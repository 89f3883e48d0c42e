import BengProxy.Base.ChunkQueue

/-!
# Growing buffers

Models `GrowingBuffer` and `GrowingBufferReader`, `src/memory/GrowingBuffer.{cxx,hxx}`: a list of
chunks of the same capacity that bytes are written to, with a position in the first chunk. Space at
the beginning can be reserved for data that is prepended later.

A chunk is the list of the bytes that have been written to it, so its length is the fill level. The
bytes of reserved space are whatever was in the memory. The tail pointer is the last chunk. The
assertions are not part of the functions; what they demand is said where calls are described.
-/

namespace BengProxy.Memory

open Base ChunkQueue

/-- The chunk allocator: every chunk can hold at least one byte. -/
structure ChunkCapacity where
  size : Nat
  size_pos : 0 < size

/-- `GrowingBuffer`, `GrowingBuffer.hxx:24-116`. -/
structure GrowingBuffer extends ChunkQueue UInt8
  deriving DecidableEq, Repr

/-- `GrowingBufferReader`, `GrowingBuffer.hxx:301-306`. -/
structure GrowingBufferReader extends ChunkQueue UInt8
  deriving DecidableEq, Repr

namespace GrowingBuffer

/-- A new buffer. -/
def empty : GrowingBuffer := { }

/-- The fill level of the last chunk. -/
def tailFill (b : GrowingBuffer) : Nat := (b.chunks.getLastD []).length

/-- `GrowingBuffer::AppendBuffer`, `GrowingBuffer.cxx:69-77`. -/
def appendBuffer (b : GrowingBuffer) : GrowingBuffer := { b with chunks := b.chunks ++ [[]] }

variable (capacity : ChunkCapacity) (b : GrowingBuffer)

/-- `GrowingBuffer::BeginWrite` with a size, `GrowingBuffer.cxx:79-97`. -/
def beginWrite (size : Nat) : GrowingBuffer :=
  if b.chunks = [] ∨ capacity.size < b.tailFill + size then b.appendBuffer else b

/-- `GrowingBuffer::CommitWrite`, `GrowingBuffer.cxx:115-123`, after the caller has
written the data. -/
def commitWrite (data : List UInt8) : GrowingBuffer :=
  { b with chunks := appendLast data b.chunks }

/-- `GrowingBuffer::Write` with a length, `GrowingBuffer.cxx:125-131`, and the data that
the caller writes. -/
def writeSmall (data : List UInt8) : GrowingBuffer :=
  (b.beginWrite capacity data.length).commitWrite data

/-- The chunk that `GrowingBuffer::WriteSome` writes to, `GrowingBuffer.cxx:136-138`. -/
def writable : GrowingBuffer :=
  if b.chunks = [] ∨ b.tailFill = capacity.size then b.appendBuffer else b

/-- `GrowingBuffer::WriteSome`, `GrowingBuffer.cxx:133-141`, with
`Buffer::WriteSome()`, lines 59-67. -/
def writeSome (src : List UInt8) : GrowingBuffer × Nat :=
  let b := b.writable capacity
  let nbytes := min (capacity.size - b.tailFill) src.length
  (b.commitWrite (src.take nbytes), nbytes)

/-- The loop of `GrowingBuffer::Write`, `GrowingBuffer.cxx:146-149`; missing if it runs
out of fuel. -/
def writeLoop : Nat → GrowingBuffer → List UInt8 → Option GrowingBuffer
  | _, b, [] => some b
  | 0, _, _ :: _ => none
  | fuel + 1, b, c :: src =>
    let (b, nbytes) := b.writeSome capacity (c :: src)
    writeLoop fuel b ((c :: src).drop nbytes)

/-- `GrowingBuffer::Write`, `GrowingBuffer.cxx:143-150`. -/
def write (src : List UInt8) : Option GrowingBuffer :=
  writeLoop capacity src.length b src

/-- `GrowingBuffer::Reserve`, `GrowingBuffer.hxx:230-238`, with the bytes that are in
the reserved space. -/
def reserve (junk : List UInt8) : GrowingBuffer :=
  { b.writeSmall capacity junk with position := junk.length }

/-- `GrowingBuffer::Prepend`, `GrowingBuffer.hxx:246-254`, with the data that the caller
writes. -/
def prepend (data : List UInt8) : GrowingBuffer :=
  let position := b.position - data.length
  match b.chunks with
  | [] => b
  | c :: rest =>
    { chunks := (c.take position ++ data ++ c.drop (position + data.length)) :: rest, position }

/-- The spans that `ForEachBuffer` visits, `GrowingBuffer.hxx:278-299`. -/
def forEachBuffer : List (List UInt8) :=
  pieces b.position b.chunks

/-- `GrowingBuffer::GetSize`, `GrowingBuffer.cxx:178-188`. -/
def getSize : Nat := (b.forEachBuffer.map List.length).foldl (· + ·) 0

/-- `GrowingBuffer::Dup`, `GrowingBuffer.cxx:333-344`, with `CopyTo()`,
lines 325-331. -/
def dup : List UInt8 := if b.getSize = 0 then [] else b.forEachBuffer.flatten

/-- The loop of `GrowingBuffer::FillBucketList`, `GrowingBuffer.cxx:349-361`. -/
def fillBucketListLoop : Nat → List (List UInt8) → List (List UInt8)
  | _, [] => []
  | skip, c :: rest =>
    if c.length ≤ skip then fillBucketListLoop (skip - c.length) rest
    else (if 0 < skip then c.drop skip else c) :: fillBucketListLoop 0 rest

/-- `GrowingBuffer::FillBucketList`, `GrowingBuffer.cxx:346-362`. -/
def fillBucketList (skip : Nat) : List (List UInt8) :=
  fillBucketListLoop skip b.forEachBuffer

/-- `GrowingBuffer::Read`, `GrowingBuffer.cxx:190-200`. -/
def read (b : GrowingBuffer) : List UInt8 := b.toChunkQueue.read

/-- `GrowingBuffer::Consume`, `GrowingBuffer.cxx:202-222`. -/
def consume (b : GrowingBuffer) (length : Nat) : GrowingBuffer :=
  ⟨b.toChunkQueue.consume length⟩

/-- `GrowingBuffer::Skip`, `GrowingBuffer.cxx:224-243`; missing if it runs off the end
of the list. -/
def skip (b : GrowingBuffer) (length : Nat) : Option GrowingBuffer :=
  (b.toChunkQueue.skip length).map (⟨·⟩)

/-- `GrowingBuffer::ConsumeBucketList`, `GrowingBuffer.cxx:364-389`. -/
def consumeBucketList (nbytes : Nat) : GrowingBuffer × Nat :=
  let (q, result) := b.toChunkQueue.consumeUpTo nbytes
  (⟨q⟩, result)

end GrowingBuffer

namespace GrowingBufferReader

/-- The constructor, `GrowingBuffer.cxx:245-256`. The position stays as it is when the
first chunk is dropped. -/
def new (b : GrowingBuffer) : GrowingBufferReader :=
  match b.chunks with
  | [] => { chunks := [], position := b.position }
  | c :: rest =>
    if c.length ≤ b.position then { chunks := rest, position := b.position }
    else { chunks := c :: rest, position := b.position }

variable (r : GrowingBufferReader)

/-- `GrowingBufferReader::IsEOF`, `GrowingBuffer.cxx:258-264`. -/
def isEof : Bool :=
  match r.chunks with
  | [] => true
  | c :: _ => r.position == c.length

/-- The spans that `ForEachBuffer` visits. -/
def forEachBuffer : List (List UInt8) :=
  pieces r.position r.chunks

/-- `GrowingBufferReader::Available`, `GrowingBuffer.cxx:266-276`. -/
def available : Nat := (r.forEachBuffer.map List.length).foldl (· + ·) 0

/-- `GrowingBufferReader::Read`, `GrowingBuffer.cxx:278-287`. -/
def read (r : GrowingBufferReader) : List UInt8 := r.toChunkQueue.read

/-- `GrowingBufferReader::Consume`, `GrowingBuffer.cxx:289-305`. -/
def consume (r : GrowingBufferReader) (length : Nat) : GrowingBufferReader :=
  ⟨r.toChunkQueue.consume length⟩

/-- `GrowingBufferReader::Skip`, `GrowingBuffer.cxx:307-323`; missing if it runs off the
end of the list. -/
def skip (r : GrowingBufferReader) (length : Nat) : Option GrowingBufferReader :=
  (r.toChunkQueue.skip length).map (⟨·⟩)

/-- `GrowingBufferReader::FillBucketList`, `GrowingBuffer.cxx:391-397`. -/
def fillBucketList : List (List UInt8) := r.forEachBuffer

/-- `GrowingBufferReader::ConsumeBucketList`, `GrowingBuffer.cxx:399-419`. -/
def consumeBucketList (nbytes : Nat) : GrowingBufferReader × Nat :=
  let (q, result) := r.toChunkQueue.consumeUpTo nbytes
  (⟨q⟩, result)

end GrowingBufferReader

/-- The calls that change a buffer. -/
inductive GrowingBufferEvent where
  | reserve (junk : List UInt8)
  | prepend (data : List UInt8)
  | write (src : List UInt8)
  | writeSmall (data : List UInt8)
  | consume (length : Nat)
  | skip (length : Nat)
  | consumeBucketList (nbytes : Nat)

namespace GrowingBuffer

variable (capacity : ChunkCapacity) (b : GrowingBuffer)

/-- What the assertions demand, and that nothing is consumed beyond the contents. -/
def Legal : GrowingBufferEvent → Prop
  | .reserve junk => b.chunks = [] ∧ junk.length ≤ capacity.size
  | .prepend data => data.length ≤ b.position ∧ b.chunks ≠ []
  | .write _ => True
  | .writeSmall data => data.length ≤ capacity.size
  | .consume length => length ≤ b.read.length
  | .skip length => length ≤ b.getSize
  | .consumeBucketList nbytes => nbytes ≤ b.getSize

/-- The effect of a call; missing if it does not return. -/
def call : GrowingBufferEvent → Option GrowingBuffer
  | .reserve junk => some (b.reserve capacity junk)
  | .prepend data => some (b.prepend data)
  | .write src => b.write capacity src
  | .writeSmall data => some (b.writeSmall capacity data)
  | .consume length => some (b.consume length)
  | .skip length => b.skip length
  | .consumeBucketList nbytes => some (b.consumeBucketList nbytes).1

/-- One call. -/
def Step (e : GrowingBufferEvent) (b' : GrowingBuffer) : Prop :=
  b.Legal capacity e ∧ b.call capacity e = some b'

end GrowingBuffer

/-- The calls that change a reader. -/
inductive ReaderEvent where
  | consume (length : Nat)
  | skip (length : Nat)
  | consumeBucketList (nbytes : Nat)

namespace GrowingBufferReader

variable (r : GrowingBufferReader)

/-- Nothing is consumed beyond what has been read or is available. -/
def Legal : ReaderEvent → Prop
  | .consume length => length ≤ r.read.length
  | .skip length => length ≤ r.available
  | .consumeBucketList _ => True

/-- The effect of a call; missing if it does not return. -/
def call : ReaderEvent → Option GrowingBufferReader
  | .consume length => some (r.consume length)
  | .skip length => r.skip length
  | .consumeBucketList nbytes => some (r.consumeBucketList nbytes).1

/-- One call. -/
def Step (e : ReaderEvent) (r' : GrowingBufferReader) : Prop :=
  r.Legal e ∧ r.call e = some r'

end GrowingBufferReader

end BengProxy.Memory
