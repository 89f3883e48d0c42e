import BengProxy.Base.Memory
import BengProxy.Memory.RubberTable

/-!
# The rubber memory allocator

Models `Rubber`, `src/memory/Rubber.cxx:420-932` and `src/memory/Rubber.hxx`. Objects live
in one memory map behind the allocation table; the free ranges between them hold a `Hole`
header in place and are linked in one of ten lists by size. A hole list is modelled by the
offsets of its members, front first. Reading a header that is not intact is undefined
behaviour of the source and is `none` here, as is an overlapping `memcpy`.
-/

namespace BengProxy.Memory

open Base

/-- `RUBBER_ALIGN`, `Rubber.cxx:197`. -/
def rubberAlign : Nat := 0x20

/-- `align_size`, `Rubber.cxx:206-210`: round up to a multiple of `RUBBER_ALIGN`. -/
def alignSize (size : Nat) : Nat := (size + (rubberAlign - 1)) / rubberAlign * rubberAlign

/-- `AlignHugePageUp`: round up to a multiple of the huge page size. -/
def alignHugePageUp (hugePageSize x : Nat) : Nat :=
  (x + (hugePageSize - 1)) / hugePageSize * hugePageSize

/-- The header of a free range; `Rubber::Hole`, `Rubber.hxx:54-64`. The list hook
is modelled by the lists of `Rubber.holes`. -/
structure Hole where
  size : Nat
  previousId : Nat
  nextId : Nat
  deriving DecidableEq, Repr

/-- `sizeof(Rubber::Hole)`: two hook pointers, the size and the two ids. -/
def sizeofHole : Nat := 0x20

/-- `Rubber::HOLE_THRESHOLDS`, `Rubber.hxx:41-43`. -/
def holeThresholds : List Nat :=
  [1024 * 1024, 64 * 1024, 32 * 1024, 16 * 1024, 8192, 4096, 2048, 1024, 64, 0]

/-- `Rubber::N_HOLE_THRESHOLDS`, `Rubber.hxx:52`. -/
def nHoleThresholds : Nat := holeThresholds.length

/-- `Rubber::LookupHoleThreshold`, `Rubber.hxx:45-50`: the first list whose
threshold is not above the size. -/
def lookupHoleThreshold (size : Nat) : Nat := holeThresholds.findIdx fun t => t ≤ size

/-- The allocator state; `Rubber.hxx:25-73`. `mapSize` is `table.size()`. -/
structure Rubber where
  nettoSize : Nat
  mapSize : Nat
  hugePageSize : Nat
  table : RubberTable
  holes : Nat → List Nat
  mem : Base.Memory Hole

namespace Rubber

/-- `Rubber::GetBruttoSize`, `Rubber.cxx:868-872`. -/
def getBruttoSize (r : Rubber) : Nat := r.table.getBruttoSize

variable (r : Rubber)

/-- `Rubber::GetMaxSize`, `Rubber.cxx:862-866`: the memory map without the table. -/
def getMaxSize : Nat := r.mapSize - r.table.getSize

/-- `Rubber::GetTotalHoleSize(const HoleList &)`, `Rubber.cxx:427-439`. -/
def totalHoleSizeOf (mem : Base.Memory Hole) (offsets : List Nat) : Option Nat :=
  offsets.foldlM (fun result offset => do
    let hole ← mem.load offset sizeofHole
    some (result + hole.size)) 0

/-- `Rubber::GetTotalHoleSize`, `Rubber.cxx:441-451`. -/
def getTotalHoleSize : Option Nat :=
  (List.range nHoleThresholds).foldlM (fun result bucket => do
    let size ← totalHoleSizeOf r.mem (r.holes bucket)
    some (result + size)) 0

/-- Read the `Hole` header at an offset. -/
def holeAt (offset : Nat) : Option Hole := r.mem.load offset sizeofHole

/-- Write the `Hole` header at an offset. -/
def setHole (offset : Nat) (hole : Hole) : Rubber :=
  { r with mem := r.mem.store offset sizeofHole hole }

/-- `Rubber::AddToHoleList`, `Rubber.cxx:506-510`, of the hole with this size. -/
def addToHoleList (offset size : Nat) : Rubber :=
  let bucket := lookupHoleThreshold size
  { r with holes := Function.update r.holes bucket (offset :: r.holes bucket) }

/-- `Rubber::RemoveHole`, `Rubber.hxx:257-259`: unlink from whichever list. -/
def removeHole (offset : Nat) : Rubber :=
  { r with holes := fun bucket => (r.holes bucket).erase offset }

/-- `Rubber::AddHole`, `Rubber.cxx:512-522`. -/
def addHole (offset size previousId nextId : Nat) : Rubber :=
  (r.setHole offset { size, previousId, nextId }).addToHoleList offset size

/-- The loop of `Rubber::FindHole(HoleList &, size_t)`, `Rubber.cxx:455-484`:
the smallest hole that is large enough, giving up after 64 iterations with a candidate. -/
def findHoleIn (mem : Base.Memory Hole) (size : Nat) :
    List Nat → Option (Nat × Hole) → Nat → Option (Option (Nat × Hole))
  | [], best, _ => some best
  | offset :: rest, best, i =>
    match mem.load offset sizeofHole with
    | none => none
    | some hole =>
      if size ≤ hole.size ∧ (best.all fun b => hole.size < b.2.size) then
        if hole.size = size then some (some (offset, hole))
        else if 64 ≤ i + 1 then some (some (offset, hole))
        else findHoleIn mem size rest (some (offset, hole)) (i + 1)
      else if best.isSome then
        if 64 ≤ i + 1 then some best else findHoleIn mem size rest best (i + 1)
      else findHoleIn mem size rest best i

/-- The front of the first list that is not empty, below `bucket` and counting down;
`Rubber.cxx:493-500`. -/
def frontBelow (holes : Nat → List Nat) : Nat → Option Nat
  | 0 => none
  | bucket + 1 =>
    match holes bucket with
    | offset :: _ => some offset
    | [] => frontBelow holes bucket

variable (size : Nat)

/-- `Rubber::FindHole(size_t)`, `Rubber.cxx:486-504`. -/
def findHole : Option (Option Nat) :=
  let bucket := lookupHoleThreshold size
  match findHoleIn r.mem size (r.holes bucket) none 0 with
  | none => none
  | some (some (offset, _)) => some (some offset)
  | some none => some (frontBelow r.holes bucket)

/-- `Rubber::AddHoleAfter`, `Rubber.cxx:524-578`. -/
def addHoleAfter (referenceId offset size : Nat) : Option Rubber :=
  let o := r.table.entries referenceId
  let nextId := o.next
  let next := r.table.entries nextId
  let referenceEnd := o.getEndOffset
  if offset > referenceEnd then do
    -- follows an existing hole: grow the existing one
    let hole ← r.holeAt referenceEnd
    let r := r.removeHole referenceEnd
    let hole := { hole with size := hole.size + size, nextId }
    let r := r.setHole referenceEnd hole
    if referenceEnd + hole.size < next.offset then do
      -- there's another hole to merge with
      let nextHole ← r.holeAt (referenceEnd + hole.size)
      let r := r.removeHole (referenceEnd + hole.size)
      let hole := { hole with size := hole.size + nextHole.size }
      some ((r.setHole referenceEnd hole).addToHoleList referenceEnd hole.size)
    else
      some (r.addToHoleList referenceEnd hole.size)
  else if offset + size < next.offset then do
    -- precedes an existing hole: merge the new hole and the existing one
    let nextHole ← r.holeAt (offset + size)
    let r := r.removeHole (offset + size)
    some (r.addHole offset (size + nextHole.size) referenceId nextId)
  else
    -- no existing hole before or after the new one
    some (r.addHole offset size referenceId nextId)

/-- `Rubber::UseHole`, `Rubber.cxx:611-633`, of the hole at `offset`. -/
def useHole (offset id size : Nat) : Option Rubber := do
  let hole ← r.holeAt offset
  let r := { r with table := r.table.link id hole.previousId hole.nextId }
  let r := r.removeHole offset
  if size ≠ hole.size then
    -- shrink the hole
    some (r.addHole (offset + size) (hole.size - size) id hole.nextId)
  else
    some r

/-- `Rubber::AddInHole(Hole &, size_t)`, `Rubber.cxx:635-650`. -/
def addInHoleAt (offset size : Nat) : Option (Nat × Rubber) :=
  let (id, table) := r.table.addId
  if id = 0 then some (0, { r with table })
  else do
    let r := { r with table := table.init id offset size }
    let r ← r.useHole offset id size
    some (id, { r with nettoSize := r.nettoSize + size })

/-- `Rubber::AddInHole(size_t)`, `Rubber.cxx:652-661`. -/
def addInHole : Option (Nat × Rubber) := do
  match ← r.findHole size with
  | some offset => r.addInHoleAt offset size
  | none => some (0, r)

/-- `Rubber::FindHoleBetween`, `Rubber.cxx:821-829`: the offset of the hole. -/
def findHoleBetween (a b : RubberObject) : Option Nat :=
  if a.getEndOffset < b.offset then some a.getEndOffset else none

/-- `Rubber::DiscardHoleBetween`, `Rubber.cxx:807-819`. -/
def discardHoleBetween (a b : RubberObject) : Rubber :=
  match findHoleBetween a b with
  | some offset => r.removeHole offset
  | none => r

/-- `Rubber::MoveLast`, `Rubber.cxx:663-709`. -/
def moveLast (maxObjectSize : Nat) : Option (Bool × Rubber) :=
  let id := r.table.previousOf 0
  let o := r.table.entries id
  if o.size > maxObjectSize then
    -- too large
    some (false, r)
  else do
    match ← r.findHole o.size with
    | none => some (false, r)
    | some offset =>
      let hole ← r.holeAt offset
      if hole.nextId = id then
        -- no hole found
        some (false, r)
      else do
        let previous := r.table.entries o.previous
        -- any hole that may exist before this object is obsolete, so remove it
        let r := r.discardHoleBetween previous o
        let r := { r with table := (r.table.unlink id).setOffset id offset }
        -- replace the hole we found earlier
        let r ← r.useHole offset id o.size
        -- move data to that hole
        let mem ← r.mem.copy offset o.offset o.size
        some (true, { r with mem })

/-- `while (MoveLast(size - 1)) {}`, `Rubber.cxx:733`. -/
def moveLastLoop : Nat → Rubber → Nat → Option Rubber
  | 0, _, _ => none
  | fuel + 1, r, maxObjectSize => do
    match ← r.moveLast maxObjectSize with
    | (true, r) => moveLastLoop fuel r maxObjectSize
    | (false, r) => some r

/-- `Rubber::MoveData`, `Rubber.cxx:874-885`. -/
def moveData (id newOffset : Nat) : Rubber :=
  let o := r.table.entries id
  if o.offset = newOffset then r
  else
    { r with mem := r.mem.move newOffset o.offset o.size, table := r.table.setOffset id newOffset }

/-- The loop of `Rubber::Compress`, `Rubber.cxx:919-922`, behind object `id`;
also the offset behind the last object. -/
def compressLoop : Nat → Rubber → Nat → Nat → Option (Rubber × Nat)
  | 0, _, _, _ => none
  | fuel + 1, r, id, offset =>
    let next := r.table.nextOf id
    if next = 0 then some (r, offset)
    else
      let r := r.moveData next offset
      compressLoop fuel r next (offset + r.table.sizeOf next)

/-- `Rubber::Compress`, `Rubber.cxx:896-932`; pages that were given back to the
kernel read as zero. -/
def compress : Option Rubber :=
  if r.getBruttoSize = r.nettoSize then some r
  else do
    let r := { r with holes := fun _ => [] }
    let (r, offset) ← compressLoop r.table.initializedTail r 0 r.table.getSize
    let allocated := alignHugePageUp r.hugePageSize offset
    if allocated < r.mapSize then some { r with mem := r.mem.clear allocated r.mapSize }
    else some r

/-- The clean-up in `Rubber::Add` before space behind the last object is used,
`Rubber.cxx:729-733`. -/
def tidy : Option Rubber :=
  if r.getBruttoSize / 3 ≥ r.nettoSize then
    -- auto-compress when a lot of allocations have been freed
    r.compress
  else moveLastLoop (r.mapSize + 1) r (size - 1)

/-- The first check for space in `Rubber::Add`, `Rubber.cxx:735-740`: compress,
then try again. -/
def makeRoom : Option Rubber :=
  if r.table.getTailOffset + size > r.mapSize then r.compress else some r

/-- `Rubber::Add`, `Rubber.cxx:729-754`, behind the attempt to use a hole. -/
def addBehind : Option (Nat × Rubber) := do
  let r ← r.tidy size
  let r ← r.makeRoom size
  if r.table.getTailOffset + size > r.mapSize then
    -- no, sorry, there's simply not enough free memory
    some (0, r)
  else
    let (id, table) := r.table.add r.table.getTailOffset size
    if id > 0 then some (id, { r with table, nettoSize := r.nettoSize + size })
    else some (id, { r with table })

/-- `Rubber::Add`, `Rubber.cxx:711-754`; 0 on failure. -/
def add : Option (Nat × Rubber) :=
  if size ≥ r.mapSize then
    -- sanity check to avoid integer overflows
    some (0, r)
  else do
    let size := alignSize size
    if r.nettoSize + size ≤ r.getBruttoSize then
      let (id, r) ← r.addInHole size
      if id ≠ 0 then some (id, r) else r.addBehind size
    else r.addBehind size

/-- `Rubber::GetSizeOf`, `Rubber.cxx:756-762`. -/
def getSizeOf (r : Rubber) (id : Nat) : Nat := r.table.getSizeOf id

/-- `Rubber::Shrink`, `Rubber.cxx:780-805`. -/
def shrink (r : Rubber) (id newSize : Nat) : Option Rubber :=
  let o := r.table.entries id
  let newSize := alignSize newSize
  if newSize = o.size then some r
  else
    let holeOffset := o.offset + newSize
    let holeSize := o.size - newSize
    let (delta, table) := r.table.shrink id newSize
    let r := { r with table, nettoSize := r.nettoSize - delta }
    if o.next ≠ 0 then r.addHoleAfter id holeOffset holeSize else some r

/-- `Rubber::ReplaceWithHole`, `Rubber.cxx:831-841`. -/
def replaceWithHole (o : RubberObject) (previousId nextId : Nat) : Option Rubber :=
  if nextId = 0 then
    -- this is the last allocation: remove the hole before this
    some (r.discardHoleBetween (r.table.entries previousId) o)
  else r.addHoleAfter previousId o.offset o.size

/-- `Rubber::Remove`, `Rubber.cxx:843-860`. -/
def remove (r : Rubber) (id : Nat) : Option Rubber :=
  let o := r.table.entries id
  let (size, table) := r.table.remove id
  let r := { r with table, nettoSize := r.nettoSize - size }
  r.replaceWithHole o o.previous o.next

/-- The cells read through `Rubber::Read`, `Rubber.cxx:772-778`. -/
def read (id : Nat) : List (Cell Hole) :=
  (List.range (r.getSizeOf id)).map fun i => r.mem (r.table.getOffsetOf id + i)

/-- Write bytes through `Rubber::Write`, `Rubber.cxx:764-770`, at a position. -/
def write (r : Rubber) (id position : Nat) (bytes : List UInt8) : Rubber :=
  { r with mem := r.mem.write (r.table.getOffsetOf id + position) bytes }

/-- The constructor `Rubber::Rubber`, `Rubber.cxx:585-597`: a zeroed memory map
that starts at address `begin`, with the table rounded up to a huge page. -/
def new (hugePageSize begin maxSize : Nat) : Rubber :=
  let mapSize := hugePageSize + alignHugePageUp hugePageSize maxSize
  let required := RubberTable.requiredSize (mapSize / 1024)
  { nettoSize := 0
    mapSize
    hugePageSize
    table := RubberTable.new (alignHugePageUp hugePageSize (begin + required) - begin)
    holes := fun _ => []
    mem := fun _ => .byte 0 }

end Rubber
end BengProxy.Memory
