import BengProxy.Base.Ring

/-!
# The allocation table of the rubber allocator

Models `RubberObject` and `RubberTable`, `src/memory/Rubber.cxx:15-418`. Entry 0 is the
table itself and the root of the doubly linked list of allocated objects; the entries of
removed objects form a second, singly linked list through the same `next` field.
-/

namespace BengProxy.Memory

open Base Function

/-- One table entry; `Rubber.cxx:15-57`. -/
structure RubberObject where
  next : Nat
  previous : Nat
  offset : Nat
  size : Nat
  deriving DecidableEq, Repr

/-- `RubberObject::GetEndOffset`, `Rubber.cxx:54-56`. -/
def RubberObject.getEndOffset (o : RubberObject) : Nat := o.offset + o.size

/-- `RubberTable`, `Rubber.cxx:59-195`; only indices below `maxEntries` are used. -/
structure RubberTable where
  maxEntries : Nat
  initializedTail : Nat
  freeHead : Nat
  entries : Nat → RubberObject

namespace RubberTable

/-- `sizeof(RubberObject)` in a release build: two ids, an offset and a size. -/
def sizeofObject : Nat := 24

/-- `sizeof(RubberTable)` in a release build, with its first entry. -/
def sizeofTable : Nat := 40

/-- `RubberTable::RequiredSize`, `Rubber.cxx:106-111`. -/
def requiredSize (n : Nat) : Nat := sizeofTable + sizeofObject * (n - 1)

/-- `RubberTable::Capacity`, `Rubber.cxx:118-123`. -/
def capacity (size : Nat) : Nat := (size - sizeofTable) / sizeofObject + 1

/-- The constructor `RubberTable::RubberTable`, `Rubber.cxx:217-237`, with the
table size that results from rounding up to a huge page. -/
def new (tableSize : Nat) : RubberTable where
  maxEntries := capacity tableSize
  initializedTail := 1
  freeHead := 0
  entries := fun _ => { next := 0, previous := 0, offset := 0, size := tableSize }

section

variable (t : RubberTable)

/-- Assign `next` of one entry. -/
def setNext (id v : Nat) : RubberTable :=
  { t with entries := update t.entries id { t.entries id with next := v } }

/-- Assign `previous` of one entry. -/
def setPrevious (id v : Nat) : RubberTable :=
  { t with entries := update t.entries id { t.entries id with previous := v } }

/-- Assign `offset` of one entry. -/
def setOffset (id v : Nat) : RubberTable :=
  { t with entries := update t.entries id { t.entries id with offset := v } }

/-- Assign `size` of one entry. -/
def setSize (id v : Nat) : RubberTable :=
  { t with entries := update t.entries id { t.entries id with size := v } }

/-- The `next` fields of all entries. -/
def nextOf (id : Nat) : Nat := (t.entries id).next

/-- The `previous` fields of all entries. -/
def previousOf (id : Nat) : Nat := (t.entries id).previous

/-- The `offset` fields of all entries. -/
def offsetOf (id : Nat) : Nat := (t.entries id).offset

/-- The `size` fields of all entries. -/
def sizeOf (id : Nat) : Nat := (t.entries id).size

/-- `RubberTable::GetSize`, `Rubber.cxx:130-134`. -/
def getSize : Nat := t.sizeOf 0

/-- `RubberTable::GetTail`, `Rubber.cxx:151-159`. -/
def getTail : RubberObject := t.entries (t.previousOf 0)

/-- `RubberTable::GetBruttoSize`, `Rubber.cxx:136-139`. -/
def getBruttoSize : Nat := t.getTail.getEndOffset - t.getSize

/-- `RubberTable::GetTailOffset`, `Rubber.cxx:161-167`. -/
def getTailOffset : Nat := t.getTail.getEndOffset

/-- `RubberTable::AddId`, `Rubber.cxx:253-273`; 0 if the table is full. -/
def addId : Nat × RubberTable :=
  if t.freeHead = 0 then
    if t.maxEntries ≤ t.initializedTail then (0, t)
    else (t.initializedTail, { t with initializedTail := t.initializedTail + 1 })
  else (t.freeHead, { t with freeHead := t.nextOf t.freeHead })

/-- `RubberObject::Init` of one entry, `Rubber.cxx:40-46`. -/
def init (id offset size : Nat) : RubberTable :=
  (t.setOffset id offset).setSize id size

/-- `RubberTable::Link`, `Rubber.cxx:275-300`. -/
def link (id previousId nextId : Nat) : RubberTable :=
  (((t.setNext id nextId).setPrevious id previousId).setNext previousId id).setPrevious nextId id

/-- `RubberTable::Add`, `Rubber.cxx:302-319`. -/
def add (offset size : Nat) : Nat × RubberTable :=
  let (id, t) := t.addId
  if id = 0 then (0, t)
  else
    let t := t.init id offset size
    (id, t.link id (t.previousOf 0) 0)

/-- `RubberTable::GetSizeOf`, `Rubber.cxx:321-331`. -/
def getSizeOf (id : Nat) : Nat := t.sizeOf id

/-- `RubberTable::GetOffsetOf`, `Rubber.cxx:402-418`. -/
def getOffsetOf (id : Nat) : Nat := t.offsetOf id

/-- `RubberTable::Shrink`, `Rubber.cxx:336-350`; also the amount freed. -/
def shrink (id newSize : Nat) : Nat × RubberTable :=
  (t.sizeOf id - newSize, t.setSize id newSize)

/-- `RubberTable::Unlink`, `Rubber.cxx:352-373`. -/
def unlink (id : Nat) : RubberTable :=
  let t' := t.setPrevious (t.nextOf id) (t.previousOf id)
  t'.setNext (t'.previousOf id) (t'.nextOf id)

/-- `RubberTable::Remove`, `Rubber.cxx:378-400`; also the size of the object. -/
def remove (id : Nat) : Nat × RubberTable :=
  let t := t.unlink id
  let t := { t.setNext id t.freeHead with freeHead := id }
  (t.sizeOf id, t)

end

section Fields

variable (t : RubberTable) (id v : Nat)

@[simp] theorem nextOf_setNext : (t.setNext id v).nextOf = update t.nextOf id v := by
  funext i; by_cases h : i = id <;> simp [nextOf, setNext, h]

@[simp] theorem previousOf_setNext : (t.setNext id v).previousOf = t.previousOf := by
  funext i; by_cases h : i = id <;> simp [previousOf, setNext, h]

@[simp] theorem offsetOf_setNext : (t.setNext id v).offsetOf = t.offsetOf := by
  funext i; by_cases h : i = id <;> simp [offsetOf, setNext, h]

@[simp] theorem sizeOf_setNext : (t.setNext id v).sizeOf = t.sizeOf := by
  funext i; by_cases h : i = id <;> simp [sizeOf, setNext, h]

@[simp] theorem nextOf_setPrevious : (t.setPrevious id v).nextOf = t.nextOf := by
  funext i; by_cases h : i = id <;> simp [nextOf, setPrevious, h]

@[simp] theorem previousOf_setPrevious :
    (t.setPrevious id v).previousOf = update t.previousOf id v := by
  funext i; by_cases h : i = id <;> simp [previousOf, setPrevious, h]

@[simp] theorem offsetOf_setPrevious : (t.setPrevious id v).offsetOf = t.offsetOf := by
  funext i; by_cases h : i = id <;> simp [offsetOf, setPrevious, h]

@[simp] theorem sizeOf_setPrevious : (t.setPrevious id v).sizeOf = t.sizeOf := by
  funext i; by_cases h : i = id <;> simp [sizeOf, setPrevious, h]

@[simp] theorem nextOf_setOffset : (t.setOffset id v).nextOf = t.nextOf := by
  funext i; by_cases h : i = id <;> simp [nextOf, setOffset, h]

@[simp] theorem previousOf_setOffset : (t.setOffset id v).previousOf = t.previousOf := by
  funext i; by_cases h : i = id <;> simp [previousOf, setOffset, h]

@[simp] theorem offsetOf_setOffset :
    (t.setOffset id v).offsetOf = update t.offsetOf id v := by
  funext i; by_cases h : i = id <;> simp [offsetOf, setOffset, h]

@[simp] theorem sizeOf_setOffset : (t.setOffset id v).sizeOf = t.sizeOf := by
  funext i; by_cases h : i = id <;> simp [sizeOf, setOffset, h]

@[simp] theorem nextOf_setSize : (t.setSize id v).nextOf = t.nextOf := by
  funext i; by_cases h : i = id <;> simp [nextOf, setSize, h]

@[simp] theorem previousOf_setSize : (t.setSize id v).previousOf = t.previousOf := by
  funext i; by_cases h : i = id <;> simp [previousOf, setSize, h]

@[simp] theorem offsetOf_setSize : (t.setSize id v).offsetOf = t.offsetOf := by
  funext i; by_cases h : i = id <;> simp [offsetOf, setSize, h]

@[simp] theorem sizeOf_setSize : (t.setSize id v).sizeOf = update t.sizeOf id v := by
  funext i; by_cases h : i = id <;> simp [sizeOf, setSize, h]

end Fields

section Link

variable (t : RubberTable) (id p n : Nat)

@[simp] theorem nextOf_link :
    (t.link id p n).nextOf = update (update t.nextOf id n) p id := by
  simp [link]

@[simp] theorem previousOf_link :
    (t.link id p n).previousOf = update (update t.previousOf id p) n id := by
  simp [link]

@[simp] theorem offsetOf_link : (t.link id p n).offsetOf = t.offsetOf := by simp [link]

@[simp] theorem sizeOf_link : (t.link id p n).sizeOf = t.sizeOf := by simp [link]

@[simp] theorem maxEntries_link : (t.link id p n).maxEntries = t.maxEntries := rfl

@[simp] theorem initializedTail_link : (t.link id p n).initializedTail = t.initializedTail := rfl

@[simp] theorem freeHead_link : (t.link id p n).freeHead = t.freeHead := rfl

-- The first assignment may hit `previous` of `id` itself, but then with its own value.

private theorem previousOf_self (t : RubberTable) (id : Nat) :
    (t.setPrevious (t.nextOf id) (t.previousOf id)).previousOf id = t.previousOf id := by
  by_cases h : id = t.nextOf id
  · rw [previousOf_setPrevious, ← h, update_self]
  · rw [previousOf_setPrevious, update_of_ne h]

@[simp] theorem nextOf_unlink :
    (t.unlink id).nextOf = update t.nextOf (t.previousOf id) (t.nextOf id) := by
  simp only [unlink, nextOf_setNext, previousOf_self, nextOf_setPrevious]

@[simp] theorem previousOf_unlink :
    (t.unlink id).previousOf = update t.previousOf (t.nextOf id) (t.previousOf id) := by
  simp only [unlink, previousOf_setNext, previousOf_setPrevious]

@[simp] theorem offsetOf_unlink : (t.unlink id).offsetOf = t.offsetOf := by simp [unlink]

@[simp] theorem sizeOf_unlink : (t.unlink id).sizeOf = t.sizeOf := by simp [unlink]

@[simp] theorem maxEntries_unlink : (t.unlink id).maxEntries = t.maxEntries := rfl

@[simp] theorem initializedTail_unlink : (t.unlink id).initializedTail = t.initializedTail := rfl

@[simp] theorem freeHead_unlink : (t.unlink id).freeHead = t.freeHead := rfl

end Link

end RubberTable
end BengProxy.Memory
