import BengProxy.Base.Text

/-!
# The cache of file descriptors

Models `FdCache`, `src/io/FdCache.{cxx,hxx}`. A request for a path is answered with the descriptor
of an item that was opened before if there is one with the same path and flags, and it opens a new
one otherwise. Files are opened and examined by the kernel, with or without io_uring.

A descriptor is the call that opened it, and a directory descriptor is a number that identifies the
directory. Times are in nanoseconds. An item is in the map if and only if it is in the
chronological list, so that there is one list; the items that have been disabled and are still used
are in another one. The timer and inotify are events that can occur at any time. The log of the
requests that have used an item is not in the source, and nothing reads it.
-/

namespace BengProxy.Io

open Base Text

/-- `struct open_how`: the flags and the `RESOLVE_*` flags. -/
structure OpenHow where
  flags : UInt64
  resolve : UInt64
  deriving DecidableEq, Repr

/-- A call of `openat2()`: the directory (if there is one), the path and how to open it. -/
structure OpenCall where
  directory : Option Nat
  path : Text
  how : OpenHow
  deriving DecidableEq, Repr

/-- The parameters of `FdCache::Get`, `FdCache.cxx:452-460`. -/
structure GetRequest where
  directory : Option Nat
  stripPath : Text
  path : Text
  how : OpenHow
  stxMask : UInt32
  deriving DecidableEq, Repr

/-- `StripLength`, `FdCache.cxx:427-450`. -/
def stripLength (stripPath path : Text) : Nat :=
  if stripPath = [] then 0
  else if stripPath.isPrefixOf path then
    if path.length = stripPath.length then path.length
    else if path[stripPath.length]? = some 0x2f then stripPath.length + 1
    else if stripPath.getLast? = some 0x2f then stripPath.length
    else 0
  else 0

namespace GetRequest

/-- `FdCache::Key`, `FdCache.hxx:33-44`. -/
def key (g : GetRequest) : Text × UInt64 := (g.path, g.how.flags)

/-- What is opened for a request, `FdCache.cxx:311-313`. -/
def openCall (g : GetRequest) : OpenCall where
  directory := g.directory
  path := match g.path.drop (stripLength g.stripPath g.path) with
    | [] => ascii "."
    | c :: path => c :: path
  how := g.how

/-- What the assertions demand of a path, `FdCache.cxx:462-464`. -/
def WellFormed (g : GetRequest) : Prop :=
  g.path.head? = some 0x2f ∧ g.path.getLast? ≠ some 0x2f
  deriving Decidable

end GetRequest

/-- `FdCache::Item::Request`, `FdCache.cxx:73-88`. -/
structure PendingRequest where
  id : Nat
  get : GetRequest

/-- `FdCache::Item`, `FdCache.cxx:57-118`. The leases are those of `SharedAnchor`. -/
structure Item where
  id : Nat
  path : Text
  flags : UInt64
  expires : Nat
  requests : List PendingRequest := []
  uringOpen : Option OpenCall := none
  uringStatx : Bool := false
  stxMask : UInt32 := 0
  nextStxMask : UInt32 := 0
  fd : Option OpenCall := none
  error : Nat := 0
  leases : Nat := 0

/-- A call of `on_success` or `on_error` of a request. -/
inductive Callback where
  | success (g : GetRequest) (fd : OpenCall)
  | error (g : GetRequest) (error : Nat)
  deriving DecidableEq, Repr

/-- What an operation does with an item: the callbacks that are invoked, whether the item shall
expire soon, and whether a lease has been released in the end. -/
structure Outcome where
  item : Item
  callbacks : List Callback := []
  expiresSoon : Bool := false
  released : Bool := false

/-- The error code of a file that does not exist. -/
def enoent : Nat := 2

/-- One second of the clock. -/
def second : Nat := 1000000000

namespace Item

variable (i : Item)

/-- `FdCache::ItemGetKey`, `FdCache.cxx:381-385`. -/
def key : Text × UInt64 := (i.path, i.flags)

/-- `Disable`, `FdCache.cxx:133-136`. -/
def disable : Item := { i with expires := 0 }

/-- `IsUnused`, `FdCache.cxx:142-144`. -/
def isUnused : Bool := i.leases == 0 && i.requests.isEmpty

/-- `InvokeSuccess`, `FdCache.cxx:163-176`. Every callback gets a lease. -/
def invokeSuccess (fd : OpenCall) : Outcome where
  item := { i with requests := [], leases := i.leases + i.requests.length }
  callbacks := i.requests.map fun r => .success r.get fd
  released := true

/-- `SetError` with `InvokeError`, `FdCache.cxx:183-232`. -/
def setError (error : Nat) : Outcome where
  item := { i with fd := none, error, requests := [] }
  callbacks := i.requests.map fun r => .error r.get error
  expiresSoon := error == enoent
  released := true

/-- The end of `statx()`, `FdCache.cxx:272-277, 351-354`: the mask that was filled in, or an
error. -/
def statxDone (fd : OpenCall) : Except Nat UInt32 → Outcome
  | .ok stxMask => { i with stxMask }.invokeSuccess fd
  | .error error => i.setError error

variable (uring : Bool)

/-- `StartStatx`, `FdCache.cxx:335-358`. The last parameter is the result of `statx()` if it
is called at once. -/
def startStatx (i : Item) (fd : OpenCall) (result : Except Nat UInt32) : Outcome :=
  if i.uringStatx then { item := i }
  else if uring then { item := { i with uringStatx := true } }
  else i.statxDone fd result

/-- The end of opening a file with io_uring, `FdCache.cxx:239-269`. -/
def openDone (i : Item) (call : OpenCall) (result : Except Nat Unit)
    (statxResult : Except Nat UInt32) : Outcome :=
  match result with
  | .error error => { i with uringOpen := none }.setError error
  | .ok _ =>
    if i.nextStxMask ≠ 0 then
      { i with uringOpen := none, fd := some call }.startStatx uring call statxResult
    else { i with uringOpen := none, fd := some call }.invokeSuccess call

/-- `Item::Start`, `FdCache.cxx:298-333`. The result is that of `openat2()` if it is called
at once. -/
def start (i : Item) (g : GetRequest) (result : Except Nat Unit) : Outcome :=
  if uring then
    { item := { i with nextStxMask := i.nextStxMask ||| g.stxMask, uringOpen := some g.openCall } }
  else
    match result with
    | .ok _ =>
      { i with nextStxMask := i.nextStxMask ||| g.stxMask, fd := some g.openCall }.invokeSuccess
        g.openCall
    | .error error => { i with nextStxMask := i.nextStxMask ||| g.stxMask }.setError error

/-- A request that waits for the result, `FdCache.cxx:371-374`. -/
def addRequest (r : PendingRequest) : Item :=
  { i with requests := i.requests ++ [r], nextStxMask := i.nextStxMask ||| r.get.stxMask }

/-- `Item::Get`, `FdCache.cxx:360-379`. -/
def get (i : Item) (g : GetRequest) (id : Nat) (result : Except Nat UInt32) : Outcome :=
  match i.fd with
  | some fd =>
    if g.stxMask &&& ~~~i.stxMask = 0 then
      { item := { i with leases := i.leases + 1 }, callbacks := [.success g fd] }
    else if i.error ≠ 0 then { item := i, callbacks := [.error g i.error] }
    else (i.addRequest ⟨id, g⟩).startStatx uring fd result
  | none =>
    if i.error ≠ 0 then { item := i, callbacks := [.error g i.error] }
    else { item := i.addRequest ⟨id, g⟩ }

end Item

/-- `FdCache`, `FdCache.hxx:32-72`. -/
structure FdCache where
  uring : Bool
  now : Nat := 0
  shuttingDown : Bool := false
  chronological : List Item := []
  detached : List Item := []
  nextId : Nat := 0
  log : List (GetRequest × Nat) := []

namespace FdCache

variable (c : FdCache)

/-- All items. -/
def items : List Item := c.chronological ++ c.detached

/-- Write an item back. -/
def update (i : Item) : FdCache :=
  { c with
    chronological := c.chronological.map fun j => if j.id = i.id then i else j
    detached := c.detached.map fun j => if j.id = i.id then i else j }

/-- `SetExpiresSoon`, `FdCache.cxx:527-553`. -/
def setExpiresSoon (i : Item) : FdCache :=
  match c.chronological with
  | [] => c
  | front :: _ =>
    let newExpires := min (c.now + second) front.expires
    if i.expires ≤ newExpires then c
    else
      { c with
        chronological := { i with expires := newExpires } :: c.chronological.filter (·.id ≠ i.id) }

/-- The last lease of a disabled item has been released: `OnAbandoned`,
`FdCache.cxx:281-285`. -/
def reap (id : Nat) : FdCache :=
  { c with detached := c.detached.filter fun i => i.id ≠ id ∨ i.leases ≠ 0 }

/-- What an operation on an item does with the cache. -/
def settle (o : Outcome) : FdCache :=
  let c := c.update o.item
  let c := if o.expiresSoon then c.setExpiresSoon o.item else c
  if o.released then c.reap o.item.id else c

/-- Disable items that have been removed from the map, and delete those that are not used,
`FdCache.cxx:411-415, 484-488, 565-570, 583-589`. -/
def retire (removed : List Item) : FdCache :=
  { c with detached := c.detached ++ (removed.filter fun i => !i.isUnused).map Item.disable }

/-- Remove one item from the map and retire it. -/
def retireOne (i : Item) : FdCache :=
  { c with chronological := c.chronological.filter (·.id ≠ i.id) }.retire [i]

/-- A new item, `FdCache.cxx:496-504`; it is disabled if the cache is shutting down. -/
def newItem (g : GetRequest) : Item where
  id := c.nextId
  path := g.path
  flags := g.how.flags
  expires :=
    if c.shuttingDown then 0
    else c.now + if g.stxMask ≠ 0 then 10 * second else 60 * second

/-- Insert an item for a request, `FdCache.cxx:506-515`. -/
def insertNew (g : GetRequest) : FdCache :=
  { c with
    nextId := c.nextId + 1
    log := c.log ++ [(g, c.nextId)]
    chronological := c.chronological ++ if c.shuttingDown then [] else [c.newItem g]
    detached := c.detached ++ if c.shuttingDown then [c.newItem g] else [] }

/-- A new item is started and asked, `FdCache.cxx:517-522`, with a lease that is released in
the end. -/
def startNew (i : Item) (g : GetRequest) (request : Nat)
    (openResult : Except Nat Unit) (statxResult : Except Nat UInt32) : Outcome :=
  let started := i.start c.uring g openResult
  let o := started.item.get c.uring g request statxResult
  { item := o.item
    callbacks := started.callbacks ++ o.callbacks
    expiresSoon := started.expiresSoon || o.expiresSoon
    released := true }

/-- A request creates an item. -/
def getNew (g : GetRequest) (request : Nat) (openResult : Except Nat Unit)
    (statxResult : Except Nat UInt32) : FdCache × List Callback :=
  let o := c.startNew (c.newItem g) g request openResult statxResult
  ((c.insertNew g).settle o, o.callbacks)

/-- An item of the map is asked, `FdCache.cxx:476-481`. -/
def getHit (i : Item) (g : GetRequest) (request : Nat)
    (statxResult : Except Nat UInt32) : FdCache × List Callback :=
  let o := i.get c.uring g request statxResult
  ({ c with log := c.log ++ [(g, i.id)] }.settle o, o.callbacks)

/-- `FdCache::Get`, `FdCache.cxx:452-525`. -/
def get (g : GetRequest) (request : Nat) (openResult : Except Nat Unit)
    (statxResult : Except Nat UInt32) : FdCache × List Callback :=
  match c.chronological.find? (·.key = g.key) with
  | some i =>
    if c.now < i.expires then c.getHit i g request statxResult
    else (c.retireOne i).getNew g request openResult statxResult
  | none => c.getNew g request openResult statxResult

/-- `FdCache::Flush`, `FdCache.cxx:406-416`. -/
def flush : FdCache := { c with chronological := [] }.retire c.chronological

/-- `FdCache::BeginShutdown`, `FdCache.cxx:418-425`. -/
def beginShutdown : FdCache := { c.flush with shuttingDown := true }

/-- `FdCache::Expire`, `FdCache.cxx:555-575`. -/
def expire : FdCache :=
  { c with chronological := c.chronological.dropWhile fun i => i.expires ≤ c.now }.retire
    (c.chronological.takeWhile fun i => i.expires ≤ c.now)

/-- The events: requests, with the results of system calls that are made at once; completions of
io_uring; what happens to requests and leases; the timer, inotify and the passage of time. -/
inductive Event where
  | get (g : GetRequest) (request : Nat) (openResult : Except Nat Unit)
    (statxResult : Except Nat UInt32)
  | openDone (id : Nat) (result : Except Nat Unit)
  | statxDone (id : Nat) (result : Except Nat UInt32)
  | cancel (request : Nat)
  | release (id : Nat)
  | broken (id : Nat)
  | inotify (id : Nat)
  | expire
  | flush
  | beginShutdown
  | wait (duration : Nat)

/-- `Request::Cancel`, `FdCache.cxx:85-87`. -/
def cancel (request : Nat) : FdCache :=
  let without (i : Item) : Item := { i with requests := i.requests.filter (·.id ≠ request) }
  { c with
    chronological := c.chronological.map without
    detached := c.detached.map without }

/-- An event; missing if it cannot occur. -/
def step : Event → Option (FdCache × List Callback)
  | .get g request openResult statxResult =>
    if g.WellFormed then some (c.get g request openResult statxResult) else none
  | .openDone id result =>
    match c.items.find? (·.id = id) with
    | none => none
    | some i =>
      match i.uringOpen with
      | none => none
      | some call =>
        let o := i.openDone c.uring call result (.error 0)
        some (c.settle o, o.callbacks)
  | .statxDone id result =>
    match c.items.find? (·.id = id) with
    | none => none
    | some i =>
      match i.uringStatx, i.fd with
      | true, some fd =>
        let o := { i with uringStatx := false }.statxDone fd result
        some (c.settle o, o.callbacks)
      | _, _ => none
  | .cancel request => some (c.cancel request, [])
  | .release id =>
    match c.items.find? (·.id = id) with
    | none => none
    | some i =>
      if i.leases = 0 then none
      else some (c.settle { item := { i with leases := i.leases - 1 }, released := true }, [])
  | .broken id =>
    match c.chronological.find? (·.id = id) with
    | none => some (c, [])
    | some i => if i.leases = 0 then none else some (c.retireOne i, [])
  | .inotify id =>
    match c.chronological.find? (·.id = id) with
    | none => none
    | some i => some (c.retireOne i, [])
  | .expire => some (c.expire, [])
  | .flush => some (c.flush, [])
  | .beginShutdown => some (c.beginShutdown, [])
  | .wait duration => some ({ c with now := c.now + duration }, [])

/-- One event and the callbacks that are invoked. -/
def Step (l : Event × List Callback) (c' : FdCache) : Prop :=
  c.step l.1 = some (c', l.2)

/-- Two requests have used one item. -/
def Shares (g g' : GetRequest) : Prop := ∃ id, (g, id) ∈ c.log ∧ (g', id) ∈ c.log

end FdCache

end BengProxy.Io
