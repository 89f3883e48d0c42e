import Mathlib.Data.List.Basic

/-!
# The item cache

Models `Cache` and `CacheItem`, `src/cache/Cache.{cxx,hxx}` and `src/cache/Item.{cxx,hxx}`: items of
some size in a hash set, and in a list that is sorted by the last access. An item that is removed
while somebody holds a lease on it is destroyed when the last lease is returned.

A pointer to an item is a number; numbers are not reused. The hash set is the list of its items, as
a lookup visits them. The virtual method `Validate()` is an argument of the functions that call it.
Two things are recorded that the source does not have: the destroyed items, and the time of the
last access or insertion.
-/

namespace BengProxy

open Function

/-- `CacheItem`, `Item.hxx:19-36`; the subclass has the `data`. -/
structure CacheItem (κ α : Type) where
  key : κ
  size : Nat
  expires : Nat
  data : α
  deriving DecidableEq, Repr, Inhabited

/-- `Cache`, `Cache.hxx:21-44`, and the items it has ever been given. -/
structure Cache (κ α : Type) where
  maxSize : Nat
  size : Nat := 0
  items : List Nat := []
  sortedItems : List Nat := []
  store : Nat → CacheItem κ α
  count : Nat := 0
  leases : Nat → Nat := fun _ => 0
  destroyed : List Nat := []
  clock : Nat := 0
  touched : Nat → Nat := fun _ => 0

/-- `CacheItem::Validate`, `Item.hxx:83-90`. -/
def CacheItem.validate {κ α : Type} (now : Nat) (valid : CacheItem κ α → Bool)
    (item : CacheItem κ α) : Bool :=
  decide (now < item.expires) && valid item

namespace Cache

variable {κ α : Type}

/-- A new cache, `Cache.cxx:12-18`. -/
def new [Inhabited (CacheItem κ α)] (maxSize : Nat) : Cache κ α :=
  { maxSize, store := fun _ => default }

section

variable (s : Cache κ α) (id : Nat)

/-- `CacheItem::IsRemoved`, `Item.hxx:58-60`. -/
def isRemoved : Bool := !s.sortedItems.contains id

/-- `CacheItem::Destroy`. -/
def destroy : Cache κ α := { s with destroyed := s.destroyed ++ [id] }

/-- `CacheItem::Release`, `Item.hxx:62-65`. -/
def release : Cache κ α :=
  if s.leases id = 0 then s.destroy id else s

/-- `Cache::ItemRemoved`, `Cache.cxx:50-69`. -/
def itemRemoved : Cache κ α :=
  release
    { s with sortedItems := s.sortedItems.erase id, size := s.size - (s.store id).size } id

/-- `Cache::RemoveItem`, `Cache.cxx:85-92`. -/
def removeItem : Cache κ α :=
  itemRemoved { s with items := s.items.erase id } id

/-- `Cache::RefreshItem`, `Cache.cxx:77-83`. -/
def refreshItem : Cache κ α :=
  { s with
    sortedItems := s.sortedItems.erase id ++ [id]
    touched := update s.touched id s.clock
    clock := s.clock + 1 }

/-- Remove the items of a container that satisfy a predicate: the common loop of `Flush()`,
`Remove()`, `RemoveKeyIf()`, `RemoveAllMatch()` and `ExpireCallback()`. -/
def removeIf (p : CacheItem κ α → Bool) : List Nat → Cache κ α → Cache κ α
  | [], s => s
  | id :: ids, s => removeIf p ids (if p (s.store id) then s.removeItem id else s)

/-- `Cache::Flush`, `Cache.cxx:71-75`. -/
def flush : Cache κ α := removeIf (fun _ => true) s.items s

/-- `Cache::RemoveAllMatch`, `Cache.cxx:244-263`. -/
def removeAllMatch (p : CacheItem κ α → Bool) : Cache κ α :=
  removeIf p s.sortedItems s

/-- `Cache::ExpireCallback`, `Cache.cxx:265-282`. -/
def expireCallback (now : Nat) : Cache κ α :=
  removeIf (fun item => decide (item.expires ≤ now)) s.sortedItems s

/-- `Cache::Remove` of an item, `Cache.cxx:232-242`. -/
def remove : Cache κ α :=
  if s.isRemoved id then s else s.removeItem id

/-- `Cache::DestroyOldestItem`, `Cache.cxx:137-145`. -/
def destroyOldestItem : Cache κ α :=
  match s.sortedItems with
  | [] => s
  | id :: _ => s.removeItem id

/-- The loop of `Cache::NeedRoom`, `Cache.cxx:153-158`. -/
def needRoomLoop (size : Nat) : Nat → Cache κ α → Option (Cache κ α)
  | 0, _ => none
  | fuel + 1, s =>
    if s.size + size ≤ s.maxSize then some s else needRoomLoop size fuel s.destroyOldestItem

/-- `Cache::NeedRoom`, `Cache.cxx:147-159`; missing if it does not return. -/
def needRoom (size : Nat) : Option (Cache κ α × Bool) :=
  if s.maxSize < size then some (s, false)
  else (needRoomLoop size (s.sortedItems.length + 1) s).map (·, true)

variable (item : CacheItem κ α)

/-- A new item is destroyed without having been added, `Cache.cxx:165-168`. -/
def reject : Cache κ α :=
  { s with
    store := update s.store s.count item
    count := s.count + 1
    destroyed := s.destroyed ++ [s.count] }

/-- A new item is added to both containers, `Cache.cxx:170-173`. -/
def insert : Cache κ α :=
  { s with
    store := update s.store s.count item
    count := s.count + 1
    items := s.count :: s.items
    sortedItems := s.sortedItems ++ [s.count]
    size := s.size + item.size
    touched := update s.touched s.count s.clock
    clock := s.clock + 1 }

/-- `Cache::Add`, `Cache.cxx:161-180`. -/
def add : Option (Cache κ α × Bool) := do
  let (s, room) ← s.needRoom item.size
  if room then return (s.insert item, true) else return (s.reject item, false)

end

section Key

variable [DecidableEq κ]

/-- `Cache::Get`, `Cache.cxx:94-112`. -/
def get (s : Cache κ α) (now : Nat) (valid : CacheItem κ α → Bool) (key : κ) :
    Cache κ α × Option Nat :=
  match s.items.find? fun id => (s.store id).key = key with
  | none => (s, none)
  | some id =>
    if (s.store id).validate now valid then (s.refreshItem id, some id)
    else (s.removeItem id, none)

/-- The loop of `Cache::GetMatch`, `Cache.cxx:121-134`. -/
def getMatchLoop (now : Nat) (valid : CacheItem κ α → Bool) (key : κ)
    (p : CacheItem κ α → Bool) : List Nat → Cache κ α → Cache κ α × Option Nat
  | [], s => (s, none)
  | id :: ids, s =>
    if (s.store id).key ≠ key then getMatchLoop now valid key p ids s
    else if !(s.store id).validate now valid then
      getMatchLoop now valid key p ids (s.removeItem id)
    else if p (s.store id) then (s.refreshItem id, some id)
    else getMatchLoop now valid key p ids s

variable (s : Cache κ α)

/-- `Cache::GetMatch`, `Cache.cxx:114-135`. -/
def getMatch (now : Nat) (valid : CacheItem κ α → Bool) (key : κ)
    (p : CacheItem κ α → Bool) : Cache κ α × Option Nat :=
  getMatchLoop now valid key p s.items s

/-- `Cache::Put`, `Cache.cxx:182-209`. -/
def put (item : CacheItem κ α) : Option (Cache κ α × Bool) := do
  let (s, room) ← s.needRoom item.size
  if !room then return (s.reject item, false)
  match s.items.find? fun id => (s.store id).key = item.key with
  | none => return (s.insert item, true)
  | some id => return ((s.removeItem id).insert item, true)

/-- `Cache::PutMatch`, `Cache.cxx:211-224`. -/
def putMatch (now : Nat) (valid : CacheItem κ α → Bool)
    (item : CacheItem κ α) (p : CacheItem κ α → Bool) : Option (Cache κ α × Bool) :=
  match s.getMatch now valid item.key p with
  | (s, none) => s.add item
  | (s, some id) => (s.removeItem id).add item

/-- `Cache::RemoveKeyIf`, `Cache.hxx:107-110`. -/
def removeKeyIf (key : κ) (p : CacheItem κ α → Bool) : Cache κ α :=
  removeIf (fun item => decide (item.key = key) && p item) s.items s

/-- `Cache::Remove` of a key, `Cache.cxx:226-230`. -/
def removeKey (key : κ) : Cache κ α := s.removeKeyIf key fun _ => true

end Key

/-- Somebody takes a lease on an item. -/
def lock (s : Cache κ α) (id : Nat) : Cache κ α :=
  { s with leases := update s.leases id (s.leases id + 1) }

/-- A lease is returned. After the last one, `CacheItem::OnAbandoned`, `Item.cxx:32-38`,
destroys an item that has been removed. -/
def unlock (s : Cache κ α) (id : Nat) : Cache κ α :=
  let s := { s with leases := update s.leases id (s.leases id - 1) }
  if s.leases id = 0 ∧ s.isRemoved id = true then s.destroy id else s

/-- `CacheItem::SetExpires`, `Item.hxx:71-73`. -/
def setExpires (s : Cache κ α) (id time : Nat) : Cache κ α :=
  { s with store := update s.store id { s.store id with expires := time } }

end Cache

/-- The calls. Each that can see items gets the time and the `Validate()` method of that moment. -/
inductive CacheEvent (κ α : Type) where
  | get (now : Nat) (valid : CacheItem κ α → Bool) (key : κ)
  | getMatch (now : Nat) (valid : CacheItem κ α → Bool) (key : κ) (p : CacheItem κ α → Bool)
  | add (item : CacheItem κ α)
  | put (item : CacheItem κ α)
  | putMatch (now : Nat) (valid : CacheItem κ α → Bool) (item : CacheItem κ α)
      (p : CacheItem κ α → Bool)
  | remove (id : Nat)
  | removeKey (key : κ)
  | removeKeyIf (key : κ) (p : CacheItem κ α → Bool)
  | removeAllMatch (p : CacheItem κ α → Bool)
  | flush
  | expire (now : Nat)
  | lock (id : Nat)
  | unlock (id : Nat)
  | setExpires (id time : Nat)

namespace Cache

variable {κ α : Type} [DecidableEq κ] (s : Cache κ α)

/-- The effect of a call; missing if it does not return. -/
def call : CacheEvent κ α → Option (Cache κ α)
  | .get now valid key => some (s.get now valid key).1
  | .getMatch now valid key p => some (s.getMatch now valid key p).1
  | .add item => (s.add item).map (·.1)
  | .put item => (s.put item).map (·.1)
  | .putMatch now valid item p => (s.putMatch now valid item p).map (·.1)
  | .remove id => some (s.remove id)
  | .removeKey key => some (s.removeKey key)
  | .removeKeyIf key p => some (s.removeKeyIf key p)
  | .removeAllMatch p => some (s.removeAllMatch p)
  | .flush => some s.flush
  | .expire now => some (s.expireCallback now)
  | .lock id => some (s.lock id)
  | .unlock id => some (s.unlock id)
  | .setExpires id time => some (s.setExpires id time)

/-- The item exists: the cache has got it, and it has not been destroyed. -/
def Alive (id : Nat) : Prop := id < s.count ∧ id ∉ s.destroyed

/-- Pointers that are passed to the cache are valid, and only leases that were taken are
returned. -/
def Legal : CacheEvent κ α → Prop
  | .remove id | .lock id | .setExpires id _ => s.Alive id
  | .unlock id => 0 < s.leases id
  | _ => True

/-- One call. -/
def Step (e : CacheEvent κ α) (s' : Cache κ α) : Prop :=
  s.Legal e ∧ s.call e = some s'

end Cache
end BengProxy
