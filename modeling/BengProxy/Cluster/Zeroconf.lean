import BengProxy.Base.HashRing
import BengProxy.Base.Run
import BengProxy.Base.Text
import BengProxy.Cluster.Pick

/-!
# Zeroconf clusters

Models the Zeroconf members of `LbCluster`, `src/lb/Cluster.{hxx,cxx}`: members come and go, and a
request is sent to one of them, depending on its sticky hash. The vector of active members is filled
lazily, and some ways to pick one reorder it.

An iterator into the map of members is given by its key. The hash functions, the hash ring, the
sticky cache and `std::sort()` are library functions. Left out are the monitors and the log names.
The field `rendezvous_hash` is not part of the state, because it is calculated before each use.
-/

namespace BengProxy.Cluster

open Base Text HashRing

/-- The library: the part of an address that is hashed and the FNV1a hash of some bytes, from a
value on, `std::sort()` by a number, the hash ring for some nodes with their addresses, and the
sticky cache. -/
structure ClusterLib (A C : Type) where
  getSteadyPart : A → Text
  init : UInt32
  binaryHash : Text → UInt32 → UInt32
  sort : (Text → UInt32) → List Text → List Text
  sort_perm : ∀ f l, (sort f l).Perm l
  sort_sorted : ∀ f l, (sort f l).Pairwise fun a b => f a ≤ f b
  buildRing : List (Text × A) → HashRing Text
  cacheGet : C → UInt32 → Option Text × C
  cachePut : C → UInt32 → Text → C
  cacheRemove : C → UInt32 → C

/-- `LbCluster::ZeroconfMember`, `Cluster.hxx:98-157`. The failure state is the one that the
`FailureManager` has for the first address of the member. -/
structure ZeroconfMember (A : Type) where
  address : A
  failure : A
  deriving DecidableEq, Repr

/-- `LbClusterConfig::StickyMethod`, `src/lb/ClusterConfig.hxx`. -/
inductive StickyMethod where
  | consistentHashing
  | rendezvousHashing
  | cache
  deriving DecidableEq, Repr

/-- `LbCluster`, `Cluster.hxx:44-185`, with the `FailureManager`. The map of members is
the list of its items. -/
structure LbCluster (A E C : Type) where
  stickyMethod : StickyMethod
  zeroconfMembers : List (Text × ZeroconfMember A) := []
  activeZeroconfMembers : List Text := []
  next : Nat := 0
  stickyRing : Option (HashRing Text) := none
  stickyCache : C
  dirty : Bool := false
  failures : A → FailureInfo E

namespace LbCluster

variable {A E C : Type} (lib : ClusterLib A C) (isExpired : E → E → Bool) (c : LbCluster A E C)

/-- The member with a key. -/
def member (key : Text) : Option (ZeroconfMember A) :=
  (c.zeroconfMembers.find? (·.1 == key)).map (·.2)

/-- `OnAvahiNewObject()`, `Cluster.cxx:658-671`: the map is in the order of the keys. -/
def onAvahiNewObject (key : Text) (address : A) : LbCluster A E C :=
  let members := c.zeroconfMembers
  { c with
    zeroconfMembers :=
      if (c.member key).isSome then
        members.map fun i => if i.1 = key then (key, { i.2 with address }) else i
      else
        members.takeWhile (·.1 < key) ++ (key, ⟨address, address⟩) :: members.dropWhile (·.1 < key)
    dirty := true }

/-- `OnAvahiRemoveObject()`, `Cluster.cxx:673-685`. -/
def onAvahiRemoveObject (key : Text) : LbCluster A E C :=
  if (c.member key).isSome then
    { c with zeroconfMembers := c.zeroconfMembers.filter (·.1 ≠ key), dirty := true }
  else c

/-- `FillActive()`, `Cluster.cxx:420-449`. -/
def fillActive : LbCluster A E C :=
  { c with
    next := 0
    activeZeroconfMembers := c.zeroconfMembers.map (·.1)
    stickyRing :=
      if c.stickyMethod = .consistentHashing then
        some (lib.buildRing (c.zeroconfMembers.map fun i => (i.1, i.2.address)))
      else c.stickyRing
    dirty := false }

/-- Fill the active members if something has changed, `Cluster.cxx:383-386`. -/
def refresh : LbCluster A E C :=
  if c.dirty then c.fillActive lib else c

/-- `FailureInfo::Check` of the member with a key, without `allow_fade`. -/
def check (c : LbCluster A E C) (now : E) (key : Text) : Bool :=
  (c.member key).any fun m => (c.failures m.failure).check isExpired now false

variable (now : E)

/-- `PickNextGoodZeroconf()`, `Cluster.cxx:285-300`. -/
def pickNextGoodZeroconf : Option (Text × LbCluster A E C) :=
  if c.activeZeroconfMembers.length < 2 then c.activeZeroconfMembers.head?.map (·, c)
  else if h : c.next < c.activeZeroconfMembers.length then do
    let (i, b) ← (RoundRobinBalancer.mk c.next h).get fun i =>
      c.activeZeroconfMembers[i]?.any (c.check isExpired now)
    let key ← c.activeZeroconfMembers[i]?
    return (key, { c with next := b.next })
  else none

/-- The loop of `PickZeroconfHashRing()`, `Cluster.cxx:313-322`; missing if the ring has no
other node. -/
def pickHashRingLoop {N : Type} [DecidableEq N] (ring : HashRing N) (check : N → Bool) :
    Nat → Nat → N → Option N
  | 0, _, _ => none
  | retries + 1, stickyHash, i =>
    if retries = 0 ∨ check i then some i
    else
      match ring.findNext stickyHash with
      | none => none
      | some (next, i) => pickHashRingLoop ring check retries next i

variable (stickyHash : UInt32)

/-- `PickZeroconfHashRing()`, `Cluster.cxx:302-323`. -/
def pickZeroconfHashRing : Option Text :=
  c.stickyRing.bind fun ring =>
    pickHashRingLoop ring (c.check isExpired now) c.activeZeroconfMembers.length stickyHash.toNat
      (ring.pick stickyHash.toNat)

variable (stickySource : Text)

/-- `ZeroconfMember::CalculateRendezvousHash`, `Cluster.cxx:104-108`, with the hash of the
address, lines 60-80. -/
def rendezvousHash (key : Text) : UInt32 :=
  match c.member key with
  | none => 0
  | some m => lib.binaryHash stickySource (lib.binaryHash (lib.getSteadyPart m.address) lib.init)

/-- `PickZeroconfRendezvous()`, `Cluster.cxx:325-351`. -/
def pickZeroconfRendezvous : Option Text × LbCluster A E C :=
  let active := lib.sort (c.rendezvousHash lib stickySource) c.activeZeroconfMembers
  let c := { c with activeZeroconfMembers := active }
  ((active.find? (c.check isExpired now)).or active.head?, c)

/-- `PickZeroconfCache()`, `Cluster.cxx:353-376`. -/
def pickZeroconfCache : Option Text × LbCluster A E C :=
  let (cached, stickyCache) := lib.cacheGet c.stickyCache stickyHash
  let c := { c with stickyCache }
  match cached with
  | none => (none, c)
  | some cached =>
    if c.check isExpired now cached then (some cached, c)
    else (none, { c with stickyCache := lib.cacheRemove c.stickyCache stickyHash })

/-- The last lines of `PickZeroconf()`, `Cluster.cxx:412-417`. -/
def pickNextAndPut : Option Text × LbCluster A E C :=
  match c.pickNextGoodZeroconf isExpired now with
  | none => (none, c)
  | some (key, c) =>
    (some key,
      if stickyHash ≠ 0 then { c with stickyCache := lib.cachePut c.stickyCache stickyHash key }
      else c)

/-- `PickZeroconf()`, `Cluster.cxx:378-418`. -/
def pickZeroconf (stickyHash : UInt32) : Option Text × LbCluster A E C :=
  let c := c.refresh lib
  if c.activeZeroconfMembers = [] then (none, c)
  else if stickyHash ≠ 0 then
    match c.stickyMethod with
    | .consistentHashing => (c.pickZeroconfHashRing isExpired now stickyHash, c)
    | .rendezvousHashing => c.pickZeroconfRendezvous lib isExpired now stickySource
    | .cache =>
      match c.pickZeroconfCache lib isExpired now stickyHash with
      | (some key, c) => (some key, c)
      | (none, c) => c.pickNextAndPut lib isExpired now stickyHash
  else c.pickNextAndPut lib isExpired now stickyHash

end LbCluster

/-- What happens to a cluster. -/
inductive ClusterEvent (A E : Type) where
  | newObject (key : Text) (address : A)
  | removeObject (key : Text)
  | fail (failures : A → FailureInfo E)
  | pick (now : E) (stickySource : Text) (stickyHash : UInt32)
  | count

/-- The effect of an event. -/
def LbCluster.step {A E C : Type} (lib : ClusterLib A C) (isExpired : E → E → Bool)
    (c : LbCluster A E C) : ClusterEvent A E → LbCluster A E C
  | .newObject key address => c.onAvahiNewObject key address
  | .removeObject key => c.onAvahiRemoveObject key
  | .fail failures => { c with failures }
  | .pick now stickySource stickyHash =>
    (c.pickZeroconf lib isExpired now stickySource stickyHash).2
  | .count => c.refresh lib

namespace LbCluster

private theorem pickHashRingLoop_iff {N : Type} [DecidableEq N] (ring : HashRing N)
    (ch : N → Bool)
    (retries : Nat) : ∀ stickyHash : Nat,
      (∃ i, pickHashRingLoop ring ch retries stickyHash (ring.pick stickyHash) = some i ∧
        ch i = true) ↔
      ∃ k, ch (ring.pick (stickyHash + k)) = true ∧ ring.changes stickyHash k < retries := by
  induction retries with
  | zero =>
    intro stickyHash
    constructor
    · rintro ⟨i, hi, -⟩
      cases hi
    · rintro ⟨k, -, hk⟩
      omega
  | succ retries ih =>
    intro stickyHash
    rw [pickHashRingLoop]
    by_cases hc : ch (ring.pick stickyHash) = true
    · rw [if_pos (.inr hc)]
      exact ⟨fun _ => ⟨0, hc, Nat.succ_pos retries⟩, fun _ => ⟨_, rfl, hc⟩⟩
    -- until the owner changes, nobody is good
    have hb {k : Nat} (hsa : ring.pick (stickyHash + k) = ring.pick stickyHash) :
        ¬ch (ring.pick (stickyHash + k)) = true := by
      rw [hsa]
      exact hc
    by_cases hz : retries = 0
    · rw [if_pos (.inl hz)]
      constructor
      · rintro ⟨i, hi, hg⟩
        cases hi
        exact absurd hg hc
      · rintro ⟨k, hg, hk⟩
        exact absurd hg (hb (pick_of_changes (by omega)))
    rw [if_neg (not_or.mpr ⟨hz, hc⟩)]
    split
    next hn =>
      constructor
      · rintro ⟨i, hi, -⟩
        cases hi
      · rintro ⟨k, hg, -⟩
        exact absurd hg (hb (findNext_eq_none hn _))
    next next i hso =>
      obtain ⟨rfl, j, rfl, ha, hsa⟩ := findNext_eq_some hso
      rw [ih]
      simp only [pick_mod, changes_mod]
      constructor
      · rintro ⟨k, hg, hk⟩
        refine ⟨j + 1 + k, by rwa [← Nat.add_assoc], ?_⟩
        rw [changes_add]
        omega
      · rintro ⟨k, hg, hk⟩
        by_cases hle : k ≤ j
        · exact absurd hg (hb (hsa k hle))
        · obtain ⟨k, rfl⟩ := Nat.exists_eq_add_of_le (show j + 1 ≤ k by omega)
          rw [changes_add] at hk
          refine ⟨k, by rwa [Nat.add_assoc], by omega⟩

/-- `PickZeroconfHashRing()` returns a member that passes exactly if, on the way around the ring
from the sticky hash on, the owner changes less often than there are members until the first one
that passes is reached. -/
theorem pickZeroconfHashRing_good_iff {A E C : Type} (isExpired : E → E → Bool)
    (c : LbCluster A E C) (ring : HashRing Text) (hri : c.stickyRing = some ring) (now : E)
    (stickyHash : UInt32) :
    (∃ key, c.pickZeroconfHashRing isExpired now stickyHash = some key ∧
      c.check isExpired now key = true) ↔
      ∃ k, c.check isExpired now (ring.pick (stickyHash.toNat + k)) = true ∧
        ring.changes stickyHash.toNat k < c.activeZeroconfMembers.length := by
  rw [pickZeroconfHashRing, hri]
  exact pickHashRingLoop_iff ring (c.check isExpired now) c.activeZeroconfMembers.length
    stickyHash.toNat

/-- A ring that begins with the owners `a`, `b`, `a` and `b`; the rest belongs to `c`. -/
def alternatingRing : HashRing Text where
  size := 8192
  owner i := if 4 ≤ i then ascii "c" else if i % 2 = 0 then ascii "a" else ascii "b"
  pos := by decide

/-- Three members on this ring; the monitor says that some of them are down. -/
def alternatingCluster (down : List Nat) : LbCluster Nat Nat Unit where
  stickyMethod := .consistentHashing
  zeroconfMembers := [(ascii "a", ⟨0, 0⟩), (ascii "b", ⟨1, 1⟩), (ascii "c", ⟨2, 2⟩)]
  activeZeroconfMembers := [ascii "a", ascii "b", ascii "c"]
  stickyRing := some alternatingRing
  stickyCache := ()
  failures i := { fadeExpires := 0, protocolExpires := 0, connectExpires := 0, monitor := i ∈ down }

/-- The second member is good. -/
theorem pickZeroconfHashRing_good_second :
    ∃ key, (alternatingCluster [0, 2]).pickZeroconfHashRing (fun e now => decide (e ≤ now)) 1 8192 =
        some key ∧
      (alternatingCluster [0, 2]).check (fun e now => decide (e ≤ now)) 1 key = true :=
  (pickZeroconfHashRing_good_iff _ (alternatingCluster [0, 2]) alternatingRing rfl 1 8192).mpr
    ⟨1, by decide +kernel⟩

/-- The third member is good, but it is the first one that is returned. -/
theorem pickZeroconfHashRing_bad :
    (alternatingCluster [0, 1]).pickZeroconfHashRing (fun e now => decide (e ≤ now)) 1 8192 =
        some (ascii "a") ∧
      (alternatingCluster [0, 1]).check (fun e now => decide (e ≤ now)) 1 (ascii "a") = false ∧
      ascii "c" ∈ (alternatingCluster [0, 1]).activeZeroconfMembers ∧
      (alternatingCluster [0, 1]).check (fun e now => decide (e ≤ now)) 1 (ascii "c") = true := by
  decide +kernel

end LbCluster

end BengProxy.Cluster
