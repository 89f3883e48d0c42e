import Mathlib.Data.List.Sort
import BengProxy.Base.Least
import BengProxy.Cluster.Zeroconf

/-!
# Rendezvous hashing is stable

`PickZeroconfRendezvous()`, `src/lb/Cluster.cxx:325-351`, sorts the active members by a hash, which
is shared with all other requests. What it returns is nevertheless the least member by a rank that
depends on nothing but the member, the sticky source and the failure state.
-/

namespace BengProxy.Cluster

open Base Text List LbCluster

variable {key : Text}

namespace LbCluster

variable {A E C : Type} {lib : ClusterLib A C} {isExpired : E → E → Bool} {c c' : LbCluster A E C}

/-- The keys of the members. -/
def keys (c : LbCluster A E C) : List Text := c.zeroconfMembers.map (·.1)

/-- A cluster without members. -/
def new (stickyMethod : StickyMethod) (stickyCache : C) (failures : A → FailureInfo E) :
    LbCluster A E C :=
  { stickyMethod, stickyCache, failures }

/-- One event. -/
def Step (lib : ClusterLib A C) (isExpired : E → E → Bool) (c : LbCluster A E C)
    (e : ClusterEvent A E) (c' : LbCluster A E C) : Prop :=
  c' = c.step lib isExpired e

/-- The map has no duplicate keys, and the active members are the members, in some order, unless
something has changed. -/
structure Inv (c : LbCluster A E C) : Prop where
  nodup : c.keys.Nodup
  active : c.dirty = false → c.activeZeroconfMembers.Perm c.keys

/-- The members have not changed. -/
structure SameMembers (c c' : LbCluster A E C) : Prop where
  members : c'.zeroconfMembers = c.zeroconfMembers
  failures : c'.failures = c.failures
  method : c'.stickyMethod = c.stickyMethod

namespace SameMembers

private theorem refl (c : LbCluster A E C) : SameMembers c c := ⟨rfl, rfl, rfl⟩

private theorem check_eq (h : SameMembers c c') (now : E) :
    c'.check isExpired now = c.check isExpired now := by
  funext key
  rw [check, check, member, member, h.members, h.failures]

private theorem rendezvousHash_eq (h : SameMembers c c') (stickySource : Text) :
    c'.rendezvousHash lib stickySource = c.rendezvousHash lib stickySource := by
  funext key
  rw [rendezvousHash, rendezvousHash, member, member, h.members]

private theorem inv (h : SameMembers c c') (hi : c.Inv) (hd : c'.dirty = c.dirty)
    (hac : c'.activeZeroconfMembers.Perm c.activeZeroconfMembers) : c'.Inv := by
  have hke : c'.keys = c.keys := by rw [keys, keys, h.members]
  refine ⟨hke ▸ hi.nodup, fun hc => ?_⟩
  rw [hke]
  exact hac.trans (hi.active (hd ▸ hc))

end SameMembers

private theorem member_eq_some_iff (h : c.keys.Nodup) (key : Text) (m : ZeroconfMember A) :
    c.member key = some m ↔ (key, m) ∈ c.zeroconfMembers := by
  rw [member, Option.map_eq_some_iff]
  constructor
  · rintro ⟨⟨key', m'⟩, hfi, rfl⟩
    have hke : key' = key := by simpa using find?_some hfi
    exact hke ▸ mem_of_find?_eq_some hfi
  · intro hme
    cases hfi : c.zeroconfMembers.find? (·.1 == key) with
    | none =>
      rw [find?_eq_none] at hfi
      exact absurd (beq_self_eq_true key) (hfi _ hme)
    | some i =>
      have hke : i.1 = key := by simpa using find?_some hfi
      have hi : i = (key, m) := inj_on_of_nodup_map h (mem_of_find?_eq_some hfi) hme hke
      exact ⟨i, rfl, by rw [hi]⟩

private theorem member_isSome_iff (key : Text) : (c.member key).isSome = true ↔ key ∈ c.keys := by
  rw [member, Option.isSome_map, find?_isSome, keys, mem_map]
  simp only [beq_iff_eq]

private theorem exists_next_of_pickNextGoodZeroconf {now : E}
    (h : c.pickNextGoodZeroconf isExpired now = some (key, c')) :
    ∃ next, c' = { c with next } := by
  unfold pickNextGoodZeroconf at h
  split at h
  · obtain ⟨_, -, he⟩ := Option.map_eq_some_iff.mp h
    cases he
    exact ⟨c.next, rfl⟩
  split at h
  · obtain ⟨⟨i, b⟩, -, h⟩ := Option.bind_eq_some_iff.mp h
    obtain ⟨_, -, h⟩ := Option.bind_eq_some_iff.mp h
    cases h
    exact ⟨b.next, rfl⟩
  · cases h

namespace Inv

section

variable (h : c.Inv)
include h

private theorem refresh (lib : ClusterLib A C) : SameMembers c (c.refresh lib) ∧
    (c.refresh lib).Inv ∧ (c.refresh lib).activeZeroconfMembers.Perm c.keys := by
  unfold LbCluster.refresh
  split
  · exact ⟨⟨rfl, rfl, rfl⟩, ⟨h.nodup, fun _ => .refl _⟩, .refl _⟩
  next hc => exact ⟨.refl c, h, h.active (Bool.eq_false_iff.mpr hc)⟩

private theorem onAvahiNewObject (key : Text) (address : A) :
    (c.onAvahiNewObject key address).Inv := by
  refine ⟨?_, nofun⟩
  unfold LbCluster.onAvahiNewObject keys
  split
  · have hsa : (c.zeroconfMembers.map fun i =>
        if i.1 = key then (key, { i.2 with address }) else i).map (·.1) = c.keys := by
      rw [map_map]
      apply map_congr_left
      intro i _
      by_cases hi : i.1 = key
      · simp [hi]
      · simp [hi]
    rw [hsa]
    exact h.nodup
  next hn =>
    rw [member_isSome_iff] at hn
    have hpe : (c.zeroconfMembers.takeWhile (·.1 < key) ++ (key, ⟨address, address⟩) ::
        c.zeroconfMembers.dropWhile (·.1 < key)).Perm
        ((key, ⟨address, address⟩) :: c.zeroconfMembers) := by
      nth_rewrite 3 [← @takeWhile_append_dropWhile _ (·.1 < key) c.zeroconfMembers]
      exact perm_middle
    rw [(hpe.map (·.1)).nodup_iff, map_cons, nodup_cons]
    exact ⟨hn, h.nodup⟩

private theorem onAvahiRemoveObject (key : Text) : (c.onAvahiRemoveObject key).Inv := by
  unfold LbCluster.onAvahiRemoveObject
  split
  · refine ⟨?_, nofun⟩
    exact h.nodup.sublist (filter_sublist.map _)
  · exact h

private theorem pickNextAndPut (now : E) (stickyHash : UInt32) :
    (c.pickNextAndPut lib isExpired now stickyHash).2.Inv := by
  unfold LbCluster.pickNextAndPut
  split
  · exact h
  next key c' hpi =>
    obtain ⟨next, rfl⟩ := exists_next_of_pickNextGoodZeroconf hpi
    split
    all_goals exact ⟨h.nodup, h.active⟩

private theorem pickZeroconfRendezvous (now : E) (stickySource : Text) :
    (c.pickZeroconfRendezvous lib isExpired now stickySource).2.Inv := by
  have hsa : SameMembers c (c.pickZeroconfRendezvous lib isExpired now stickySource).2 :=
    ⟨rfl, rfl, rfl⟩
  exact hsa.inv h rfl (lib.sort_perm _ _)

private theorem pickZeroconfCache (now : E) (stickyHash : UInt32) :
    (c.pickZeroconfCache lib isExpired now stickyHash).2.Inv := by
  unfold LbCluster.pickZeroconfCache
  simp only
  split
  · exact ⟨h.nodup, h.active⟩
  · split
    all_goals exact ⟨h.nodup, h.active⟩

private theorem pickZeroconf (now : E) (stickySource : Text) (stickyHash : UInt32) :
    (c.pickZeroconf lib isExpired now stickySource stickyHash).2.Inv := by
  have hi : (c.refresh lib).Inv := (h.refresh lib).2.1
  unfold LbCluster.pickZeroconf
  simp only
  split
  · exact hi
  split
  · split
    · exact hi
    · exact hi.pickZeroconfRendezvous now stickySource
    · have hc : ((c.refresh lib).pickZeroconfCache lib isExpired now stickyHash).2.Inv :=
        hi.pickZeroconfCache now stickyHash
      split
      next key c' he =>
        rw [he] at hc
        exact hc
      next c' he =>
        rw [he] at hc
        exact hc.pickNextAndPut now stickyHash
  · exact hi.pickNextAndPut now stickyHash

private theorem step (e : ClusterEvent A E) : (c.step lib isExpired e).Inv := by
  cases e with
  | newObject key address => exact h.onAvahiNewObject key address
  | removeObject key => exact h.onAvahiRemoveObject key
  | fail failures => exact ⟨h.nodup, h.active⟩
  | pick now stickySource stickyHash => exact h.pickZeroconf now stickySource stickyHash
  | count => exact (h.refresh lib).2.1

end

private theorem run {s : StickyMethod} {st : C} {f : A → FailureInfo E}
    {ev : List (ClusterEvent A E)}
    (h : Run (Step lib isExpired) (.new s st f) ev c) : c.Inv := by
  apply h.invariant (P := Inv)
  · exact ⟨nodup_nil, fun _ => .refl _⟩
  · rintro c e _ hi rfl
    exact hi.step e

end Inv

/-- Good members come first, and then the hash counts. -/
def rank (lib : ClusterLib A C) (isExpired : E → E → Bool) (c : LbCluster A E C) (now : E)
    (stickySource key : Text) : Nat :=
  (c.rendezvousHash lib stickySource key).toNat +
    if c.check isExpired now key then 0 else UInt32.size

/-- No two members have the same hash. -/
def Distinct (lib : ClusterLib A C) (c : LbCluster A E C) (stickySource : Text) : Prop :=
  (c.keys.map (c.rendezvousHash lib stickySource)).Nodup
  deriving Decidable

private theorem Distinct.injOn {stickySource : Text} (h : c.Distinct lib stickySource) (now : E) :
    Set.InjOn (c.rank lib isExpired now stickySource) { key | key ∈ c.keys } := by
  intro key hke key' hk' he
  apply inj_on_of_nodup_map h hke hk'
  have hlt := (c.rendezvousHash lib stickySource key).toNat_lt_size
  have hl' := (c.rendezvousHash lib stickySource key').toNat_lt_size
  apply UInt32.toNat_inj.mp
  unfold rank at he
  split at he <;> split at he <;> omega

private theorem pickZeroconf_least (h : c.Inv) (hm : c.stickyMethod = .rendezvousHashing)
    (now : E)
    (stickySource : Text) {stickyHash : UInt32} (hh : stickyHash ≠ 0) :
    ((c.pickZeroconf lib isExpired now stickySource stickyHash).1 = none ∧ c.keys = []) ∨
      ∃ key, (c.pickZeroconf lib isExpired now stickySource stickyHash).1 = some key ∧
        LeastBy (c.rank lib isExpired now stickySource) { key | key ∈ c.keys } key := by
  obtain ⟨hsa, -, hpe⟩ := h.refresh lib
  unfold pickZeroconf
  by_cases hni : (c.refresh lib).activeZeroconfMembers = []
  · rw [if_pos hni]
    rw [hni] at hpe
    exact .inl ⟨rfl, hpe.symm.eq_nil⟩
  rw [if_neg hni, if_pos hh, hsa.method, hm]
  -- the sorted list has the same members
  have hs := lib.sort_sorted (c.rendezvousHash lib stickySource)
    (c.refresh lib).activeZeroconfMembers
  have hso := lib.sort_perm (c.rendezvousHash lib stickySource)
    (c.refresh lib).activeZeroconfMembers
  have hne := fun he => hni (hso.symm.trans (.of_eq he)).eq_nil
  have hme (key : Text) := (hso.trans hpe).mem_iff (a := key)
  have hc (active : List Text) : check isExpired
      { c.refresh lib with activeZeroconfMembers := active } now = c.check isExpired now :=
    SameMembers.check_eq ⟨hsa.members, hsa.failures, hsa.method⟩ now
  simp only [pickZeroconfRendezvous, hsa.rendezvousHash_eq, hc]
  generalize lib.sort (c.rendezvousHash lib stickySource)
    (c.refresh lib).activeZeroconfMembers = sorted at hs hso hme hne ⊢
  have ho : ((sorted.find? (c.check isExpired now)).or sorted.head?).isSome = true := by
    rw [Option.isSome_or, Bool.or_eq_true, isSome_head?]
    exact .inr hne
  obtain ⟨key, hke⟩ := Option.isSome_iff_exists.mp ho
  have hle := leastBy_of_find? (f := fun key => (c.rendezvousHash lib stickySource key).toNat)
    (fun key => (c.rendezvousHash lib stickySource key).toNat_lt_size) hs hke
  refine .inr ⟨key, hke, (hme key).mp hle.mem, fun b hb => ?_⟩
  exact hle.le b ((hme b).mpr hb)

section

variable {stickySource : Text} {now now' : E}

private theorem member_eq_of_subset (h : c.keys.Nodup) (h' : c'.keys.Nodup)
    (hsu : c.zeroconfMembers ⊆ c'.zeroconfMembers) (hke : key ∈ c.keys) :
    c'.member key = c.member key := by
  obtain ⟨⟨_, m⟩, hm, rfl⟩ := mem_map.mp hke
  rw [(member_eq_some_iff h _ m).mpr hm, (member_eq_some_iff h' _ m).mpr (hsu hm)]

private theorem rank_congr (hme : c'.member key = c.member key)
    (hc : c'.check isExpired now' key = c.check isExpired now key) :
    c'.rank lib isExpired now' stickySource key = c.rank lib isExpired now stickySource key := by
  rw [rank, rank, hc, rendezvousHash, rendezvousHash, hme]

/-- A cluster that uses rendezvous hashing; for this source, no two members have the same hash. -/
structure Rendezvous (lib : ClusterLib A C) (c : LbCluster A E C) (stickySource : Text) :
    Prop where
  inv : c.Inv
  method : c.stickyMethod = .rendezvousHashing
  distinct : c.Distinct lib stickySource

private theorem Rendezvous.least_eq {key' : Text} (h : c.Rendezvous lib stickySource)
    (h' : c'.Inv) (hsu : c.zeroconfMembers ⊆ c'.zeroconfMembers)
    (hc : ∀ i ∈ c.zeroconfMembers, c'.check isExpired now' i.1 = c.check isExpired now i.1)
    (hle : LeastBy (c.rank lib isExpired now stickySource) { key | key ∈ c.keys } key)
    (hl' : LeastBy (c'.rank lib isExpired now' stickySource) { key | key ∈ c'.keys } key')
    (hme : key' ∈ c.keys) : key' = key := by
  have hke : { key | key ∈ c.keys } ⊆ { key | key ∈ c'.keys } := fun k hk => map_subset _ hsu hk
  have hsm : LeastBy (c.rank lib isExpired now stickySource) { key | key ∈ c.keys } key' := by
    apply (hl'.subset hke hme).congr
    intro k hk
    obtain ⟨i, hi, rfl⟩ := mem_map.mp hk
    exact (rank_congr (member_eq_of_subset h.inv.nodup h'.nodup hsu hk) (hc i hi)).symm
  exact hsm.unique hle (h.distinct.injOn now)

private theorem Rendezvous.pick (h : c.Rendezvous lib stickySource) (isExpired : E → E → Bool)
    (now : E)
    {stickyHash : UInt32} (hh : stickyHash ≠ 0) (hne : c.keys ≠ []) :
    ∃ key, (c.pickZeroconf lib isExpired now stickySource stickyHash).1 = some key ∧
      LeastBy (c.rank lib isExpired now stickySource) { key | key ∈ c.keys } key := by
  rcases pickZeroconf_least h.inv h.method now stickySource hh with ⟨-, hni⟩ | hle
  · exact absurd hni hne
  · exact hle

private theorem Rendezvous.pick_none (h : c.Rendezvous lib stickySource) (isExpired : E → E → Bool)
    (now : E) {stickyHash : UInt32} (hh : stickyHash ≠ 0) (hni : c.keys = []) :
    (c.pickZeroconf lib isExpired now stickySource stickyHash).1 = none := by
  rcases pickZeroconf_least h.inv h.method now stickySource hh with ⟨hn, -⟩ | ⟨_, _, hle⟩
  · exact hn
  · have hme := hle.mem
    rw [hni] at hme
    exact absurd hme not_mem_nil

variable {stickyHash stickyHash' : UInt32}

private theorem Rendezvous.pick_of_subset (h : c.Rendezvous lib stickySource)
    (h' : c'.Rendezvous lib stickySource) (hh : stickyHash ≠ 0) (hh' : stickyHash' ≠ 0)
    (hsu : c.zeroconfMembers ⊆ c'.zeroconfMembers)
    (hc : ∀ i ∈ c.zeroconfMembers,
      c'.check isExpired now' i.1 = c.check isExpired now i.1) {key' : Text}
    (hp' : (c'.pickZeroconf lib isExpired now' stickySource stickyHash').1 = some key')
    (hme : key' ∈ c.keys) :
    (c.pickZeroconf lib isExpired now stickySource stickyHash).1 = some key' := by
  obtain ⟨key, hpi, hle⟩ := h.pick isExpired now hh (ne_nil_of_mem hme)
  have hke : key' ∈ c'.keys := map_subset _ hsu hme
  obtain ⟨key'', hp'', hl'⟩ := h'.pick isExpired now' hh' (ne_nil_of_mem hke)
  cases hp'.symm.trans hp''
  rw [hpi, h.least_eq h'.inv hsu hc hle hl' hme]

private theorem Rendezvous.pick_of_fail (h : c.Rendezvous lib stickySource)
    (h' : c'.Rendezvous lib stickySource) (hh : stickyHash ≠ 0) (hh' : stickyHash' ≠ 0)
    (hpe : c'.zeroconfMembers.Perm c.zeroconfMembers) {x : Text × ZeroconfMember A}
    (hc : ∀ i ∈ c.zeroconfMembers, i ≠ x → c'.check isExpired now' i.1 = c.check isExpired now i.1)
    (hfa : c'.check isExpired now' x.1 = false)
    (hpi : (c.pickZeroconf lib isExpired now stickySource stickyHash).1 = some key)
    (ho : key ≠ x.1) :
    (c'.pickZeroconf lib isExpired now' stickySource stickyHash').1 = some key := by
  have hke : c'.keys.Perm c.keys := hpe.map Prod.fst
  have hne : c.keys ≠ [] := fun hni => by
    rw [h.pick_none isExpired now hh hni] at hpi
    cases hpi
  have hne' : c'.keys ≠ [] := fun hni => hne (hke.symm.trans (.of_eq hni)).eq_nil
  obtain ⟨_, hp, hle⟩ := h.pick isExpired now hh hne
  cases hpi.symm.trans hp
  obtain ⟨key', hp', hl'⟩ := h'.pick isExpired now' hh' hne'
  have hme {k : Text} (hk : k ∈ c.keys) : c'.member k = c.member k :=
    member_eq_of_subset h.inv.nodup h'.inv.nodup hpe.symm.subset hk
  have hsa {k : Text} (hk : k ∈ c.keys) (hkx : k ≠ x.1) :
      c'.rank lib isExpired now' stickySource k = c.rank lib isExpired now stickySource k := by
    obtain ⟨i, hi, rfl⟩ := mem_map.mp hk
    exact rank_congr (hme hk) (hc i hi fun he => hkx (by rw [he]))
  -- the rank of the failed one has become greater
  have hra : LeastBy (c'.rank lib isExpired now' stickySource) { k | k ∈ c.keys } key := by
    apply hle.raise (hsa hle.mem ho)
    intro k hk
    by_cases hkx : k = x.1
    · rw [rank, rank, hkx, hfa, rendezvousHash, rendezvousHash, hme (hkx ▸ hk)]
      apply Nat.add_le_add_left
      split
      · exact Nat.zero_le _
      · exact le_rfl
    · exact (hsa hk hkx).ge
  have hk' : { k | k ∈ c.keys } = { k | k ∈ c'.keys } := Set.ext fun k => hke.mem_iff.symm
  rw [hk'] at hra
  rw [hp', hl'.unique hra (h'.distinct.injOn now')]

end

/-- A member is returned unless there is none: of the good ones, or of all if none is good, the one
of least hash. Two clusters with any histories return the same member for a sticky source if they
have the same members and failure states. A member that is added only matters if it is returned, and
a member that is removed or fails only matters if it was. -/
theorem pickZeroconf_stable (lib : ClusterLib A C) (isExpired : E → E → Bool)
    (c c' : LbCluster A E C) (stickySource : Text) (h : c.Rendezvous lib stickySource)
    (h' : c'.Rendezvous lib stickySource) (now now' : E) (stickyHash stickyHash' : UInt32)
    (hh : stickyHash ≠ 0) (hh' : stickyHash' ≠ 0) :
    let picked := (c.pickZeroconf lib isExpired now stickySource stickyHash).1
    let picked' := (c'.pickZeroconf lib isExpired now' stickySource stickyHash').1
    let sameCheck (i : Text × ZeroconfMember A) : Prop :=
      c'.check isExpired now' i.1 = c.check isExpired now i.1
    (picked = none ∧ c.keys = [] ∨ ∃ key, picked = some key ∧
      LeastBy (c.rank lib isExpired now stickySource) { key | key ∈ c.keys } key) ∧
    (c'.zeroconfMembers.Perm c.zeroconfMembers → (∀ i ∈ c.zeroconfMembers, sameCheck i) →
      picked' = picked) ∧
    (∀ x, c'.zeroconfMembers.Perm (x :: c.zeroconfMembers) →
      (∀ i ∈ c.zeroconfMembers, sameCheck i) → picked' = picked ∨ picked' = some x.1) ∧
    (∀ x, c.zeroconfMembers.Perm (x :: c'.zeroconfMembers) →
      (∀ i ∈ c'.zeroconfMembers, sameCheck i) → picked ≠ some x.1 → picked' = picked) ∧
    (∀ x, c'.zeroconfMembers.Perm c.zeroconfMembers →
      (∀ i ∈ c.zeroconfMembers, i ≠ x → sameCheck i) → c'.check isExpired now' x.1 = false →
      picked ≠ some x.1 → picked' = picked) := by
  intro picked picked' sameCheck
  refine ⟨pickZeroconf_least h.inv h.method now stickySource hh, fun hpe hc => ?_,
    fun x hpe hc => ?_, fun x hpe hc ho => ?_, fun x hpe hc hfa ho => ?_⟩
  · -- the same members
    have hke : c'.keys.Perm c.keys := hpe.map Prod.fst
    by_cases hn' : c'.keys = []
    · have hni : c.keys = [] := (hke.symm.trans (.of_eq hn')).eq_nil
      exact (h'.pick_none isExpired now' hh' hn').trans
        (h.pick_none isExpired now hh hni).symm
    · obtain ⟨key', hp', hl'⟩ := h'.pick isExpired now' hh' hn'
      exact hp'.trans (h.pick_of_subset h' hh hh' hpe.symm.subset hc hp'
        (hke.mem_iff.mp hl'.mem)).symm
  · -- one more member
    have hke : c'.keys.Perm (x.1 :: c.keys) := hpe.map Prod.fst
    have hne' : c'.keys ≠ [] := ne_nil_of_mem (hke.mem_iff.mpr mem_cons_self)
    obtain ⟨key', hp', hl'⟩ := h'.pick isExpired now' hh' hne'
    rcases mem_cons.mp (hke.mem_iff.mp hl'.mem) with rfl | hme
    · exact .inr hp'
    · have hsu : c.zeroconfMembers ⊆ c'.zeroconfMembers :=
        List.Subset.trans (subset_cons_self x _) hpe.symm.subset
      exact .inl (hp'.trans (h.pick_of_subset h' hh hh' hsu hc hp' hme).symm)
  · -- one member less
    have hke : c.keys.Perm (x.1 :: c'.keys) := hpe.map Prod.fst
    have hne : c.keys ≠ [] := ne_nil_of_mem (hke.mem_iff.mpr mem_cons_self)
    obtain ⟨key, hpi, hle⟩ := h.pick isExpired now hh hne
    rcases mem_cons.mp (hke.mem_iff.mp hle.mem) with rfl | hme
    · exact absurd hpi ho
    · have hsu : c'.zeroconfMembers ⊆ c.zeroconfMembers :=
        List.Subset.trans (subset_cons_self x _) hpe.symm.subset
      exact (h'.pick_of_subset h hh' hh hsu (fun i hi => (hc i hi).symm) hpi
        hme).trans hpi.symm
  · -- a member has failed
    have hke : c'.keys.Perm c.keys := hpe.map Prod.fst
    by_cases hni : c.keys = []
    · have hn' : c'.keys = [] := (hke.trans (.of_eq hni)).eq_nil
      exact (h'.pick_none isExpired now' hh' hn').trans
        (h.pick_none isExpired now hh hni).symm
    · obtain ⟨key, hpi, -⟩ := h.pick isExpired now hh hni
      exact (h.pick_of_fail h' hh hh' hpe hc hfa hpi fun he => ho (he ▸ hpi)).trans hpi.symm

/-- A library for the example: addresses are numbers, the hash is a sum, and the sort is insertion
sort. -/
def plainClusterLib : ClusterLib UInt8 Unit where
  getSteadyPart a := [a]
  init := 0
  binaryHash s init := s.foldl (fun h c => 33 * h + c.toUInt32) init
  sort f l := l.insertionSort fun a b => f a ≤ f b
  sort_perm f l := perm_insertionSort _ l
  sort_sorted f l :=
    haveI : Std.Total fun a b : Text => f a ≤ f b := ⟨fun a b => UInt32.le_total (f a) (f b)⟩
    haveI : IsTrans Text fun a b => f a ≤ f b := ⟨fun _ _ _ => UInt32.le_trans⟩
    pairwise_insertionSort _ l
  buildRing _ := ⟨1, fun _ => [], by decide⟩
  cacheGet _ _ := (none, ())
  cachePut _ _ _ := ()
  cacheRemove _ _ := ()

/-- The state after some events; all members are good. -/
def afterEvents (events : List (ClusterEvent UInt8 Nat)) : LbCluster UInt8 Nat Unit :=
  events.foldl (step plainClusterLib fun e now => decide (e ≤ now))
    (.new .rendezvousHashing () fun _ =>
      { fadeExpires := 0, protocolExpires := 0, connectExpires := 0 })

private theorem run_foldl (ev : List (ClusterEvent A E)) :
    ∀ c : LbCluster A E C, Run (Step lib isExpired) c ev
      (ev.foldl (step lib isExpired) c) := by
  induction ev with
  | nil => exact fun c => .nil
  | cons e ev ih => exact fun c => .cons rfl (ih _)

/-- Two clusters get the same two members in a different order; the second one is used in between,
and then another member comes. -/
theorem pickZeroconf_stable_two :
    let c := afterEvents [.newObject (ascii "a") 1, .newObject (ascii "b") 2]
    let c' := afterEvents [.newObject (ascii "b") 2, .newObject (ascii "a") 1,
      .pick 1 (ascii "x") 1, .newObject (ascii "c") 3]
    let picked := (c.pickZeroconf plainClusterLib (fun e now => decide (e ≤ now)) 1 (ascii "y") 1).1
    let picked' :=
      (c'.pickZeroconf plainClusterLib (fun e now => decide (e ≤ now)) 2 (ascii "y") 1).1
    (∃ key, picked = some key ∧ key ∈ c.keys ∧
      ∀ other ∈ c.keys, c.rendezvousHash plainClusterLib (ascii "y") key ≤
        c.rendezvousHash plainClusterLib (ascii "y") other) ∧
      (picked' = picked ∨ picked' = some (ascii "c")) := by
  intro c c' picked picked'
  have h : c.Rendezvous plainClusterLib (ascii "y") :=
    ⟨.run (run_foldl _ _), rfl, by decide +kernel⟩
  have h' : c'.Rendezvous plainClusterLib (ascii "y") :=
    ⟨.run (run_foldl _ _), rfl, by decide +kernel⟩
  obtain ⟨hle, -, had, -, -⟩ := pickZeroconf_stable plainClusterLib
    (fun e now => decide (e ≤ now)) c c' (ascii "y") h h' 1 2 1 1 (by decide) (by decide)
  refine ⟨?_, had (ascii "c", ⟨3, 3⟩) (by decide +kernel) (by decide +kernel)⟩
  rcases hle with ⟨-, hni⟩ | ⟨key, hpi, hme, hle⟩
  · exact absurd hni (by decide +kernel)
  · have hgo : ∀ k ∈ c.keys, c.check (fun e now => decide (e ≤ now)) 1 k = true := by
      decide +kernel
    refine ⟨key, hpi, hme, fun other ho => ?_⟩
    have hra := hle other ho
    rw [rank, rank, hgo key hme, hgo other ho] at hra
    exact UInt32.le_iff_toNat_le.mpr (by simpa using hra)

end LbCluster

end BengProxy.Cluster
