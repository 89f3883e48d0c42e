import BengProxy.Base.Run
import Mathlib.Algebra.GroupWithZero.Nat
import Mathlib.Data.List.Perm.Subperm

/-!
# Linear pools

Models the linear pools of `src/pool/pool.cxx`, without `DEBUG_POOL_ALLOC` and with sizes of 64
bits. `malloc()` and `SlicePool::Alloc` return aligned memory that nobody else has, of at most
`PTRDIFF_MAX` bytes; an area is named by the time of its allocation.
-/

namespace BengProxy.Pool

open Base List Function

/-- `linear_pool_area`, `pool.cxx:95-106`, with the slice pool of its slice and the bytes that were
allocated for its data. -/
structure Area where
  id : Nat
  slice : Option Nat := none
  capacity : Nat
  size : Nat
  used : Nat := 0
  deriving DecidableEq

/-- What `p_malloc` has returned. -/
structure Range where
  area : Nat
  offset : Nat
  size : Nat

/-- A pool: the size of its areas, and its slice pool. -/
structure LinearPool where
  areaSize : Nat
  slicePool : Option Nat := none

/-- The areas of all pools and of the recycler, which is `none`, and the ranges that are in use. -/
structure System (ι : Type) where
  areas : Option ι → List Area := fun _ => []
  ranges : ι → List Range := fun _ => []
  now : Nat := 0

/-- `size` bytes of the area are used up, `pool.cxx:882`. -/
def Area.use (a : Area) (size : Nat) : Area := { a with used := (a.used + size) % 2 ^ 64 }

/-- `align_size`, `pool.cxx:237-241`. -/
def alignSize (size : Nat) : Nat := (size + 15) % 2 ^ 64 / 16 * 16

/-- `pool_new_linear_area`, `pool.cxx:398-415`. -/
def newLinearArea (id size : Nat) : Area := { id, capacity := (32 + size) % 2 ^ 64 - 32, size }

/-- A new area for `size` bytes, and what is left in the recycler: `pool_new_linear_area` if the
areas of the pool are too small, else `pool_new_slice_area`, `pool.cxx:378-396`, or
`pool_get_linear_area`, `pool.cxx:417-428`. -/
def getArea (p : LinearPool) (recycler : List Area) (id size : Nat) : Area × List Area :=
  if p.areaSize < size then (newLinearArea id size, recycler)
  else if p.slicePool ≠ none then
    ({ id, slice := p.slicePool, capacity := p.areaSize, size := p.areaSize }, recycler)
  else
    match recycler.find? (·.size == p.areaSize) with
    | some area => ({ area with used := 0 }, recycler.erase area)
    | none => (newLinearArea id p.areaSize, recycler)

/-- Where an area is given back to. -/
inductive Place where
  | slicePool (k : Option Nat)
  | recycler
  | free
  deriving DecidableEq

/-- `pool_dispose_linear_area`, `pool.cxx:330-342`, and the recycler after it. -/
def disposeLinearArea (p : LinearPool) (recycler : List Area) (area : Area) : Place × List Area :=
  if area.size ≠ p.areaSize then (.free, recycler)
  else if area.slice ≠ none then (.slicePool p.slicePool, recycler)
  else if 256 ≤ recycler.length then (.free, recycler)
  else (.recycler, area :: recycler)

/-- The loop of `pool_clear`, `pool.cxx:781-785`. -/
def clearAreas (p : LinearPool) : List Area → List Area → List (Area × Place) × List Area
  | [], recycler => ([], recycler)
  | area :: prev, recycler =>
    let (place, recycler) := disposeLinearArea p recycler area
    let (given, recycler) := clearAreas p prev recycler
    ((area, place) :: given, recycler)

/-- What happens: `p_malloc`, and `pool_clear` or the destruction of the pool. -/
inductive Event (ι : Type) where
  | malloc (i : ι) (size : Nat)
  | clear (i : ι)

variable {ι : Type} [DecidableEq ι] (pools : ι → LinearPool)

namespace System

variable (s : System ι) (i : ι)

/-- A pool and the recycler have changed. -/
def set (recycler areas : List Area) (ranges : List Range) : System ι where
  areas := update (update s.areas none recycler) (some i) areas
  ranges := update s.ranges i ranges
  now := s.now + 1

/-- The end of `p_malloc_linear`, `pool.cxx:881-902`, with an area between the others. -/
def use (recycler before : List Area) (area : Area) (after : List Area) (size : Nat) : System ι :=
  s.set i recycler (before ++ area.use (alignSize size) :: after)
    (⟨area.id, area.used, size⟩ :: s.ranges i)

/-- `p_malloc_linear`, `pool.cxx:831-902`. -/
def malloc (size : Nat) : System ι :=
  let (area, recycler) := getArea (pools i) (s.areas none) s.now (alignSize size)
  match s.areas (some i) with
  | [] => s.use i recycler [] area [] size
  | current :: prev =>
    if (pools i).areaSize < alignSize size then s.use i recycler [current] area prev size
    else if current.size < (current.used + alignSize size) % 2 ^ 64 then
      s.use i recycler [] area (current :: prev) size
    else s.use i (s.areas none) [] current prev size

/-- `pool_clear`, `pool.cxx:763-788`. -/
def clear : System ι :=
  s.set i (clearAreas (pools i) (s.areas (some i)) (s.areas none)).2 [] []

/-- One event; `p_malloc` returns if `malloc()` does. -/
def Step : Event ι → System ι → Prop
  | .malloc i size, s' => size < 2 ^ 64 ∧ s' = s.malloc pools i size ∧
    ∀ a ∈ s'.areas (some i), a.capacity + 32 < 2 ^ 63
  | .clear i, s' => s' = s.clear pools i

end System

/-- Two ranges have no byte in common. -/
def Range.Disjoint (r t : Range) : Prop :=
  r.area ≠ t.area ∨ r.offset + r.size ≤ t.offset ∨ t.offset + t.size ≤ r.offset

/-- The place is the one that the kind of the area requires; the recycler may be full. -/
def Place.Fits (p : LinearPool) (full : Prop) (a : Area) : Place → Prop
  | slicePool k => a.slice = k ∧ k ≠ none
  | recycler => a.slice = none ∧ a.size = p.areaSize
  | free => a.slice = none ∧ (p.areaSize < a.size ∨ full)

/-- Every area has one owner, which has it once. -/
structure Owned (areas : Option ι → List Area) (now : Nat) : Prop where
  lt : ∀ o, ∀ a ∈ areas o, a.id < now
  nodup : ∀ o, ((areas o).map Area.id).Nodup
  apart : ∀ o o', o ≠ o' → ∀ a ∈ areas o, ∀ b ∈ areas o', a.id ≠ b.id

/-- What is true of every area. -/
structure Area.Good (a : Area) : Prop where
  used_le : a.used ≤ a.size
  size_eq : a.size = a.capacity
  dvd : 16 ∣ a.used
  lt : a.size + 32 < 2 ^ 63

/-- What is true of every area of a pool. -/
def LinearPool.Fits (p : LinearPool) (a : Area) : Prop :=
  p.areaSize ≤ a.size ∧ (a.slice = none ∨ a.slice = p.slicePool ∧ a.size = p.areaSize)

/-- The invariant. -/
structure Inv (s : System ι) : Prop where
  owned : Owned s.areas s.now
  good : ∀ i, ∀ a ∈ s.areas (some i), a.Good ∧ (pools i).Fits a
  recycled : ∀ a ∈ s.areas none, a.Good ∧ a.slice = none
  inside : ∀ i, ∀ r ∈ s.ranges i, 16 ∣ r.offset ∧
    ∃ a ∈ s.areas (some i), a.id = r.area ∧ r.offset + r.size ≤ a.used
  disjoint : ∀ i, (s.ranges i).Pairwise Range.Disjoint

variable {pools} {s : System ι} {i : ι}

-- the areas of the recycler and of one pool change hands
private theorem Owned.set {areas : Option ι → List Area} {now : Nat} (h : Owned areas now) {i : ι}
    {l m : List Area} (hs : (l ++ m).map Area.id <+~
      now :: (areas none ++ areas (some i)).map Area.id) :
    Owned (update (update areas none l) (some i) m) (now + 1) := by
  obtain ⟨k, hp, hk⟩ := hs
  have hx (b) (hb : b ∈ l ++ m) : b.id = now ∨ (∃ c ∈ areas none, c.id = b.id) ∨
      ∃ c ∈ areas (some i), c.id = b.id := by
    simpa using hk.subset (hp.mem_iff.mpr (mem_map_of_mem hb))
  have hd : (now :: (areas none ++ areas (some i)).map Area.id).Nodup := by
    have := h.lt none
    have := h.lt (some i)
    have := h.apart none (some i) nofun
    simp only [map_append, nodup_cons, nodup_append, h.nodup, mem_append, mem_map]
    grind
  have hn := hp.nodup_iff.mp (hd.sublist hk)
  simp only [map_append, nodup_append, mem_map] at hn
  clear hp hk hd
  have hlt := h.lt
  have hno := h.nodup
  have hap := h.apart
  constructor
  all_goals
    simp only [update_apply]
    grind

private theorem alignSize_spec {n : Nat} (hn : n ≤ 2 ^ 64 - 48) :
    n ≤ alignSize n ∧ 16 ∣ alignSize n ∧ alignSize n + 32 < 2 ^ 64 := by
  unfold alignSize
  omega

private theorem newLinearArea_capacity {id n : Nat} (hn : n + 32 < 2 ^ 64) :
    (newLinearArea id n).capacity = n := by
  dsimp only [newLinearArea]
  omega

private theorem getArea_spec {p : LinearPool} {l r : List Area} {a : Area} {id size : Nat}
    (hp : p.areaSize + 32 < 2 ^ 64) (hs : size + 32 < 2 ^ 64)
    (hl : ∀ b ∈ l, b.Good ∧ b.slice = none) (he : getArea p l id size = (a, r)) (m : List Area) :
    a.used = 0 ∧ a.capacity = a.size ∧ size ≤ a.size ∧ p.Fits a ∧ r ⊆ l ∧
      (a :: (r ++ m)).map Area.id <+~ id :: (l ++ m).map Area.id := by
  unfold getArea at he
  split at he
  next hlt =>
    cases he
    exact ⟨rfl, newLinearArea_capacity hs, Nat.le_refl _, ⟨Nat.le_of_lt hlt, .inl rfl⟩, .refl _,
      .refl _⟩
  have hle : size ≤ p.areaSize := by omega
  split at he
  · cases he
    exact ⟨rfl, rfl, hle, ⟨Nat.le_refl _, .inr ⟨rfl, rfl⟩⟩, .refl _, .refl _⟩
  split at he
  next area hf =>
    cases he
    have hm := mem_of_find?_eq_some hf
    have hsi : area.size = p.areaSize := by simpa using find?_some hf
    have hi := ((perm_cons_erase hm).append_right m).symm.map Area.id
    exact ⟨rfl, (hl area hm).1.size_eq.symm, hsi ▸ hle,
      ⟨Nat.le_of_eq hsi.symm, .inl (hl area hm).2⟩, erase_subset, hi.subperm.cons_right id⟩
  next =>
    cases he
    exact ⟨rfl, newLinearArea_capacity hp, hle, ⟨Nat.le_refl _, .inl rfl⟩, .refl _, .refl _⟩

private theorem Inv.set (h : Inv pools s) {l m : List Area} {rs : List Range}
    (hs : (l ++ m).map Area.id <+~ s.now :: (s.areas none ++ s.areas (some i)).map Area.id)
    (hl : ∀ a ∈ l, a.Good ∧ a.slice = none) (hm : ∀ a ∈ m, a.Good ∧ (pools i).Fits a)
    (hr : ∀ r ∈ rs, 16 ∣ r.offset ∧ ∃ a ∈ m, a.id = r.area ∧ r.offset + r.size ≤ a.used)
    (hd : rs.Pairwise Range.Disjoint) : Inv pools (s.set i l m rs) := by
  have hg := h.good
  have hin := h.inside
  have hdi := h.disjoint
  refine ⟨h.owned.set hs, ?_, ?_, ?_, ?_⟩
  all_goals
    simp only [System.set, update_apply]
    grind

private theorem Inv.use (h : Inv pools s) {n : Nat} (hn : n ≤ 2 ^ 64 - 48)
    {l b c : List Area} {a : Area} (heq : a.capacity = a.size) (hd : 16 ∣ a.used)
    (hro : a.used + alignSize n ≤ a.size) (hfi : (pools i).Fits a) (hl : l ⊆ s.areas none)
    (hbc : b ++ c ⊆ s.areas (some i)) (hot : ∀ x ∈ s.areas (some i), x = a ∨ x ∈ b ++ c)
    (hid : (a :: (l ++ (b ++ c))).map Area.id <+~
      s.now :: (s.areas none ++ s.areas (some i)).map Area.id) :
    (∀ x ∈ (s.use i l b a c n).areas (some i), x.capacity + 32 < 2 ^ 63) →
      Inv pools (s.use i l b a c n) := by
  obtain ⟨hna, hdv, -⟩ := alignSize_spec hn
  intro hlt
  simp only [System.use, System.set, update_self] at hlt
  have hal : a.capacity + 32 < 2 ^ 63 :=
    hlt (a.use (alignSize n)) (mem_append_right _ mem_cons_self)
  have hu : (a.use (alignSize n)).used = a.used + alignSize n := by
    dsimp only [Area.use]
    omega
  have hi : (a.use (alignSize n)).id = a.id := rfl
  have hg : (a.use (alignSize n)).Good ∧ (pools i).Fits (a.use (alignSize n)) :=
    ⟨⟨hu ▸ hro, heq.symm, hu ▸ Nat.dvd_add hd hdv, heq ▸ hal⟩, hfi⟩
  have hids : (l ++ (b ++ a.use (alignSize n) :: c)).map Area.id <+~
      s.now :: (s.areas none ++ s.areas (some i)).map Area.id := by
    refine Perm.subperm ?_ |>.trans hid
    simp only [map_append, map_cons, hi]
    grind
  have hno := (h.owned.set hids).nodup (some i)
  simp only [update_self, map_append, map_cons, nodup_append, nodup_cons, mem_cons, hi] at hno
  -- a range of the pool is below `used` in this area, or in another one
  have hin (r) (hr : r ∈ s.ranges i) : r.area = a.id ∧ r.offset + r.size ≤ a.used ∨
      r.area ≠ a.id ∧ ∃ x ∈ b ++ c, x.id = r.area ∧ r.offset + r.size ≤ x.used := by
    obtain ⟨x, hx, hr⟩ := (h.inside i r hr).2
    have := hot x hx
    grind
  refine h.set hids (fun x hx => h.recycled x (hl hx)) ?_ ?_ ?_
  · intro x hx
    have := h.good i x
    have := @hbc x
    grind
  · refine forall_mem_cons.mpr ⟨⟨hd, _, mem_append_right _ mem_cons_self, rfl, ?_⟩, fun r hr => ?_⟩
    · exact hu ▸ Nat.add_le_add_left hna _
    · refine ⟨(h.inside i r hr).1, ?_⟩
      have := hin r hr
      grind
  · refine pairwise_cons.mpr ⟨fun r hr => ?_, h.disjoint i⟩
    have := hin r hr
    grind [Range.Disjoint]

private theorem Inv.malloc (h : Inv pools s) (hp : (pools i).areaSize + 32 < 2 ^ 64) {n : Nat}
    (hn : n ≤ 2 ^ 64 - 48) :
    (∀ a ∈ (s.malloc pools i n).areas (some i), a.capacity + 32 < 2 ^ 63) →
      Inv pools (s.malloc pools i n) := by
  obtain ⟨-, -, hle⟩ := alignSize_spec hn
  rw [System.malloc]
  rcases hg : getArea (pools i) (s.areas none) s.now (alignSize n) with ⟨a, l⟩
  obtain ⟨hu, hc, hsi, hf, hl, hi⟩ := getArea_spec hp hle h.recycled hg (s.areas (some i))
  have hnew {b c : List Area} (hbc : s.areas (some i) = b ++ c) :=
    h.use hn hc (hu ▸ Nat.dvd_zero 16) (by omega) hf hl (by simp [hbc])
      (fun _ hx => .inr (hbc ▸ hx)) (hbc ▸ hi)
  dsimp only
  split
  next he => exact hnew he
  next current prev he =>
    split_ifs
    · exact hnew he
    · exact hnew he
    have hm : current ∈ s.areas (some i) := he ▸ mem_cons_self
    obtain ⟨hg, hf⟩ := h.good i current hm
    have := hg.used_le
    have := hg.lt
    have := hf.1
    refine h.use hn hg.size_eq.symm hg.dvd (by omega) hf (.refl _) (by simp [he]) (by simp [he]) ?_
    rw [he]
    exact (perm_middle.symm.map Area.id).subperm.cons_right _

private theorem clearAreas_spec {p : LinearPool} {areas l : List Area} (h : ∀ a ∈ areas, p.Fits a)
    {gi : List (Area × Place)} {m : List Area} (he : clearAreas p areas l = (gi, m)) :
    gi.map Prod.fst = areas ∧ (∀ g ∈ gi, g.2.Fits p (256 ≤ m.length) g.1) ∧
      m = ((gi.filter (·.2 = .recycler)).map Prod.fst).reverse ++ l := by
  induction areas generalizing l gi with
  | nil =>
    cases he
    simp
  | cons a areas ih =>
    obtain ⟨ha, hf⟩ := forall_mem_cons.mp h
    rw [clearAreas] at he
    rcases hd : disposeLinearArea p l a with ⟨pl, r⟩
    rcases hc : clearAreas p areas r with ⟨gs, m'⟩
    simp only [hd, hc] at he
    cases he
    obtain ⟨hg, hp, hm⟩ := ih hf hc
    have hle : r.length ≤ m.length := by simp [hm]
    unfold disposeLinearArea at hd
    unfold LinearPool.Fits at ha
    refine ⟨by simp [hg], forall_mem_cons.mpr ⟨?_, hp⟩, ?_⟩
    · split_ifs at hd <;> cases hd <;> simp only [Place.Fits] <;> grind
    · split_ifs at hd <;> cases hd <;> simp [hm]

private theorem Inv.clear (h : Inv pools s) (i : ι) : Inv pools (s.clear pools i) := by
  unfold System.clear
  rcases he : clearAreas (pools i) (s.areas (some i)) (s.areas none) with ⟨given, l⟩
  obtain ⟨hg, hp, rfl⟩ := clearAreas_spec (fun a ha => (h.good i a ha).2) he
  have hs := (filter_sublist (p := (·.2 = .recycler)) (l := given)).map Prod.fst
  rw [hg] at hs
  refine h.set ?_ ?_ (forall_mem_nil _) (forall_mem_nil _) .nil
  · rw [append_nil, map_append, map_reverse, map_append]
    have hr := (reverse_perm _).subperm.trans (hs.map Area.id).subperm
    exact ((hr.append (.refl _)).trans perm_append_comm.subperm).cons_right _
  · intro a ha
    rcases mem_append.mp ha with ha | ha
    · refine ⟨(h.good i a (hs.subset (mem_reverse.mp ha))).1, ?_⟩
      obtain ⟨g, hm, rfl⟩ := mem_map.mp (mem_reverse.mp ha)
      obtain ⟨hm, he⟩ := mem_filter.mp hm
      have hf := hp g hm
      rw [of_decide_eq_true he] at hf
      exact hf.1
    · exact h.recycled a ha

/-- After every run of `pool_clear` and of `p_malloc` with sizes that do not wrap around: the ranges
of a pool are aligned and inside its areas, no two ranges have a byte in common, an area has one
owner, and `pool_clear` gives every area back once and to the place that its kind requires. -/
theorem ranges_inside_areas (hp : ∀ i, (pools i).areaSize + 32 < 2 ^ 64) {es : List (Event ι)}
    (h : Run (System.Step pools) {} es s) (hs : ∀ i n, .malloc i n ∈ es → n ≤ 2 ^ 64 - 48) :
    (∀ i, ∀ r ∈ s.ranges i, 16 ∣ r.offset ∧
        ∃ a ∈ s.areas (some i), a.id = r.area ∧ r.offset + r.size ≤ a.capacity) ∧
      (∀ i, (s.ranges i).Pairwise Range.Disjoint) ∧
      (∀ i j, i ≠ j → ∀ r ∈ s.ranges i, ∀ t ∈ s.ranges j, r.Disjoint t) ∧
      Owned s.areas s.now ∧
      ∀ i given l, clearAreas (pools i) (s.areas (some i)) (s.areas none) = (given, l) →
        given.map Prod.fst = s.areas (some i) ∧
        (∀ g ∈ given, g.2.Fits (pools i) (256 ≤ l.length) g.1) ∧
        l = ((given.filter (·.2 = .recycler)).map Prod.fst).reverse ++ s.areas none := by
  have hi : Inv pools s := by
    induction h with
    | nil => exact ⟨⟨by simp, by simp, by simp⟩, by simp, by simp, by simp, by simp⟩
    | @snoc _ _ _ e _ hst ih =>
      have ih := ih fun i n hm => hs i n (mem_append_left _ hm)
      cases e with
      | malloc i n =>
        obtain ⟨-, rfl, hc⟩ := hst
        exact ih.malloc (hp i) (hs i n (by simp)) hc
      | clear i =>
        cases hst
        exact ih.clear i
  refine ⟨fun i r hr => ?_, hi.disjoint, fun i j hne r hr t ht => ?_, hi.owned,
    fun i _ _ => clearAreas_spec fun a ha => (hi.good i a ha).2⟩
  · obtain ⟨hd, a, ha, hid, hle⟩ := hi.inside i r hr
    have hg := (hi.good i a ha).1
    exact ⟨hd, a, ha, hid, Nat.le_trans hle (hg.size_eq ▸ hg.used_le)⟩
  · obtain ⟨-, a, ha, hid, -⟩ := hi.inside i r hr
    obtain ⟨-, b, hb, hid', -⟩ := hi.inside j t ht
    refine .inl ?_
    rw [← hid, ← hid']
    exact hi.owned.apart (some i) (some j) (by simpa using hne) a ha b hb

/-- A pool and one with slices, for the example. -/
def twoPools (slices : Bool) : LinearPool := ⟨64, if slices then some 0 else none⟩

/-- Two allocations fill an area and a third one has an area of its own; the first area is recycled
and the other one is not. Then both pools allocate again, one of them from the recycler. -/
theorem ranges_inside_areas_recycled : ∃ s t : System Bool,
    Run (System.Step twoPools) {} [.malloc false 24, .malloc false 24, .malloc false 100] s ∧
      (s.ranges false).Pairwise Range.Disjoint ∧
      (∃ a b : Area, a.size = 64 ∧ b.size = 112 ∧
        (clearAreas (twoPools false) (s.areas (some false)) (s.areas none)).1 =
          [(a, .recycler), (b, .free)]) ∧
      Run (System.Step twoPools) {} [.malloc false 24, .malloc false 24, .malloc false 100,
        .clear false, .malloc false 8, .malloc true 1] t ∧
      t.areas none = [] ∧ (∃ r ∈ t.ranges false, r.area = 0) ∧
      ∀ r ∈ t.ranges false, ∀ u ∈ t.ranges true, r.Disjoint u := by
  have h : Run (System.Step twoPools) {}
      [.malloc false 24, .malloc false 24, .malloc false 100] _ :=
    .snoc (.snoc (.snoc .nil ⟨by decide, rfl, by decide⟩) ⟨by decide, rfl, by decide⟩)
      ⟨by decide, rfl, by decide⟩
  have hc := h.snoc (show System.Step twoPools _ (.clear false) _ from rfl)
  have hm := hc.snoc (show System.Step twoPools _ (.malloc false 8) _ from
    ⟨by decide, rfl, by decide⟩)
  have ht := hm.snoc (show System.Step twoPools _ (.malloc true 1) _ from
    ⟨by decide, rfl, by decide⟩)
  have hp : ∀ i, (twoPools i).areaSize + 32 < 2 ^ 64 := by decide
  refine ⟨_, _, h, (ranges_inside_areas hp h (by simp)).2.1 false, ⟨_, _, ?_, ?_, rfl⟩, ht,
    by decide, by decide, (ranges_inside_areas hp ht (by simp)).2.2.1 false true (by decide)⟩
  all_goals rfl

/-- The size wraps around: the range is larger than the area. -/
theorem malloc_wraps_around : ∃ s : System Unit,
    Run (System.Step fun _ => ⟨64, none⟩) {} [.malloc () (2 ^ 64 - 1)] s ∧
      ∃ r ∈ s.ranges (), ∀ a ∈ s.areas (some ()), a.capacity < r.offset + r.size :=
  ⟨_, .snoc .nil ⟨by decide, rfl, by decide⟩, by decide⟩

end BengProxy.Pool
