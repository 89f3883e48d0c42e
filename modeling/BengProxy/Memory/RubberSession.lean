import BengProxy.Base.Run
import BengProxy.Memory.RubberInvariant

/-!
# Using the rubber allocator

A session is an allocator together with the ids that `Add` returned and that were not yet
removed. Every sequence of allowed calls keeps the invariant of the allocator, and none of
them runs into undefined behaviour. `Tiled` spells out what the invariant says about the
two lists in the table, the memory map and the hole lists.
-/

namespace BengProxy.Memory

open Base Tiling RubberTable List Option

/-- One call of the public interface, `src/memory/Rubber.hxx:112-152`. `write` stores bytes
through the pointer that `Rubber::Write` returns. -/
inductive Call where
  | add (size : Nat)
  | remove (id : Nat)
  | shrink (id newSize : Nat)
  | compress
  | write (id position : Nat) (bytes : List UInt8)
  deriving DecidableEq

/-- An allocator and the ids its user holds. -/
structure Session where
  rubber : Rubber
  live : List Nat

/-- Where the operating system places the memory map: huge pages are a multiple of
`RUBBER_ALIGN` and so is the address of the map. -/
structure Placement where
  hugePageSize : Nat
  begin : Nat
  huge_pos : 0 < hugePageSize
  huge_aligned : rubberAlign ∣ hugePageSize
  begin_aligned : rubberAlign ∣ begin

namespace Session

/-- A freshly constructed allocator. -/
def new (p : Placement) (maxSize : Nat) : Session :=
  ⟨Rubber.new p.hugePageSize p.begin maxSize, []⟩

/-- What the caller owes: sizes are positive, ids are live, an object only gets smaller and
bytes are written only inside of it. -/
def Allowed (s : Session) : Call → Prop
  | .add size => 0 < size
  | .remove id => id ∈ s.live
  | .shrink id newSize => id ∈ s.live ∧ 0 < newSize ∧ newSize ≤ s.rubber.getSizeOf id
  | .compress => True
  | .write id position bytes => id ∈ s.live ∧ position + bytes.length ≤ s.rubber.getSizeOf id

instance (s : Session) (c : Call) : Decidable (s.Allowed c) := by
  cases c <;> unfold Allowed <;> infer_instance

/-- Run one call; `none` is undefined behaviour of the allocator. -/
def step (s : Session) : Call → Option Session
  | .add size => do
    let (id, r) ← s.rubber.add size
    some ⟨r, if id = 0 then s.live else id :: s.live⟩
  | .remove id => do
    let r ← s.rubber.remove id
    some ⟨r, s.live.erase id⟩
  | .shrink id newSize => do
    let r ← s.rubber.shrink id newSize
    some ⟨r, s.live⟩
  | .compress => do
    let r ← s.rubber.compress
    some ⟨r, s.live⟩
  | .write id position bytes => some ⟨s.rubber.write id position bytes, s.live⟩

/-- An allowed call and its outcome. -/
def Step (s : Session) (c : Call) (s' : Session) : Prop := s.Allowed c ∧ s.step c = some s'

/-- The allocator is well-formed and holds exactly the live objects. -/
def Valid (s : Session) : Prop :=
  ∃ bs fs, Inv s.rubber bs fs ∧ (bs.map Block.id).Perm s.live

end Session

private theorem dvd_alignHugePageUp_sub {p begin x : Nat} (hp : rubberAlign ∣ p)
    (hb : rubberAlign ∣ begin) : rubberAlign ∣ alignHugePageUp p x - begin :=
  Nat.dvd_sub (Dvd.dvd.mul_left hp _) hb

/-- A new allocator has no objects and no holes. -/
theorem Inv.new (p : Placement) (maxSize : Nat) :
    Inv (Rubber.new p.hugePageSize p.begin maxSize) [] [] where
  table := by
    refine ⟨⟨by simp, rfl, rfl⟩, by simp, by simp, rfl, rfl, by simp, ?_, Nat.one_pos, ?_⟩
    · intro id
      simp only [Rubber.new, RubberTable.new, map_nil, append_nil, not_mem_nil, false_iff]
      omega
    · exact Nat.le_add_left _ _
  ordered := True.intro
  aligned := by simp [Aligned]
  base := dvd_alignHugePageUp_sub p.huge_aligned p.begin_aligned
  fits h := absurd rfl h
  holes := ⟨by simp [gaps], List.Pairwise.nil, by simp [gaps], by simp [Rubber.new],
    by simp [gaps, Rubber.new]⟩
  netto := rfl
  huge := p.huge_pos

namespace Inv

variable {r : Rubber} {bs : List (Block Nat)} {fs : List Nat} {id : Nat}

private theorem write {p : Nat} {b : List UInt8} (h : Inv r bs fs)
    (hid : id ∈ bs.map Block.id) (hfi : p + b.length ≤ r.getSizeOf id) :
    Inv (r.write id p b) bs fs where
  table := h.table
  ordered := h.ordered
  aligned := h.aligned
  base := h.base
  fits := h.fits
  holes := by
    have hb := h.table.mem_of_id hid
    apply h.holes.of_mem
    intro g hg i hi
    have hro := h.holes.room g hg
    have hd := h.ordered.gap_disjoint hg hb
    apply Base.Memory.write_sameOutside
    simp only [Gap.stop, Block.stop, Rubber.getSizeOf, getSizeOf, getOffsetOf] at *
    omega
  netto := h.netto
  huge := h.huge

private theorem write_keeps {p : Nat} {b : List UInt8} {c : Block Nat} (h : Inv r bs fs)
    (hid : id ∈ bs.map Block.id) (hfi : p + b.length ≤ r.getSizeOf id)
    (hc : c ∈ bs) (hne : c.id ≠ id) : Keeps r (r.write id p b) c.id := by
  refine h.keeps_of_mem hc rfl rfl ?_
  intro x hx hx'
  have hd := h.ordered.disjoint (h.table.mem_of_id hid) hc fun he => hne (congrArg Block.id he).symm
  apply Base.Memory.write_sameOutside
  simp only [Block.stop, Rubber.getSizeOf, getSizeOf, getOffsetOf] at *
  omega

end Inv

/-- Replace the elements of a list from a position on. -/
def overwrite {α : Type} (xs : List α) (position : Nat) (ys : List α) : List α :=
  xs.take position ++ ys ++ xs.drop (position + ys.length)

@[simp] theorem length_read (r : Rubber) (id : Nat) : (r.read id).length = r.getSizeOf id := by
  simp [Rubber.read]

private theorem getElem?_read (r : Rubber) (id i : Nat) :
    (r.read id)[i]? =
      if i < r.getSizeOf id then some (r.mem (r.table.offsetOf id + i)) else none := by
  simp only [Rubber.read, getOffsetOf]
  split <;> simp_all

/-- An object that is kept reads the same. -/
theorem Keeps.read_eq {r r' : Rubber} {id : Nat} (h : Keeps r r' id) : r'.read id = r.read id := by
  apply ext_getElem?
  intro i
  rw [getElem?_read, getElem?_read, h.1]
  split
  · next hi => rw [h.2 i hi]
  · rfl

private theorem read_write (r : Rubber) (id position : Nat) (b : List UInt8)
    (hfi : position + b.length ≤ r.getSizeOf id) :
    (r.write id position b).read id = overwrite (r.read id) position (b.map .byte) := by
  apply ext_getElem?
  intro i
  have hs : (r.write id position b).getSizeOf id = r.getSizeOf id := rfl
  have hme : (r.write id position b).mem (r.table.offsetOf id + i) =
      r.mem.write (r.table.offsetOf id + position) b (r.table.offsetOf id + i) := rfl
  have ho : (r.write id position b).table.offsetOf id = r.table.offsetOf id := rfl
  have hpo : min position (r.getSizeOf id) = position := by omega
  rw [getElem?_read, hs, ho, hme, overwrite, append_assoc, getElem?_append,
    getElem?_append, length_take, length_read, hpo, length_map]
  by_cases hlt : i < position
  · -- before the bytes that are written
    rw [if_pos hlt, getElem?_take_of_lt hlt, getElem?_read]
    rw [Base.Memory.write_sameOutside _ _ _ _ (by omega)]
  rw [if_neg hlt]
  by_cases hin : i - position < b.length
  · rw [if_pos hin, if_pos (by omega), getElem?_map, getElem?_eq_getElem hin]
    have hi : r.table.offsetOf id + i = r.table.offsetOf id + position + (i - position) := by omega
    rw [hi, Base.Memory.write_apply _ _ _ _ hin]
    rfl
  · -- behind them
    rw [if_neg hin, getElem?_drop, getElem?_read]
    have hi : position + b.length + (i - position - b.length) = i := by omega
    rw [hi, Base.Memory.write_sameOutside _ _ _ _ (by omega)]

namespace Session

variable {s s' : Session} {c : Call}

/-- All live objects but those in `except` read the same. -/
def SameReads (s s' : Session) (except : Nat → Prop) : Prop :=
  ∀ id ∈ s.live, ¬ except id → s'.rubber.read id = s.rubber.read id

/-- What a call does to the live objects. -/
def Effect (s : Session) (c : Call) (s' : Session) : Prop :=
  match c with
  | .add size =>
    (s'.live = s.live ∨ ∃ id, id ≠ 0 ∧ id ∉ s.live ∧ s'.live = id :: s.live ∧
      s'.rubber.getSizeOf id = alignSize size) ∧ SameReads s s' fun _ => False
  | .remove id => s'.live = s.live.erase id ∧ SameReads s s' (· = id)
  | .shrink id newSize => s'.live = s.live ∧
    s'.rubber.read id = (s.rubber.read id).take (alignSize newSize) ∧ SameReads s s' (· = id)
  | .compress => s'.live = s.live ∧ SameReads s s' fun _ => False
  | .write id position bytes => s'.live = s.live ∧
    s'.rubber.read id = overwrite (s.rubber.read id) position (bytes.map .byte) ∧
    SameReads s s' (· = id)

private theorem sameReads_of_keeps {r : Rubber} {live : List Nat} {bs : List (Block Nat)}
    {except : Nat → Prop} (hp : (bs.map Block.id).Perm s.live)
    (hsu : ∀ b ∈ bs, ¬ except b.id → Keeps s.rubber r b.id) :
    SameReads s ⟨r, live⟩ except := by
  intro id hid he
  obtain ⟨b, hb, rfl⟩ := mem_map.mp (hp.mem_iff.mpr hid)
  exact (hsu b hb he).read_eq

private theorem split_live {bs : List (Block Nat)} {id : Nat}
    (hp : (bs.map Block.id).Perm s.live) (hid : id ∈ s.live) :
    ∃ xs b ys, bs = xs ++ b :: ys ∧ b.id = id := by
  obtain ⟨b, hb, rfl⟩ := mem_map.mp (hp.mem_iff.mpr hid)
  obtain ⟨xs, ys, rfl⟩ := append_of_mem hb
  exact ⟨xs, b, ys, rfl, rfl⟩

private theorem mem_of_ne {xs ys : List (Block Nat)} {b c : Block Nat} (hc : c ∈ xs ++ b :: ys)
    (hne : c.id ≠ b.id) : c ∈ xs ++ ys :=
  (mem_middle.mp hc).resolve_left fun he => hne (congrArg Block.id he)

/-- Every allowed call succeeds, the allocator stays well-formed, and the call has the
expected effect on the live objects. -/
theorem Valid.step (h : s.Valid) (ha : s.Allowed c) :
    ∃ s', s.step c = some s' ∧ s'.Valid ∧ s.Effect c s' := by
  obtain ⟨bs, fs, hi, hp⟩ := h
  cases c with
  | add size =>
    obtain ⟨id, r, he, had⟩ := hi.add ha
    obtain ⟨bs', fs', hi', hp'⟩ := had.inv
    refine ⟨⟨r, if id = 0 then s.live else id :: s.live⟩, ?_, ⟨bs', fs', hi', hp'.trans ?_⟩, ?_, ?_⟩
    · simp only [Session.step, he, bind_eq_bind, bind_some]
    · split
      · exact hp
      · exact hp.cons id
    · by_cases h0 : id = 0
      · exact .inl (if_pos h0)
      refine .inr ⟨id, h0, ?_, if_neg h0, had.size_eq h0⟩
      rw [if_neg h0] at hp'
      have hn := hp'.nodup hi'.table.nodup_ids
      intro hm
      exact (nodup_cons.mp hn).1 (hp.mem_iff.mpr hm)
    · exact sameReads_of_keeps hp fun b hb _ => had.keeps b hb
  | remove id =>
    obtain ⟨xs, b, ys, rfl, rfl⟩ := split_live hp ha
    obtain ⟨r, he, hi', -, -, hk⟩ := hi.remove
    refine ⟨⟨r, s.live.erase b.id⟩, ?_, ⟨_, _, hi', ?_⟩, rfl, ?_⟩
    · simp only [Session.step, he, bind_eq_bind, bind_some]
    · rw [map_append] at hp
      rw [map_append]
      have hpe := (perm_middle.symm.trans hp).erase b.id
      rwa [erase_cons_head] at hpe
    · apply sameReads_of_keeps hp
      exact fun c hc hne => hk c (mem_of_ne hc hne)
  | shrink id newSize =>
    obtain ⟨hid, h0, hle⟩ := ha
    obtain ⟨xs, b, ys, rfl, rfl⟩ := split_live hp hid
    rw [Rubber.getSizeOf, getSizeOf, hi.table.size_eq b (by simp)] at hle
    obtain ⟨r, he, hi', -, -, hk, hm⟩ := hi.shrink h0 hle
    refine ⟨⟨r, s.live⟩, ?_, ⟨_, _, hi', ?_⟩, rfl, ?_, ?_⟩
    · simp only [Session.step, he, bind_eq_bind, bind_some]
    · rw [map_append] at hp ⊢
      exact hp
    · have hsz : r.getSizeOf b.id = alignSize newSize :=
        hi'.table.size_eq ⟨b.id, b.offset, alignSize newSize⟩ (by simp)
      have ho : r.table.offsetOf b.id = b.offset :=
        hi'.table.offset_eq ⟨b.id, b.offset, alignSize newSize⟩ (by simp)
      have hal := alignSize_le hle (hi.aligned b (by simp)).2
      have hs : s.rubber.getSizeOf b.id = b.size := hi.table.size_eq b (by simp)
      apply ext_getElem?
      intro i
      rw [getElem?_read, getElem?_take, getElem?_read, hsz, ho, hi.table.offset_eq b (by simp)]
      split
      · next hlt => rw [if_pos (by omega), hm i hlt]
      · rfl
    · apply sameReads_of_keeps hp
      exact fun c hc hne => hk c (mem_of_ne hc hne)
  | compress =>
    obtain ⟨r, he, hi', -, -, hk⟩ := hi.compress
    refine ⟨⟨r, s.live⟩, ?_, ⟨_, fs, hi', ?_⟩, rfl, ?_⟩
    · simp only [Session.step, he, bind_eq_bind, bind_some]
    · rw [map_id_compact]
      exact hp
    · exact sameReads_of_keeps hp fun b hb _ => hk b hb
  | write id position bytes =>
    obtain ⟨hid, hfi⟩ := ha
    have hid' := hp.mem_iff.mpr hid
    refine ⟨_, rfl, ⟨bs, fs, hi.write hid' hfi, hp⟩, rfl, read_write _ _ _ _ hfi, ?_⟩
    exact sameReads_of_keeps hp fun b hb hne => hi.write_keeps hid' hfi hb hne

theorem Valid.nodup_live (h : s.Valid) : s.live.Nodup := by
  obtain ⟨bs, fs, hi, hp⟩ := h
  exact hp.nodup hi.table.nodup_ids

theorem valid_of_run {p : Placement} {maxSize : Nat} {calls : List Call}
    (h : Run Session.Step (Session.new p maxSize) calls s) : s.Valid := by
  refine h.invariant ⟨[], [], Inv.new p maxSize, List.Perm.refl _⟩ ?_
  rintro s c s' hv ⟨ha, he⟩
  obtain ⟨s'', he', hv', -⟩ := hv.step ha
  rw [he'] at he
  cases he
  exact hv'

end Session

/-- The space between two neighbours in the list of objects is covered by one hole: its header
names them, and it is linked once, in the list for its size. -/
def GapCovered (r : Rubber) (a b : Nat) : Prop :=
  let gapStart := (r.table.entries a).getEndOffset
  let gapEnd := r.table.offsetOf b
  gapStart ≤ gapEnd ∧ (gapStart < gapEnd →
    r.holeAt gapStart = some { size := gapEnd - gapStart, previousId := a, nextId := b } ∧
    ∀ bucket, (r.holes bucket).count gapStart =
      if bucket = lookupHoleThreshold (gapEnd - gapStart) then 1 else 0)

/-- The objects, in the `order` of the list, and the holes tile the memory map; the other
entries are on the `free` list. -/
structure Tiled (r : Rubber) (live order free : List Nat) : Prop where
  list : Ring r.table.nextOf r.table.previousOf 0 order
  order_live : order.Perm live
  increasing : order.Pairwise fun a b => r.table.offsetOf a < r.table.offsetOf b
  disjoint : order.Pairwise fun a b => (r.table.entries a).getEndOffset ≤ r.table.offsetOf b
  aligned : ∀ id ∈ order, rubberAlign ∣ r.table.offsetOf id ∧ rubberAlign ∣ r.table.sizeOf id
  inside : ∀ id ∈ order, r.table.getSize ≤ r.table.offsetOf id ∧
    (r.table.entries id).getEndOffset ≤ r.mapSize
  freeList : Stack r.table.nextOf 0 r.table.freeHead free
  free_nodup : free.Nodup
  mem_free : ∀ id, id ∈ free ↔ 0 < id ∧ id < r.table.initializedTail ∧ id ∉ live
  covered : ∀ a b, [a, b] <:+: 0 :: order → GapCovered r a b
  holes_only : ∀ bucket, ∀ offset ∈ r.holes bucket, ∃ a b, [a, b] <:+: 0 :: order ∧
    offset = (r.table.entries a).getEndOffset ∧ offset < r.table.offsetOf b
  none_behind : ∀ bucket, ∀ offset ∈ r.holes bucket, ∃ id ∈ order, offset < r.table.offsetOf id
  sizes : ∃ holeSize, r.getTotalHoleSize = some holeSize ∧ r.nettoSize + holeSize = r.getBruttoSize

namespace Inv

variable {r : Rubber} {bs : List (Block Nat)} {fs : List Nat}

private theorem gapCovered (h : Inv r bs fs) {a b : Nat}
    (hab : [a, b] <:+: 0 :: bs.map Block.id) : GapCovered r a b := by
  obtain ⟨xs, c, ys, rfl, rfl, rfl⟩ := infix_iff.mp hab
  have he := h.table.getEndOffset_last
  have ho := h.table.offset_eq c (by simp)
  obtain ⟨-, hle, -⟩ := ordered_append.mp h.ordered
  simp only [GapCovered]
  rw [he, ho]
  refine ⟨hle, fun hlt => ?_⟩
  let g : Gap Nat :=
    ⟨stop r.table.getSize xs, c.offset - stop r.table.getSize xs, lastId 0 xs, c.id⟩
  have hg : g ∈ gaps 0 r.table.getSize (xs ++ c :: ys) := by
    refine mem_gaps_iff.mpr ⟨xs, c, ys, rfl, ?_⟩
    rw [HolesAre.gapBefore_of_lt hlt]
    exact mem_singleton.mpr rfl
  refine ⟨h.holes.holeAt_eq g hg, ?_⟩
  intro bucket
  rw [(h.holes.nodup bucket).count]
  refine if_congr ?_ rfl rfl
  rw [h.holes.mem_iff]
  constructor
  · rintro ⟨k, hk, hko, rfl⟩
    rw [inj_on_of_nodup_map h.holes.nodup_offset hk hg hko]
  · rintro rfl
    exact ⟨g, hg, rfl, rfl⟩

private theorem gap_of_hole (h : Inv r bs fs) {bu o : Nat} (ho : o ∈ r.holes bu) :
    ∃ a b, [a, b] <:+: 0 :: bs.map Block.id ∧ o = (r.table.entries a).getEndOffset ∧
      o < r.table.offsetOf b := by
  obtain ⟨g, hg, rfl, -⟩ := (h.holes.mem_iff bu o).mp ho
  obtain ⟨xs, c, ys, rfl, hgo, -, hlt⟩ := gap_split hg
  refine ⟨lastId 0 xs, c.id, infix_iff.mpr ⟨xs, c, ys, rfl, rfl, rfl⟩, ?_, ?_⟩
  · rw [hgo, h.table.getEndOffset_last]
  · rw [hgo, h.table.offset_eq c (by simp)]
    exact hlt

private theorem tiled {live : List Nat} (h : Inv r bs fs) (hp : (bs.map Block.id).Perm live) :
    Tiled r live (bs.map Block.id) fs where
  list := h.table.ring
  order_live := hp
  increasing := by
    rw [pairwise_map]
    refine h.ordered.pairwise.imp_of_mem ?_
    intro b c hb hc hbc
    have hpo := (h.ordered.mem_bounds hb).2.1
    rw [h.table.offset_eq b hb, h.table.offset_eq c hc]
    simp only [Block.stop] at hbc
    omega
  disjoint := by
    rw [pairwise_map]
    refine h.ordered.pairwise.imp_of_mem ?_
    intro b c hb hc hbc
    rwa [h.table.getEndOffset_eq hb, h.table.offset_eq c hc]
  aligned id hid := h.aligned _ (h.table.mem_of_id hid)
  inside id hid := by
    obtain ⟨b, hb, rfl⟩ := mem_map.mp hid
    obtain ⟨hlo, -, hh⟩ := h.ordered.mem_bounds hb
    rw [h.table.offset_eq b hb, h.table.getEndOffset_eq hb]
    exact ⟨hlo, Nat.le_trans hh (h.fits (ne_nil_of_mem hb))⟩
  freeList := h.table.free
  free_nodup := (nodup_append.mp h.table.nodup).2.1
  mem_free id := by
    have hm := h.table.mem_ids id
    rw [mem_append, hp.mem_iff] at hm
    constructor
    · intro hf
      obtain ⟨h0, hlt⟩ := hm.mp (.inr hf)
      refine ⟨h0, hlt, fun hl => ?_⟩
      exact (nodup_append.mp h.table.nodup).2.2 id (hp.mem_iff.mpr hl) id hf rfl
    · rintro ⟨h0, hlt, hl⟩
      exact (hm.mpr ⟨h0, hlt⟩).resolve_left hl
  covered a b hab := h.gapCovered hab
  holes_only bucket offset ho := h.gap_of_hole ho
  none_behind bucket offset ho := by
    obtain ⟨a, b, hab, -, hlt⟩ := h.gap_of_hole ho
    obtain ⟨xs, c, ys, rfl, -, rfl⟩ := infix_iff.mp hab
    exact ⟨c.id, by simp, hlt⟩
  sizes := ⟨_, h.holes.getTotalHoleSize, by rw [h.netto, h.brutto]⟩

end Inv

/-- After every sequence of allowed calls, objects and holes tile the memory map, and every
further allowed call succeeds. -/
theorem tiled_of_run {p : Placement} {maxSize : Nat} {calls : List Call} {s : Session}
    (h : Run Session.Step (Session.new p maxSize) calls s) :
    (∃ order free, Tiled s.rubber s.live order free) ∧
      ∀ c, s.Allowed c → ∃ s', s.step c = some s' := by
  have hv := Session.valid_of_run h
  obtain ⟨bs, fs, hi, hp⟩ := id hv
  refine ⟨⟨_, _, hi.tiled hp⟩, ?_⟩
  intro c ha
  obtain ⟨s', he, -⟩ := hv.step ha
  exact ⟨s', he⟩

/-- A map at address 0 with pages of 4096 bytes. -/
def samplePlacement : Placement := ⟨4096, 0, by decide, by decide, by decide⟩

/-- Two objects; the first one leaves a hole, which is then closed. -/
theorem tiled_of_run_sample :
    ∃ s, Run Session.Step (Session.new samplePlacement 4096)
      [.add 100, .add 50, .remove 1, .compress] s ∧ s.live = [2] ∧
      ∃ order free, Tiled s.rubber s.live order free := by
  refine Run.exists_of (p := fun s => s.live = [2])
    ⟨_, .cons ⟨by decide, rfl⟩ (.cons ⟨by decide, rfl⟩ (.cons ⟨by decide, rfl⟩
      (.cons ⟨True.intro, rfl⟩ .nil))), rfl⟩ ?_
  intro s hr hl
  exact ⟨hl, (tiled_of_run hr).1⟩

end BengProxy.Memory
