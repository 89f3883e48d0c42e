import BengProxy.Base.Tiling
import BengProxy.Memory.Rubber

/-!
# What the hole lists mean

`HolesAre r gs`: the holes linked in the ten lists of `r` are exactly the gaps `gs`, each
linked once, in the list for its size, and with its header intact. The gaps do not overlap,
so writing the header of one leaves those of the others alone.
-/

namespace BengProxy.Memory

open Base Tiling Memory List Function Rubber

/-- The header that the hole filling a gap must have. -/
def header (g : Gap Nat) : Hole := { size := g.size, previousId := g.left, nextId := g.right }

/-- Two gaps do not overlap. -/
def Apart (g k : Gap Nat) : Prop := g.stop ≤ k.offset ∨ k.stop ≤ g.offset

/-- The linked holes are exactly the gaps `gs`. -/
structure HolesAre (r : Rubber) (gs : List (Gap Nat)) : Prop where
  room : ∀ g ∈ gs, sizeofHole ≤ g.size
  apart : gs.Pairwise Apart
  holeAt_eq : ∀ g ∈ gs, r.holeAt g.offset = some (header g)
  nodup : ∀ i, (r.holes i).Nodup
  mem_iff : ∀ i offset, offset ∈ r.holes i ↔
    ∃ g ∈ gs, g.offset = offset ∧ lookupHoleThreshold g.size = i

private theorem lookupHoleThreshold_lt (size : Nat) :
    lookupHoleThreshold size < nHoleThresholds := by
  unfold lookupHoleThreshold nHoleThresholds
  rw [findIdx_lt_length]
  exact ⟨0, by decide, by simp⟩

private theorem size_lt_of_lookup_lt {size size' : Nat}
    (h : lookupHoleThreshold size' < lookupHoleThreshold size) : size < size' := by
  have hl : lookupHoleThreshold size' < holeThresholds.length := lookupHoleThreshold_lt size'
  have h1 : decide (holeThresholds[lookupHoleThreshold size'] ≤ size') = true :=
    findIdx_getElem (w := hl)
  have h2 : decide (holeThresholds[lookupHoleThreshold size'] ≤ size) = false := not_of_lt_findIdx h
  rw [decide_eq_true_eq] at h1
  rw [decide_eq_false_iff_not] at h2
  omega

namespace HolesAre

variable {r : Rubber} {gs : List (Gap Nat)} {g k : Gap Nat}

/-- Only the lists and the memory matter. -/
theorem congr {r' : Rubber} (h : HolesAre r gs) (hh : r'.holes = r.holes)
    (hm : r'.mem = r.mem) : HolesAre r' gs where
  room := h.room
  apart := h.apart
  holeAt_eq g hg := by
    rw [← h.holeAt_eq g hg, holeAt, holeAt, hm]
  nodup := by rw [hh]; exact h.nodup
  mem_iff := by rw [hh]; exact h.mem_iff

/-- The order in which the gaps are listed does not matter. -/
theorem perm {gs' : List (Gap Nat)} (h : HolesAre r gs) (hp : gs.Perm gs') : HolesAre r gs' where
  room g hg := h.room g (hp.mem_iff.mpr hg)
  apart := hp.pairwise h.apart (fun h => h.symm)
  holeAt_eq g hg := h.holeAt_eq g (hp.mem_iff.mpr hg)
  nodup := h.nodup
  mem_iff i offset := by
    rw [h.mem_iff]
    exact exists_congr fun g => and_congr_left' hp.mem_iff

private theorem offset_ne (h : HolesAre r (g :: gs)) (hk : k ∈ gs) : k.offset ≠ g.offset := by
  have ha := (pairwise_cons.mp h.apart).1 k hk
  have hg := h.room g (by simp)
  have hk := h.room k (by simp [hk])
  simp only [Apart, Gap.stop, sizeofHole] at ha hg hk
  omega

/-- Unlinking the hole of a gap removes the gap. -/
theorem removeHole (h : HolesAre r (g :: gs)) : HolesAre (r.removeHole g.offset) gs where
  room k hk := h.room k (mem_cons_of_mem _ hk)
  apart := (pairwise_cons.mp h.apart).2
  holeAt_eq k hk := h.holeAt_eq k (mem_cons_of_mem _ hk)
  nodup i := (h.nodup i).erase _
  mem_iff i offset := by
    simp only [Rubber.removeHole]
    rw [(h.nodup i).mem_erase_iff, h.mem_iff]
    constructor
    · rintro ⟨hne, k, hk, rfl, hi⟩
      rcases mem_cons.mp hk with rfl | hk
      · exact absurd rfl hne
      · exact ⟨k, hk, rfl, hi⟩
    · rintro ⟨k, hk, rfl, hi⟩
      exact ⟨h.offset_ne hk, k, mem_cons_of_mem _ hk, rfl, hi⟩

/-- A change of the memory outside all gaps does not affect the holes. -/
theorem of_mem (h : HolesAre r gs) {mem : Base.Memory Hole}
    (hm : ∀ g ∈ gs, ∀ i < sizeofHole, mem (g.offset + i) = r.mem (g.offset + i)) :
    HolesAre { r with mem } gs where
  room := h.room
  apart := h.apart
  holeAt_eq g hg := by
    rw [← h.holeAt_eq g hg]
    exact load_congr (by decide) (hm g hg)
  nodup := h.nodup
  mem_iff := h.mem_iff

private theorem setHole (h : HolesAre r gs) {o : Nat} (hole : Hole)
    (hd : ∀ g ∈ gs, g.stop ≤ o ∨ o + sizeofHole ≤ g.offset) :
    HolesAre (r.setHole o hole) gs := by
  apply h.of_mem
  intro g hg i hi
  apply store_sameOutside
  have hs := h.room g hg
  have hg := hd g hg
  simp only [Gap.stop] at hg
  omega

private theorem addToHoleList (h : HolesAre r gs) (hs : sizeofHole ≤ g.size)
    (ha : ∀ k ∈ gs, Apart g k)
    (hg : r.holeAt g.offset = some (header g)) :
    HolesAre (r.addToHoleList g.offset g.size) (g :: gs) where
  room := forall_mem_cons.mpr ⟨hs, h.room⟩
  apart := pairwise_cons.mpr ⟨ha, h.apart⟩
  holeAt_eq := forall_mem_cons.mpr ⟨hg, h.holeAt_eq⟩
  nodup i := by
    simp only [Rubber.addToHoleList]
    by_cases hi : i = lookupHoleThreshold g.size
    · subst hi
      rw [update_self, nodup_cons]
      refine ⟨?_, h.nodup _⟩
      rw [h.mem_iff]
      rintro ⟨k, hk, he, -⟩
      have hak := ha k hk
      have hrk := h.room k hk
      simp only [Apart, Gap.stop, sizeofHole] at hak hrk hs
      omega
    · rw [update_of_ne hi]
      exact h.nodup i
  mem_iff i offset := by
    simp only [Rubber.addToHoleList]
    by_cases hi : i = lookupHoleThreshold g.size
    · subst hi
      rw [update_self, mem_cons, h.mem_iff]
      simp only [mem_cons, exists_eq_or_imp, and_true]
      exact or_congr_left eq_comm
    rw [update_of_ne hi, h.mem_iff]
    simp only [mem_cons, exists_eq_or_imp]
    constructor
    · exact .inr
    · rintro (⟨-, he⟩ | hk)
      · exact absurd he.symm hi
      · exact hk

private theorem addHole (h : HolesAre r gs) (hs : sizeofHole ≤ g.size) (ha : ∀ k ∈ gs, Apart g k) :
    HolesAre (r.addHole g.offset g.size g.left g.right) (g :: gs) := by
  apply addToHoleList (g := g) _ hs ha
  · exact load_store _ _ _ _ (by decide)
  · apply h.setHole
    intro k hk
    have hak := ha k hk
    simp only [Apart, Gap.stop] at hak ⊢
    omega

private theorem findHoleIn_spec (size : Nat) (of : List Nat)
    (ho : ∀ o ∈ of, ∃ g ∈ gs, g.offset = o) (h : HolesAre r gs)
    (best : Option (Nat × Hole)) (i : Nat)
    (hb : ∀ b ∈ best, ∃ g ∈ gs, b = (g.offset, header g) ∧ size ≤ g.size) :
    ∃ best', findHoleIn r.mem size of best i = some best' ∧
      ∀ b ∈ best', ∃ g ∈ gs, b = (g.offset, header g) ∧ size ≤ g.size := by
  induction of generalizing best i with
  | nil => exact ⟨best, rfl, hb⟩
  | cons o rest ih =>
    obtain ⟨g, hg, rfl⟩ := ho o (by simp)
    have hr : ∀ o ∈ rest, ∃ g ∈ gs, g.offset = o := fun o hm => ho o (mem_cons_of_mem _ hm)
    have hl : r.mem.load g.offset sizeofHole = some (header g) := h.holeAt_eq g hg
    simp only [findHoleIn, hl]
    split
    · next hc =>
      -- a better candidate
      have hn : ∀ b ∈ some (g.offset, header g),
          ∃ g ∈ gs, b = (g.offset, header g) ∧ size ≤ g.size := by
        intro b hb
        obtain rfl := Option.mem_some.mp hb
        exact ⟨g, hg, rfl, hc.1⟩
      split
      · exact ⟨_, rfl, hn⟩
      · split
        · exact ⟨_, rfl, hn⟩
        · exact ih hr _ _ hn
    · split
      · split
        · exact ⟨_, rfl, hb⟩
        · exact ih hr _ _ hb
      · exact ih hr _ _ hb

private theorem frontBelow_spec (ho : Nat → List Nat) (b : Nat) {of : Nat}
    (h : frontBelow ho b = some of) : ∃ i < b, of ∈ ho i := by
  induction b with
  | zero => simp [frontBelow] at h
  | succ b ih =>
    rw [frontBelow] at h
    split at h
    · next o rest he =>
      obtain rfl := Option.some.inj h
      exact ⟨b, Nat.lt_succ_self _, by rw [he]; exact mem_cons_self⟩
    · obtain ⟨i, hi, hm⟩ := ih h
      exact ⟨i, Nat.lt_succ_of_lt hi, hm⟩

/-- `FindHole` finds a gap that is large enough, or nothing. -/
theorem findHole (h : HolesAre r gs) (size : Nat) :
    r.findHole size = some none ∨
      ∃ g ∈ gs, size ≤ g.size ∧ r.findHole size = some (some g.offset) := by
  have ho : ∀ o ∈ r.holes (lookupHoleThreshold size), ∃ g ∈ gs, g.offset = o := by
    intro o hm
    obtain ⟨g, hg, he, -⟩ := (h.mem_iff _ _).mp hm
    exact ⟨g, hg, he⟩
  obtain ⟨best, hf, hb⟩ := findHoleIn_spec size _ ho h none 0 (by simp)
  simp only [Rubber.findHole, hf]
  cases best with
  | some b =>
    obtain ⟨g, hg, rfl, hs⟩ := hb b rfl
    exact .inr ⟨g, hg, hs, rfl⟩
  | none =>
    cases hfb : frontBelow r.holes (lookupHoleThreshold size) with
    | none => exact .inl rfl
    | some o =>
      obtain ⟨i, hi, hm⟩ := frontBelow_spec _ _ hfb
      obtain ⟨g, hg, rfl, rfl⟩ := (h.mem_iff _ _).mp hm
      exact .inr ⟨g, hg, Nat.le_of_lt (size_lt_of_lookup_lt hi), rfl⟩

/-- `UseHole` links the object and leaves a gap behind it, if there is any room left. -/
theorem useHole (h : HolesAre r (g :: gs)) (id : Nat) {size : Nat}
    (hs : size = g.size ∨ size + sizeofHole ≤ g.size) :
    ∃ holes mem,
      r.useHole g.offset id size =
        some { r with table := r.table.link id g.left g.right, holes, mem } ∧
      HolesAre { r with table := r.table.link id g.left g.right, holes, mem }
        (gapBefore id (g.offset + size) ⟨g.right, g.stop, 0⟩ ++ gs) ∧
      r.mem.SameOutside mem (g.offset + size) g.stop := by
  have hh := h.holeAt_eq g (by simp)
  have hr := h.removeHole
  simp only [Rubber.useHole, hh, header, Option.bind_eq_bind, Option.bind_some]
  by_cases hc : size ≠ g.size
  · have hs : size + sizeofHole ≤ g.size := by tauto
    rw [if_pos hc]
    let k : Gap Nat := ⟨g.offset + size, g.size - size, id, g.right⟩
    have hk : gapBefore id (g.offset + size) ⟨g.right, g.stop, 0⟩ = [k] := by
      rw [gapBefore, if_pos (by simp only [Gap.stop]; omega)]
      simp only [k, Gap.stop, List.cons.injEq, Gap.mk.injEq, and_true, true_and]
      omega
    refine ⟨_, _, rfl, ?_, ?_⟩
    · rw [hk]
      have hka : ∀ l ∈ gs, Apart k l := by
        intro l hl
        have ha := (pairwise_cons.mp h.apart).1 l hl
        simp only [Apart, Gap.stop, k] at ha ⊢
        omega
      exact (hr.addHole (g := k) (by simp only [k]; omega) hka).congr rfl rfl
    · intro x hx
      apply store_sameOutside
      simp only [Gap.stop] at hx
      omega
  · rw [if_neg hc]
    obtain rfl : size = g.size := by tauto
    refine ⟨_, _, rfl, ?_, fun _ _ => rfl⟩
    have hk : gapBefore id (g.offset + g.size) ⟨g.right, g.stop, 0⟩ = [] := by
      rw [gapBefore, if_neg (by simp [Gap.stop])]
    rw [hk]
    exact hr.congr rfl rfl

/-- A gap before a block that starts behind the position. -/
theorem gapBefore_of_lt {left pos : Nat} {b : Block Nat} (h : pos < b.offset) :
    gapBefore left pos b = [⟨pos, b.offset - pos, left, b.id⟩] := if_pos h

/-- No gap before a block that starts at the position. -/
theorem gapBefore_of_le {left pos : Nat} {b : Block Nat} (h : b.offset ≤ pos) :
    gapBefore left pos b = [] := if_neg (by omega)

/-- `AddHoleAfter` turns the range between the object `ref` and the block `c` behind it into
one gap, given that the part from `b` on, of `size` bytes, is all that is not one yet. -/
theorem addHoleAfter (ref : Nat) {size left pos : Nat} {b c : Block Nat}
    (h : HolesAre r (gapBefore ref pos b ++ (gapBefore left (b.offset + size) c ++ gs)))
    (hpo : (r.table.entries ref).getEndOffset = pos) (hn : r.table.nextOf ref = c.id)
    (ho : r.table.offsetOf c.id = c.offset) (hb : pos ≤ b.offset)
    (hc : b.offset + size ≤ c.offset) (hs : sizeofHole ≤ size)
    (hd : ∀ g ∈ gs, g.stop ≤ pos ∨ c.offset ≤ g.offset) :
    ∃ holes mem, r.addHoleAfter ref b.offset size = some { r with holes, mem } ∧
      HolesAre { r with holes, mem } (gapBefore ref pos c ++ gs) ∧
      r.mem.SameOutside mem pos c.offset := by
  have h0 : 0 < sizeofHole := by decide
  have hlt : pos < c.offset := by omega
  rw [gapBefore_of_lt hlt]
  simp only [RubberTable.nextOf, RubberTable.offsetOf] at hn ho
  have ha : ∀ g ∈ gs, Apart ⟨pos, c.offset - pos, ref, c.id⟩ g := by
    intro g hg
    have hg := hd g hg
    simp only [Apart, Gap.stop] at hg ⊢
    omega
  let g : Gap Nat := ⟨pos, c.offset - pos, ref, c.id⟩
  have hg : sizeofHole ≤ g.size := by simp only [g]; omega
  have hfr : ∀ k ∈ gs, k.stop ≤ pos ∨ pos + sizeofHole ≤ k.offset := by
    intro k hk
    have hk := hd k hk
    omega
  by_cases hA : pos < b.offset
  · -- follows an existing hole: grow the existing one
    rw [gapBefore_of_lt hA] at h
    have hf' : ∀ k ∈ gapBefore left (b.offset + size) c ++ gs,
        k.stop ≤ pos ∨ pos + sizeofHole ≤ k.offset := by
      intro k hk
      have hap := (pairwise_cons.mp h.apart).1 k hk
      have hr := h.room ⟨pos, b.offset - pos, ref, b.id⟩ (by simp)
      simp only [Apart, Gap.stop] at hap hr ⊢
      omega
    have hole := h.holeAt_eq ⟨pos, b.offset - pos, ref, b.id⟩ (by simp)
    have h' := h.removeHole.setHole ⟨b.offset - pos + size, ref, c.id⟩ hf'
    by_cases hB : b.offset + size < c.offset
    · -- there's another hole to merge with
      rw [gapBefore_of_lt hB] at h'
      have hole' :=
        h'.holeAt_eq ⟨b.offset + size, c.offset - (b.offset + size), left, c.id⟩ (by simp)
      have he : pos + (b.offset - pos + size) = b.offset + size := by omega
      have hsz : b.offset - pos + size + (c.offset - (b.offset + size)) = c.offset - pos := by omega
      let r' := (((r.removeHole pos).setHole pos ⟨b.offset - pos + size, ref, c.id⟩).removeHole
        (b.offset + size)).setHole pos ⟨c.offset - pos, ref, c.id⟩
      have had : r.addHoleAfter ref b.offset size =
          some (r'.addToHoleList pos (c.offset - pos)) := by
        simp only [Rubber.addHoleAfter, hn, ho, hpo, hA, if_true, hole, header,
          Option.bind_eq_bind, Option.bind_some, he, hB, hole', hsz, r']
      refine ⟨_, _, had, ?_, ?_⟩
      · have hr := h'.removeHole.setHole ⟨c.offset - pos, ref, c.id⟩ hfr
        exact hr.addToHoleList (g := g) hg ha (load_store _ _ _ _ h0)
      · intro x hx
        have hx : x < pos ∨ pos + sizeofHole ≤ x := by omega
        exact (store_sameOutside _ _ _ _ x hx).trans
          (store_sameOutside _ _ _ _ x hx)
    · have hsz : b.offset - pos + size = c.offset - pos := by omega
      rw [gapBefore_of_le (by omega), hsz] at h'
      let r' := (r.removeHole pos).setHole pos ⟨c.offset - pos, ref, c.id⟩
      have had : r.addHoleAfter ref b.offset size =
          some (r'.addToHoleList pos (c.offset - pos)) := by
        simp only [Rubber.addHoleAfter, hn, ho, hpo, hA, if_true, hole, header,
          Option.bind_eq_bind, Option.bind_some, hsz]
        rw [if_neg (by omega)]
      refine ⟨_, _, had, ?_, ?_⟩
      · exact h'.addToHoleList (g := g) hg ha (load_store _ _ _ _ h0)
      · intro x hx
        exact store_sameOutside _ _ _ _ x (by omega)
  · obtain rfl : pos = b.offset := by omega
    rw [gapBefore_of_le (Nat.le_refl _)] at h
    have hme (r' : Rubber) (hr' : r'.mem = r.mem) :
        r.mem.SameOutside (r'.addHole b.offset (c.offset - b.offset) ref c.id).mem b.offset
          c.offset := by
      intro x hx
      have hst := store_sameOutside r'.mem b.offset sizeofHole
        ⟨c.offset - b.offset, ref, c.id⟩ x (by omega)
      rw [hr'] at hst
      rw [← hst]
      simp only [Rubber.addHole, Rubber.addToHoleList, Rubber.setHole, hr']
    by_cases hB : b.offset + size < c.offset
    · -- precedes an existing hole: merge the new hole and the existing one
      rw [gapBefore_of_lt hB] at h
      have hole := h.holeAt_eq ⟨b.offset + size, c.offset - (b.offset + size), left, c.id⟩ (by simp)
      have hsz : size + (c.offset - (b.offset + size)) = c.offset - b.offset := by omega
      have had : r.addHoleAfter ref b.offset size =
          some ((r.removeHole (b.offset + size)).addHole b.offset (c.offset - b.offset) ref
            c.id) := by
        simp only [Rubber.addHoleAfter, hn, ho, hpo, hA, if_false, hB, if_true, hole, header,
          Option.bind_eq_bind, Option.bind_some, hsz]
      exact ⟨_, _, had, h.removeHole.addHole (g := g) hg ha, hme _ rfl⟩
    -- no existing hole before or after the new one
    have hsz : size = c.offset - b.offset := by omega
    rw [gapBefore_of_le (by omega)] at h
    have had : r.addHoleAfter ref b.offset size =
        some (r.addHole b.offset (c.offset - b.offset) ref c.id) := by
      simp only [Rubber.addHoleAfter, hn, ho, hpo, hA, if_false, hB]
      rw [hsz]
    exact ⟨_, _, had, h.addHole (g := g) hg ha, hme _ rfl⟩

-- the loops over the lists, with an accumulator
private theorem foldlM_some {ι β : Type} {f : ι → Option β} {w : β → Nat} {size : ι → Nat}
    (xs : List ι) (hf : ∀ x ∈ xs, ∃ v, f x = some v ∧ w v = size x) (acc : Nat) :
    xs.foldlM (fun result x => do let v ← f x; some (result + w v)) acc =
      some (acc + (xs.map size).sum) := by
  induction xs generalizing acc with
  | nil => simp
  | cons x xs ih =>
    obtain ⟨v, hv, hw⟩ := hf x (by simp)
    rw [foldlM_cons, hv]
    simp only [Option.bind_eq_bind, Option.bind_some, map_cons, sum_cons, hw]
    rw [← add_assoc]
    exact ih (fun y hy => hf y (mem_cons_of_mem _ hy)) _

private theorem totalGaps_cons (g : Gap Nat) (gs : List (Gap Nat)) :
    totalGaps (g :: gs) = g.size + totalGaps gs := by
  simp [totalGaps]

private theorem totalGaps_filter_succ (c : Gap Nat → Nat) (gs : List (Gap Nat)) (n : Nat) :
    totalGaps (gs.filter fun g => c g < n) + totalGaps (gs.filter fun g => c g = n) =
      totalGaps (gs.filter fun g => c g < n + 1) := by
  induction gs with
  | nil => rfl
  | cons g gs ih =>
    simp only [filter_cons, decide_eq_true_eq]
    rcases Nat.lt_trichotomy (c g) n with hlt | he | hg
    · rw [if_pos hlt, if_neg (by omega), if_pos (by omega), totalGaps_cons, totalGaps_cons]
      omega
    · rw [if_neg (by omega), if_pos he, if_pos (by omega), totalGaps_cons, totalGaps_cons]
      omega
    · rw [if_neg (by omega), if_neg (by omega), if_neg (by omega)]
      exact ih

-- the gaps of the classes below `n`, class by class

private theorem sum_classes (c : Gap Nat → Nat) (gs : List (Gap Nat)) (n : Nat) :
    ((List.range n).map fun i => totalGaps (gs.filter fun g => c g = i)).sum =
      totalGaps (gs.filter fun g => c g < n) := by
  induction n with
  | zero => simp [totalGaps]
  | succ n ih =>
    rw [range_succ, map_append, sum_append, ih]
    exact totalGaps_filter_succ c gs n

theorem nodup_offset (h : HolesAre r gs) : (gs.map Gap.offset).Nodup := by
  rw [List.Nodup, pairwise_map]
  refine h.apart.imp_of_mem ?_
  intro g k hg hk ha
  have hg := h.room g hg
  have hk := h.room k hk
  simp only [Apart, Gap.stop, sizeofHole] at ha hg hk
  omega

private theorem holes_perm (h : HolesAre r gs) (b : Nat) :
    (r.holes b).Perm
      ((gs.filter fun g => lookupHoleThreshold g.size = b).map Gap.offset) := by
  rw [perm_ext_iff_of_nodup (h.nodup b) (h.nodup_offset.sublist (filter_sublist.map _))]
  intro offset
  rw [h.mem_iff]
  grind

/-- The total hole size is that of the gaps. -/
theorem getTotalHoleSize (h : HolesAre r gs) : r.getTotalHoleSize = some (totalGaps gs) := by
  have hli (bucket : Nat) : totalHoleSizeOf r.mem (r.holes bucket) =
      some (totalGaps (gs.filter fun g => lookupHoleThreshold g.size = bucket)) := by
    let sizeAt (offset : Nat) : Nat := ((r.holeAt offset).map Hole.size).getD 0
    have hs (g : Gap Nat) (hg : g ∈ gs) : sizeAt g.offset = g.size := by
      simp only [sizeAt, h.holeAt_eq g hg, header, Option.map_some, Option.getD_some]
    have hre : ∀ offset ∈ r.holes bucket,
        ∃ hole, r.mem.load offset sizeofHole = some hole ∧ hole.size = sizeAt offset := by
      intro offset ho
      obtain ⟨g, hg, rfl, -⟩ := (h.mem_iff bucket offset).mp ho
      exact ⟨header g, h.holeAt_eq g hg, (hs g hg).symm⟩
    rw [totalHoleSizeOf, foldlM_some _ hre, zero_add,
      ((h.holes_perm bucket).map sizeAt).sum_eq, map_map]
    congr 2
    apply map_congr_left
    intro g hg
    exact hs g (mem_of_mem_filter hg)
  rw [Rubber.getTotalHoleSize, foldlM_some _ (fun bucket _ => ⟨_, hli bucket, rfl⟩), zero_add,
    sum_classes]
  congr 2
  rw [filter_eq_self]
  intro g _
  simpa using lookupHoleThreshold_lt g.size

end HolesAre
end BengProxy.Memory
