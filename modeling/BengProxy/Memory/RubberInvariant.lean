import BengProxy.Memory.HoleInvariant
import BengProxy.Memory.TableInvariant

/-!
# The invariant of the rubber allocator and its operations

`Inv r bs fs`: the table of `r` describes the blocks `bs` and the free ids `fs`, the blocks
are aligned and follow each other inside the memory map, the holes are exactly the gaps
between them, and the netto size is the sum of the block sizes. There is one theorem per
operation of `src/memory/Rubber.cxx`; each also says that the contents of all objects it is
not about survive (`Keeps`).
-/

namespace BengProxy.Memory

open Base Tiling Memory List Function RubberTable Rubber Option HolesAre

variable {size : Nat}

/-- The allocator state means the blocks `bs`, with the free ids `fs`. -/
structure Inv (r : Rubber) (bs : List (Block Nat)) (fs : List Nat) : Prop where
  table : TableIs r.table bs [] fs
  ordered : Ordered r.table.getSize bs
  aligned : Aligned rubberAlign bs
  base : rubberAlign ∣ r.table.getSize
  fits : bs ≠ [] → stop r.table.getSize bs ≤ r.mapSize
  holes : HolesAre r (gaps 0 r.table.getSize bs)
  netto : r.nettoSize = total bs
  huge : 0 < r.hugePageSize

/-- Object `id` has the same size and the same contents in both states. -/
def Keeps (r r' : Rubber) (id : Nat) : Prop :=
  r'.getSizeOf id = r.getSizeOf id ∧
  ∀ i < r.getSizeOf id, r'.mem (r'.table.offsetOf id + i) = r.mem (r.table.offsetOf id + i)

theorem Keeps.refl (r : Rubber) (id : Nat) : Keeps r r id := ⟨rfl, fun _ _ => rfl⟩

theorem Keeps.trans {r r' r'' : Rubber} {id : Nat} (h : Keeps r r' id) (h' : Keeps r' r'' id) :
    Keeps r r'' id := by
  refine ⟨h'.1.trans h.1, ?_⟩
  intro i hi
  rw [h'.2 i (by rw [h.1]; exact hi), h.2 i hi]

theorem le_alignSize (n : Nat) : n ≤ alignSize n := by
  unfold alignSize rubberAlign
  omega

theorem dvd_alignSize (n : Nat) : rubberAlign ∣ alignSize n := Nat.dvd_mul_left _ _

theorem alignSize_le {n m : Nat} (h : n ≤ m) (hm : rubberAlign ∣ m) : alignSize n ≤ m := by
  unfold alignSize rubberAlign at *
  omega

theorem le_alignHugePageUp {hugePageSize : Nat} (h : 0 < hugePageSize) (x : Nat) :
    x ≤ alignHugePageUp hugePageSize x := by
  have hm := Nat.mod_lt (x + (hugePageSize - 1)) h
  have hd := Nat.div_add_mod (x + (hugePageSize - 1)) hugePageSize
  unfold alignHugePageUp
  rw [mul_comm]
  omega

private theorem sizeofHole_le {n : Nat} (hn : rubberAlign ∣ n) (h0 : 0 < n) : sizeofHole ≤ n :=
  Nat.le_of_dvd h0 hn

namespace Inv

variable {r : Rubber} {bs xs ys : List (Block Nat)} {b c : Block Nat} {fs : List Nat}

/-- The brutto size covers the blocks and the gaps. -/
theorem brutto (h : Inv r bs fs) :
    r.getBruttoSize = total bs + totalGaps (gaps 0 r.table.getSize bs) := by
  rw [Rubber.getBruttoSize, h.table.getBruttoSize_eq, h.ordered.stop_eq 0]
  omega

/-- A change of the memory that spares a block keeps its contents. -/
theorem keeps_of_mem (h : Inv r bs fs) {r' : Rubber} (hb : b ∈ bs)
    (ho : r'.table.offsetOf b.id = r.table.offsetOf b.id)
    (hs : r'.table.sizeOf b.id = r.table.sizeOf b.id)
    (hm : ∀ x, b.offset ≤ x → x < b.stop → r'.mem x = r.mem x) : Keeps r r' b.id := by
  refine ⟨hs, ?_⟩
  intro i hi
  have hsz : r.getSizeOf b.id = b.size := h.table.size_eq b hb
  rw [ho, h.table.offset_eq b hb]
  exact hm _ (by omega) (by simp only [Block.stop]; omega)

theorem gaps_split (left pos : Nat) (xs ys : List (Block Nat)) (b : Block Nat) :
    (gaps left pos (xs ++ b :: ys)).Perm
      (gapBefore (lastId left xs) (stop pos xs) b ++
        (gaps left pos xs ++ gaps b.id b.stop ys)) := by
  rw [gaps_append]
  exact perm_append_comm_assoc _ _ _

end Inv

/-- Discarding a hole changes only the lists. -/
theorem discardHoleBetween_eq (r : Rubber) (a o : RubberObject) :
    r.discardHoleBetween a o = { r with holes := (r.discardHoleBetween a o).holes } := by
  unfold discardHoleBetween
  cases findHoleBetween a o <;> rfl

private theorem HolesAre.discardHoleBetween {r : Rubber} {gs : List (Gap Nat)} {left pos : Nat}
    {b : Block Nat} {a o : RubberObject} (h : HolesAre r (gapBefore left pos b ++ gs))
    (ha : a.getEndOffset = pos) (ho : o.offset = b.offset) :
    HolesAre (r.discardHoleBetween a o) gs := by
  unfold Rubber.discardHoleBetween Rubber.findHoleBetween
  rw [ha, ho]
  by_cases hlt : pos < b.offset
  · rw [if_pos hlt]
    rw [gapBefore_of_lt hlt] at h
    exact h.removeHole
  · rw [if_neg hlt]
    rw [gapBefore_of_le (by omega)] at h
    exact h

namespace Inv

variable {r : Rubber} {bs xs ys : List (Block Nat)} {b c : Block Nat} {fs : List Nat}

private theorem replaceWithHole {t : RubberTable} (h : Inv r (xs ++ b :: ys) fs) (n : Nat)
    (ht : TableIs t (xs ++ ys) [] (b.id :: fs)) (hsi : t.getSize = r.table.getSize)
    {o : RubberObject} (ho : o.offset = b.offset) (hs : o.size = b.size) :
    ∃ holes mem,
      replaceWithHole { r with table := t, nettoSize := n } o (lastId 0 xs)
        (firstId 0 ys) = some { r with table := t, nettoSize := n, holes, mem } ∧
      HolesAre { r with holes, mem } (gaps 0 r.table.getSize (xs ++ ys)) ∧
      r.mem.SameOutside mem (stop r.table.getSize xs) (start (stop r.table.getSize xs) ys) := by
  obtain ⟨hx, hbo⟩ := ordered_append.mp h.ordered
  have hh := h.holes.perm (gaps_split 0 r.table.getSize xs ys b)
  have hpo : (t.entries (lastId 0 xs)).getEndOffset = stop r.table.getSize xs := by
    rw [← hsi]; exact ht.getEndOffset_last
  cases ys with
  | nil =>
    -- this is the last allocation
    have hd := hh.discardHoleBetween (a := t.entries (lastId 0 xs)) (o := o) hpo ho
    refine ⟨(r.discardHoleBetween (t.entries (lastId 0 xs)) o).holes, r.mem, ?_, ?_, fun _ _ => rfl⟩
    · simp only [replaceWithHole]
      unfold Rubber.discardHoleBetween
      cases findHoleBetween (t.entries (lastId 0 xs)) o <;> rfl
    · rw [gaps, append_nil, discardHoleBetween_eq] at hd
      rw [append_nil]
      exact hd
  | cons c ys =>
    have hc0 : firstId 0 (c :: ys) ≠ 0 := Nat.ne_of_gt (ht.id_pos (b := c) (by simp))
    have hb := h.aligned b (by simp)
    obtain ⟨hbc, hbs, hc, hcs, hy⟩ := hbo
    have hp := hh.perm ((perm_append_comm_assoc _ _ _).append_left _)
    have hp' : HolesAre { r with table := t, nettoSize := n } _ := hp.congr rfl rfl
    obtain ⟨holes, mem, he, hh', hm⟩ := hp'.addHoleAfter (lastId 0 xs) hpo
      ht.cut.1 (ht.offset_eq c (by simp)) hbc hc (sizeofHole_le hb.2 hbs) (by
        intro g hg
        rcases mem_append.mp hg with hg | hg
        · exact .inl (hx.gap_bounds hg).2.2
        · have := (hy.gap_bounds hg).1
          simp only [Block.stop] at this
          omega)
    refine ⟨holes, mem, ?_, ?_, hm⟩
    · simp only [replaceWithHole, if_neg hc0, ho, hs]
      exact he
    · exact (hh'.perm (gaps_split 0 r.table.getSize xs ys c).symm).congr rfl rfl

/-- `Remove` takes the block out and frees its id. -/
theorem remove (h : Inv r (xs ++ b :: ys) fs) :
    ∃ r', r.remove b.id = some r' ∧ Inv r' (xs ++ ys) (b.id :: fs) ∧
      r'.table.getSize = r.table.getSize ∧ r'.mapSize = r.mapSize ∧
      ∀ c ∈ xs ++ ys, Keeps r r' c.id := by
  obtain ⟨hsz, ht, hto, hts⟩ := h.table.remove
  have hb : (r.table.remove b.id).2.getSize = r.table.getSize := congrFun hts 0
  obtain ⟨hnx, hpr⟩ := h.table.links
  have ho := h.table.offset_eq b (by simp)
  have hs := h.table.size_eq b (by simp)
  obtain ⟨holes, mem, he, hh, hm⟩ := h.replaceWithHole (r.nettoSize - b.size) ht hb
    (o := r.table.entries b.id) ho hs
  have hd : ∀ c ∈ xs ++ ys, c.stop ≤ stop r.table.getSize xs ∨
      (start (stop r.table.getSize xs) ys) ≤ c.offset := by
    intro c hc
    obtain ⟨hxo, -, -, hy⟩ := ordered_append.mp h.ordered
    rcases mem_append.mp hc with hc | hc
    · exact .inl (hxo.mem_bounds hc).2.2
    · exact .inr (hy.start_le hc _)
  have hor : Ordered r.table.getSize (xs ++ ys) ∧
      stop r.table.getSize (xs ++ ys) ≤ stop r.table.getSize (xs ++ b :: ys) := by
    obtain ⟨hxo, hbo, -, hy⟩ := ordered_append.mp h.ordered
    have hle : stop r.table.getSize xs ≤ b.stop := by simp only [Block.stop]; omega
    refine ⟨ordered_append.mpr ⟨hxo, hy.mono hle⟩, ?_⟩
    rw [stop_append, stop_append]
    cases ys with
    | nil => exact hle
    | cons c ys => exact Nat.le_refl _
  refine ⟨
    { r with table := (r.table.remove b.id).2, nettoSize := r.nettoSize - b.size, holes, mem },
    ?_, ⟨ht, ?_, ?_, ?_, ?_, ?_, ?_, h.huge⟩, hb, rfl, ?_⟩
  · simp only [Rubber.remove, hsz]
    rw [show (r.table.entries b.id).previous = lastId 0 xs from hpr,
      show (r.table.entries b.id).next = firstId 0 ys from hnx]
    exact he
  · rw [hb]; exact hor.1
  · have ha := h.aligned
    rw [aligned_append, aligned_cons] at ha
    exact aligned_append.mpr ⟨ha.1, ha.2.2⟩
  · rw [hb]; exact h.base
  · rw [hb]; exact fun _ => Nat.le_trans hor.2 (h.fits (by simp))
  · rw [hb]; exact hh.congr rfl rfl
  · have hn := h.netto
    simp only [total_append, total_cons] at hn ⊢
    omega
  · intro c hc
    apply h.keeps_of_mem (mem_middle.mpr (.inr hc)) (congrFun hto c.id) (congrFun hts c.id)
    intro x hx hx'
    have := hd c hc
    exact hm x (by omega)

theorem gaps_split_behind (left pos : Nat) (xs ys : List (Block Nat)) (b c : Block Nat) :
    (gaps left pos (xs ++ b :: c :: ys)).Perm
      (gapBefore b.id b.stop c ++
        (gapBefore (lastId left xs) (stop pos xs) b ++
          (gaps left pos xs ++ gaps c.id c.stop ys))) := by
  refine (gaps_split left pos xs (c :: ys) b).trans ?_
  exact (List.Perm.append_left _ (perm_append_comm_assoc _ _ _)).trans
    (perm_append_comm_assoc _ _ _)

/-- `Shrink` cuts the block down to the aligned new size. -/
theorem shrink {newSize : Nat} (h : Inv r (xs ++ b :: ys) fs) (h0 : 0 < newSize)
    (hle : newSize ≤ b.size) :
    ∃ r', r.shrink b.id newSize = some r' ∧
      Inv r' (xs ++ { b with size := alignSize newSize } :: ys) fs ∧
      r'.table.getSize = r.table.getSize ∧ r'.mapSize = r.mapSize ∧
      (∀ c ∈ xs ++ ys, Keeps r r' c.id) ∧
      ∀ i < alignSize newSize, r'.mem (b.offset + i) = r.mem (b.offset + i) := by
  have hn := le_alignSize newSize
  have hle := alignSize_le hle (h.aligned b (by simp)).2
  generalize hsi : alignSize newSize = n at *
  have hd : rubberAlign ∣ n := hsi ▸ dvd_alignSize newSize
  have ho := h.table.offset_eq b (by simp)
  have hs := h.table.size_eq b (by simp)
  obtain ⟨hnx, -⟩ := h.table.links
  simp only [RubberTable.offsetOf, RubberTable.sizeOf, RubberTable.nextOf] at ho hs hnx
  by_cases heq : n = b.size
  · -- nothing to free
    subst heq
    refine ⟨r, ?_, h, rfl, rfl, fun c _ => Keeps.refl r c.id, fun _ _ => rfl⟩
    simp only [Rubber.shrink, hs, hsi, if_true]
  let b' : Block Nat := { b with size := n }
  have ht : TableIs (r.table.setSize b.id n) (xs ++ b' :: ys) [] fs := h.table.setSize
  have hb : (r.table.setSize b.id n).getSize = r.table.getSize := by
    rw [RubberTable.getSize, RubberTable.sizeOf_setSize,
      update_of_ne (Nat.ne_of_lt (h.table.id_pos (b := b) (by simp)))]
    rfl
  obtain ⟨hxo, hbo, hbs, hy⟩ := ordered_append.mp h.ordered
  have had : ∃ holes mem,
      r.shrink b.id newSize = some { r with
        table := r.table.setSize b.id n, nettoSize := r.nettoSize - (b.size - n), holes, mem } ∧
      HolesAre { r with holes, mem } (gaps 0 r.table.getSize (xs ++ b' :: ys)) ∧
      r.mem.SameOutside mem (b.offset + n) (start b.stop ys) := by
    simp only [Rubber.shrink, hsi, heq, if_false, hnx, RubberTable.shrink,
      RubberTable.sizeOf, hs, ho]
    cases ys with
    | nil =>
      refine ⟨r.holes, r.mem, ?_, ?_, fun _ _ => rfl⟩
      · exact if_neg (not_not.mpr rfl)
      · have hg := h.holes
        rw [gaps_append] at hg ⊢
        exact hg
    | cons c ys =>
      have hc0 : firstId 0 (c :: ys) ≠ 0 := Nat.ne_of_gt (h.table.id_pos (b := c) (by simp))
      rw [if_pos hc0]
      have hst : b.stop = b.offset + n + (b.size - n) := by simp only [Block.stop]; omega
      have hp := h.holes.perm (gaps_split_behind 0 r.table.getSize xs ys b c)
      rw [hst] at hp
      have hp' : HolesAre
          { r with table := r.table.setSize b.id n, nettoSize := r.nettoSize - (b.size - n) }
          (gapBefore b.id (b.offset + n) ⟨0, b.offset + n, 0⟩ ++
            (gapBefore b.id (b.offset + n + (b.size - n)) c ++
              (gapBefore (lastId 0 xs) (stop r.table.getSize xs) b ++
                (gaps 0 r.table.getSize xs ++ gaps c.id c.stop ys)))) := by
        have hni : gapBefore b.id (b.offset + n) ⟨0, b.offset + n, 0⟩ = [] :=
          HolesAre.gapBefore_of_le (Nat.le_refl _)
        rw [hni]
        exact hp.congr rfl rfl
      have hen : ((r.table.setSize b.id n).entries b.id).getEndOffset = b.offset + n := by
        have h1 := ht.offset_eq b' (by simp)
        have h2 := ht.size_eq b' (by simp)
        simp only [RubberTable.offsetOf, RubberTable.sizeOf] at h1 h2
        rw [RubberObject.getEndOffset, h1, h2]
      have hfr : rubberAlign ∣ b.size - n := Nat.dvd_sub (h.aligned b (by simp)).2 hd
      obtain ⟨holes, mem, he, hh, hm⟩ := hp'.addHoleAfter b.id hen (ht.links.1)
        (ht.offset_eq c (by simp)) (Nat.le_refl _) (by rw [← hst]; exact hy.1)
        (sizeofHole_le hfr (by omega)) (by
          intro g hg
          rcases mem_append.mp hg with hg | hg
          · unfold gapBefore at hg
            split at hg
            · obtain rfl := mem_singleton.mp hg
              simp only [Gap.stop]
              omega
            · simp at hg
          rcases mem_append.mp hg with hg | hg
          · have := (hxo.gap_bounds hg).2.2
            omega
          · have := (hy.2.2.gap_bounds hg).1
            simp only [Block.stop] at this
            omega)
      refine ⟨holes, mem, he, ?_, hm⟩
      exact (hh.perm (gaps_split_behind 0 r.table.getSize xs ys b' c).symm).congr rfl rfl
  obtain ⟨holes, mem, he, hh, hm⟩ := had
  have hor : Ordered r.table.getSize (xs ++ b' :: ys) ∧
      stop r.table.getSize (xs ++ b' :: ys) ≤ stop r.table.getSize (xs ++ b :: ys) := by
    have hbb : b'.stop ≤ b.stop := by simp only [Block.stop, b']; omega
    refine ⟨ordered_append.mpr ⟨hxo, hbo, by simp only [b']; omega, hy.mono hbb⟩, ?_⟩
    rw [stop_append, stop_append, stop]
    cases ys with
    | nil => exact hbb
    | cons c ys => exact Nat.le_refl _
  refine ⟨_, he, ⟨ht, ?_, ?_, ?_, ?_, ?_, ?_, h.huge⟩, hb, rfl, ?_, ?_⟩
  · rw [hb]; exact hor.1
  · have ha := h.aligned
    rw [aligned_append, aligned_cons] at ha
    exact aligned_append.mpr ⟨ha.1, aligned_cons.mpr ⟨⟨ha.2.1.1, hd⟩, ha.2.2⟩⟩
  · rw [hb]; exact h.base
  · rw [hb]; exact fun _ => Nat.le_trans hor.2 (h.fits (by simp))
  · rw [hb]; exact hh.congr rfl rfl
  · have hn := h.netto
    simp only [total_append, total_cons] at hn ⊢
    omega
  · intro c hc
    apply h.keeps_of_mem (mem_middle.mpr (.inr hc))
    · rw [RubberTable.offsetOf_setSize]
    · rw [RubberTable.sizeOf_setSize, update_of_ne (h.table.id_ne hc)]
    · intro x hx hx'
      apply hm
      rcases mem_append.mp hc with hc | hc
      · have := (hxo.mem_bounds hc).2.2
        omega
      · have := hy.start_le hc b.stop
        omega
  · intro i hi
    exact hm _ (by omega)

end Inv

private theorem moveData_spec {r : Rubber} {zs ys : List (Block Nat)} {b : Block Nat}
    {fs : List Nat} (ht : TableIs r.table (zs ++ b :: ys) [] fs) {pos : Nat}
    (hz : Ordered r.table.getSize zs) (hpo : stop r.table.getSize zs = pos)
    (hy : Ordered pos (b :: ys)) :
    ∃ mem table, r.moveData b.id pos = { r with mem, table } ∧
      TableIs table (zs ++ { b with offset := pos } :: ys) [] fs ∧
      table.getSize = r.table.getSize ∧
      ∀ c ∈ zs ++ b :: ys, Keeps r { r with mem, table } c.id := by
  have ho := ht.offset_eq b (by simp)
  have hs := ht.size_eq b (by simp)
  simp only [RubberTable.offsetOf, RubberTable.sizeOf] at ho hs
  obtain ⟨hb, -, hys⟩ := hy
  by_cases he : b.offset = pos
  · subst he
    refine ⟨r.mem, r.table, ?_, ht, rfl, fun c _ => Keeps.refl r c.id⟩
    simp only [moveData, ho, if_true]
  refine ⟨r.mem.move pos b.offset b.size, r.table.setOffset b.id pos, ?_, ht.setOffset, ?_, ?_⟩
  · simp only [moveData, ho, he, if_false, hs]
  · rw [getSize, sizeOf_setOffset]; rfl
  · intro c hc
    have hsz := ht.size_eq c hc
    have hof := ht.offset_eq c hc
    refine ⟨congrFun (sizeOf_setOffset _ _ _) c.id, ?_⟩
    intro i hi
    change i < r.table.sizeOf c.id at hi
    rw [hsz] at hi
    simp only [offsetOf_setOffset]
    by_cases hcb : c ∈ zs ++ ys
    · rw [update_of_ne (ht.id_ne hcb)]
      apply move_sameOutside
      rcases mem_append.mp hcb with hm | hm
      · have := (hz.mem_bounds hm).2.2
        simp only [Block.stop] at this
        omega
      · have := (hys.mem_bounds hm).1
        simp only [Block.stop] at this
        omega
    · obtain rfl := (mem_middle.mp hc).resolve_right hcb
      rw [update_self, hof]
      exact move_apply _ _ _ _ _ hi

private theorem compressLoop_spec (ys : List (Block Nat)) :
    ∀ (fuel : Nat) (r : Rubber) (zs : List (Block Nat)) (fs : List Nat) (pos : Nat),
      TableIs r.table (zs ++ ys) [] fs → Ordered r.table.getSize zs →
      stop r.table.getSize zs = pos → Ordered pos ys → ys.length < fuel →
      ∃ mem table,
        compressLoop fuel r (lastId 0 zs) pos = some ({ r with mem, table }, pos + total ys) ∧
        TableIs table (zs ++ compact pos ys) [] fs ∧ table.getSize = r.table.getSize ∧
        ∀ c ∈ zs ++ ys, Keeps r { r with mem, table } c.id := by
  -- induction on the blocks still to move; `zs` are those already moved together
  induction ys with
  | nil =>
    intro fuel r zs fs pos ht hz hpo hy hf
    obtain ⟨fuel, rfl⟩ := Nat.exists_eq_add_of_lt hf
    refine ⟨r.mem, r.table, ?_, ht, rfl, fun c _ => Keeps.refl r c.id⟩
    have hn : r.table.nextOf (lastId 0 zs) = 0 := ht.cut.1
    simp only [compressLoop, hn, if_true, total_nil, add_zero]
  | cons b ys ih =>
    intro fuel r zs fs pos ht hz hpo hy hf
    obtain ⟨fuel, rfl⟩ : ∃ k, fuel = k + 1 := ⟨fuel - 1, by omega⟩
    have hn : r.table.nextOf (lastId 0 zs) = b.id := ht.cut.1
    have hb0 : b.id ≠ 0 := Nat.ne_of_gt (ht.id_pos (b := b) (by simp))
    obtain ⟨mem, table, he, ht', hb, hk⟩ := moveData_spec ht hz hpo hy
    let b' : Block Nat := { b with offset := pos }
    have hz' : Ordered table.getSize (zs ++ [b']) := by
      rw [hb]
      exact ordered_append.mpr ⟨hz, by rw [hpo]; exact ⟨Nat.le_refl _, hy.2.1, True.intro⟩⟩
    have hp' : stop table.getSize (zs ++ [b']) = pos + b.size := by
      rw [stop_append]; rfl
    have hy' : Ordered (pos + b.size) ys := by
      apply hy.2.2.mono
      have := hy.1
      simp only [Block.stop]
      omega
    have hsz : table.sizeOf b.id = b.size := ht'.size_eq b' (by simp [b'])
    have hla : lastId 0 (zs ++ [b']) = b.id := by simp [lastId, b']
    rw [append_cons] at ht'
    obtain ⟨mem', table', he', ht'', hb', hk'⟩ := ih fuel { r with mem, table } (zs ++ [b']) fs
      (pos + b.size) ht' hz' hp' hy' (by simp only [length_cons] at hf; omega)
    refine ⟨mem', table', ?_, ?_, hb'.trans hb, ?_⟩
    · rw [hla] at he'
      simp only [compressLoop, hn, if_neg hb0, he, hsz, total_cons, ← add_assoc]
      exact he'
    · rw [← append_cons] at ht''
      exact ht''
    · intro c hc
      refine (hk c hc).trans ?_
      rcases mem_append.mp hc with hc | hc
      · exact hk' c (by simp [hc])
      · rcases mem_cons.mp hc with rfl | hc
        · exact hk' b' (by simp)
        · exact hk' c (by simp [hc])

namespace Inv

variable {r : Rubber} {bs : List (Block Nat)} {fs : List Nat}

/-- `Compress` moves all blocks together. -/
theorem compress (h : Inv r bs fs) :
    ∃ r', r.compress = some r' ∧ Inv r' (compact r.table.getSize bs) fs ∧
      r'.table.getSize = r.table.getSize ∧ r'.mapSize = r.mapSize ∧
      ∀ c ∈ bs, Keeps r r' c.id := by
  have hbr := h.brutto
  by_cases heq : r.getBruttoSize = r.nettoSize
  · refine ⟨r, by simp only [Rubber.compress, heq, if_true], ?_, rfl, rfl,
      fun c _ => Keeps.refl r c.id⟩
    rw [h.ordered.compact_eq 0 (by rw [h.netto] at heq; omega)]
    exact h
  obtain ⟨mem, table, he, ht, hb, hk⟩ := compressLoop_spec bs r.table.initializedTail
    { r with holes := fun _ => [] } [] fs r.table.getSize h.table True.intro rfl h.ordered
    h.table.length_lt
  have hst := stop_compact r.table.getSize bs
  have hle : r.table.getSize + total bs ≤ stop r.table.getSize bs := by
    rw [h.ordered.stop_eq 0]; omega
  have hal := le_alignHugePageUp h.huge (r.table.getSize + total bs)
  have hin (mem' : Base.Memory Hole) :
      Inv { r with holes := fun _ => [], mem := mem', table } (compact r.table.getSize bs) fs := by
    refine ⟨ht, ?_, h.aligned.compact h.base, ?_, ?_, ?_, ?_, h.huge⟩
    · rw [hb]; exact h.ordered.compact
    · rw [hb]; exact h.base
    · intro hne
      rw [hb, hst]
      refine Nat.le_trans hle (h.fits ?_)
      rintro rfl
      exact hne rfl
    · rw [hb, gaps_compact]
      exact ⟨by simp, List.Pairwise.nil, by simp, by simp, by simp⟩
    · rw [total_compact]; exact h.netto
  simp only [lastId_nil] at he
  simp only [Rubber.compress, heq, if_false, he, bind_eq_bind, bind_some]
  split
  · refine ⟨_, rfl, hin _, hb, rfl, ?_⟩
    intro c hc
    refine (hk c hc).trans ⟨rfl, ?_⟩
    intro i hi
    -- the pages given back lie behind the last block
    apply clear_sameOutside
    left
    have hc' : c.id ∈ (compact r.table.getSize bs).map Block.id := by
      rw [map_id_compact]; exact mem_map_of_mem hc
    have hm := ((hin mem).ordered.mem_bounds ((hin mem).table.mem_of_id hc')).2.2
    simp only [Block.stop, hb] at hm
    change i < table.sizeOf c.id at hi
    change table.offsetOf c.id + i < _
    omega
  · exact ⟨_, rfl, hin _, hb, rfl, hk⟩

end Inv

private theorem TableIs.useHole {r : Rubber} {xs ys : List (Block Nat)} {c : Block Nat}
    {fs : List Nat} {id : Nat} (ht : TableIs r.table (xs ++ c :: ys) [id] fs)
    (ho : r.table.offsetOf id = stop r.table.getSize xs) (hsi : r.table.sizeOf id = size)
    (hs : rubberAlign ∣ size) (h0 : 0 < size) (hor : Ordered r.table.getSize (xs ++ c :: ys))
    (hal : Aligned rubberAlign (xs ++ c :: ys)) (hb : rubberAlign ∣ r.table.getSize)
    (hfi : stop r.table.getSize xs + size ≤ c.offset)
    (hh : HolesAre r (gaps 0 r.table.getSize (xs ++ c :: ys))) :
    ∃ holes mem table,
      r.useHole (stop r.table.getSize xs) id size = some { r with holes, mem, table } ∧
      table.offsetOf = r.table.offsetOf ∧ table.sizeOf = r.table.sizeOf ∧
      TableIs table (xs ++ ⟨id, stop r.table.getSize xs, size⟩ :: c :: ys) [] fs ∧
      Ordered r.table.getSize (xs ++ ⟨id, stop r.table.getSize xs, size⟩ :: c :: ys) ∧
      Aligned rubberAlign (xs ++ ⟨id, stop r.table.getSize xs, size⟩ :: c :: ys) ∧
      HolesAre { r with holes, mem }
        (gaps 0 r.table.getSize (xs ++ ⟨id, stop r.table.getSize xs, size⟩ :: c :: ys)) ∧
      r.mem.SameOutside mem (stop r.table.getSize xs + size) c.offset := by
  obtain ⟨hxo, hco⟩ := ordered_append.mp hor
  obtain ⟨hx, hca⟩ := aligned_append.mp hal
  have hxs := hx.stop hb
  let g : Gap Nat :=
    ⟨stop r.table.getSize xs, c.offset - stop r.table.getSize xs, lastId 0 xs, c.id⟩
  let n : Block Nat := ⟨id, stop r.table.getSize xs, size⟩
  have hgs : g.stop = c.offset := by simp only [g, Gap.stop]; omega
  have hg : gapBefore (lastId 0 xs) (stop r.table.getSize xs) c = [g] := gapBefore_of_lt (by omega)
  have hp := hh.perm (Inv.gaps_split 0 r.table.getSize xs ys c)
  rw [hg] at hp
  have hsp : size = g.size ∨ size + sizeofHole ≤ g.size := by
    by_cases he : size = g.size
    · exact .inl he
    have hd : rubberAlign ∣ g.size - size :=
      Nat.dvd_sub (Nat.dvd_sub (aligned_cons.mp hca).1.1 hxs) hs
    have hlt : size < g.size := by
      simp only [g] at he ⊢
      omega
    have := sizeofHole_le hd (by omega)
    omega
  obtain ⟨holes, mem, he, hh', hm⟩ := hp.useHole id hsp
  have htl := ht.link
  rw [ho, hsi] at htl
  refine ⟨holes, mem, _, he, offsetOf_link _ _ _ _, sizeOf_link _ _ _ _, htl, ?_, ?_, ?_, ?_⟩
  · refine ordered_append.mpr ⟨hxo, Nat.le_refl _, h0, ?_, hco.2⟩
    simp only [Block.stop]; exact hfi
  · exact aligned_append.mpr ⟨hx, aligned_cons.mpr ⟨⟨hxs, hs⟩, hca⟩⟩
  · refine (hh'.perm ?_).congr rfl rfl
    refine List.Perm.trans ?_ (Inv.gaps_split_behind 0 r.table.getSize xs ys n c).symm
    have hn : gapBefore (lastId 0 xs) (stop r.table.getSize xs) n = [] :=
      gapBefore_of_le (Nat.le_refl _)
    have hc : gapBefore id (g.offset + size) ⟨g.right, g.stop, 0⟩ = gapBefore n.id n.stop c := by
      rw [hgs]; rfl
    rw [hn, hc]
    exact List.Perm.refl _
  · rw [hgs] at hm
    exact hm

namespace Inv

variable {r : Rubber} {bs : List (Block Nat)} {fs : List Nat}

/-- A gap lies before one of the blocks. -/
theorem gap_split {g : Gap Nat} {base : Nat} (hg : g ∈ gaps 0 base bs) :
    ∃ xs c ys, bs = xs ++ c :: ys ∧ g.offset = stop base xs ∧
      g.size = c.offset - stop base xs ∧ stop base xs < c.offset := by
  obtain ⟨xs, c, ys, rfl, hc⟩ := mem_gaps_iff.mp hg
  refine ⟨xs, c, ys, rfl, ?_⟩
  unfold gapBefore at hc
  split at hc
  · next hlt =>
    obtain rfl := mem_singleton.mp hc
    exact ⟨rfl, rfl, hlt⟩
  · simp at hc

/-- `AddInHole` changes nothing, or puts a new object into a gap. -/
theorem addInHole (h : Inv r bs fs) (hs : rubberAlign ∣ size) (h0 : 0 < size) :
    r.addInHole size = some (0, r) ∨
      ∃ id r' bs' fs', r.addInHole size = some (id, r') ∧ id ≠ 0 ∧ Inv r' bs' fs' ∧
        (bs'.map Block.id).Perm (id :: bs.map Block.id) ∧ r'.getSizeOf id = size ∧
        r'.table.getSize = r.table.getSize ∧ r'.mapSize = r.mapSize ∧
        ∀ c ∈ bs, Keeps r r' c.id := by
  obtain hf | ⟨g, hg, hgs, hf⟩ := h.holes.findHole size
  · left
    simp only [Rubber.addInHole, hf, bind_eq_bind, bind_some]
  obtain ⟨xs, c, ys, rfl, hgo, hgc, hlt⟩ := gap_split hg
  simp only [addInHole, hf, bind_eq_bind, bind_some, addInHoleAt]
  obtain ha | ⟨id, t, fs', ha, hid, hw, ht, hio, hi, hb⟩ := h.table.addId_init g.offset size
  · left
    simp only [ha, if_true]
  right
  obtain ⟨holes, mem, table, he, hof, hsf, ht', ho, hal, hh, hm⟩ :=
    TableIs.useHole (r := { r with table := t.init id g.offset size })
      ht (by rw [hio, update_self, hb, hgo]) (by rw [hi, update_self])
      hs h0 (by rw [hb]; exact h.ordered) h.aligned (by rw [hb]; exact h.base)
      (by rw [hb]; omega) (by rw [hb]; exact h.holes.congr rfl rfl)
  simp only [hb] at he ht' ho hal hh hm
  have hb' : table.getSize = r.table.getSize := by
    rw [← hb]; exact congrFun hsf 0
  refine ⟨id, { r with holes, mem, table, nettoSize := r.nettoSize + size }, _, fs', ?_,
    Nat.ne_of_gt hid, ⟨ht', ?_, hal, ?_, ?_, ?_, ?_, h.huge⟩, ?_, ?_, hb', rfl, ?_⟩
  · rw [← hgo] at he
    simp only [ha, if_neg (Nat.ne_of_gt hid), he, bind_some]
  · rw [hb']; exact ho
  · rw [hb']; exact h.base
  · have hfi := h.fits (by simp)
    rw [stop_append] at hfi ⊢
    exact fun _ => hfi
  · rw [hb']; exact hh.congr rfl rfl
  · have hn := h.netto
    simp only [total_append, total_cons] at hn ⊢
    omega
  · simp only [map_append]
    exact perm_middle
  · exact (congrFun hsf id).trans (by rw [hi, update_self])
  · intro d hd
    have hne : d.id ≠ id := ne_of_mem_of_not_mem (mem_map_of_mem hd) hw
    apply h.keeps_of_mem hd
    · exact (congrFun hof d.id).trans (by rw [hio, update_of_ne hne])
    · exact (congrFun hsf d.id).trans (by rw [hi, update_of_ne hne])
    · intro x hx hx'
      apply hm
      have hdj := h.ordered.gap_disjoint hg hd
      simp only [Gap.stop, hgo] at hdj
      omega

private theorem moveLast (h : Inv r bs fs) (m : Nat) (hbs : bs ≠ []) :
    r.moveLast m = some (false, r) ∨
      ∃ r' bs', r.moveLast m = some (true, r') ∧ Inv r' bs' fs ∧
        (bs'.map Block.id).Perm (bs.map Block.id) ∧
        stop r.table.getSize bs' < stop r.table.getSize bs ∧
        r'.table.getSize = r.table.getSize ∧ r'.mapSize = r.mapSize ∧
        ∀ c ∈ bs, Keeps r r' c.id := by
  obtain ⟨xs, z, rfl⟩ : ∃ xs z, bs = xs ++ [z] := by
    rcases eq_nil_or_concat bs with rfl | ⟨xs, z, rfl⟩
    · exact absurd rfl hbs
    · exact ⟨xs, z, concat_eq_append⟩
  have hz : z ∈ xs ++ [z] := by simp
  have hid : r.table.previousOf 0 = z.id := by
    have hc := h.table
    rw [← append_nil (xs ++ [z])] at hc
    exact hc.cut.2.trans (by simp [lastId])
  have ho := h.table.offset_eq z hz
  have hs := h.table.size_eq z hz
  have hpr := h.table.links.2
  simp only [RubberTable.offsetOf, RubberTable.sizeOf, RubberTable.previousOf] at ho hs hpr
  simp only [moveLast, hid, hs, ho, hpr, bind_eq_bind]
  split
  · exact .inl rfl
  obtain hf | ⟨g, hg, hgs, hf⟩ := h.holes.findHole z.size
  · left
    simp only [hf, bind_some]
  have hho := h.holes.holeAt_eq g hg
  simp only [hf, bind_some, hho]
  split
  · exact .inl rfl
  next hgz =>
  right
  obtain ⟨hxo, hzo, hz0, -⟩ := ordered_append.mp h.ordered
  obtain ⟨hxa, hza⟩ := aligned_append.mp h.aligned
  have hgx : g ∈ gaps 0 r.table.getSize xs := by
    rw [gaps_append, mem_append] at hg
    rcases hg with hg | hg
    · exact hg
    rw [gaps, gaps] at hg
    unfold gapBefore at hg
    split at hg
    · obtain rfl := mem_singleton.mp hg
      exact absurd rfl hgz
    · simp at hg
  have hgb := hxo.gap_bounds hgx
  obtain ⟨as, c, cs, rfl, hgo, hgc, hlt⟩ := gap_split hgx
  generalize hxs : as ++ c :: cs = xs at *
  -- the hole before the last object, if there is one, disappears
  have hd := (h.holes.perm (gaps_split 0 r.table.getSize xs [] z)).discardHoleBetween
    (a := r.table.entries (lastId 0 xs)) (o := r.table.entries z.id)
    h.table.getEndOffset_last ho
  rw [gaps, append_nil, discardHoleBetween_eq] at hd
  rw [discardHoleBetween_eq]
  generalize (r.discardHoleBetween (r.table.entries (lastId 0 xs)) (r.table.entries z.id)).holes =
    holes0 at hd ⊢
  let t := (r.table.unlink z.id).setOffset z.id g.offset
  have hto : t.offsetOf = update r.table.offsetOf z.id g.offset := by
    simp only [t, offsetOf_setOffset, offsetOf_unlink]
  have hts : t.sizeOf = r.table.sizeOf := by
    simp only [t, sizeOf_setOffset, sizeOf_unlink]
  have hb : t.getSize = r.table.getSize := congrFun hts 0
  have ht : TableIs t xs [z.id] fs := by
    rw [← append_nil xs]
    exact h.table.unlink.setOffset_reserved
  have hd' : HolesAre { r with holes := holes0, table := t } (gaps 0 t.getSize xs) := by
    rw [hb]
    exact hd.congr rfl rfl
  subst hxs
  have hzs : rubberAlign ∣ z.size := (aligned_cons.mp hza).1.2
  obtain ⟨holes, mem, table, he, hof, hsf, ht', hor, hal, hh, hm⟩ :=
    TableIs.useHole (r := { r with holes := holes0, table := t })
      ht (by rw [hto, update_self, hb, hgo]) (by rw [hts]; exact hs)
      hzs hz0 (by rw [hb]; exact hxo) hxa (by rw [hb]; exact h.base)
      (by rw [hb]; omega) hd'
  simp only [hb] at he ht' hor hal hh hm
  rw [← hgo] at he
  have hb' : table.getSize = r.table.getSize := by
    rw [← hb]; exact congrFun hsf 0
  have hgt : g.stop = c.offset := by simp only [Gap.stop]; omega
  have hco : mem.copy g.offset z.offset z.size = some (mem.move g.offset z.offset z.size) := by
    rw [copy, if_pos]
    left
    omega
  let n : Block Nat := ⟨z.id, stop r.table.getSize as, z.size⟩
  have hst : stop r.table.getSize (as ++ n :: c :: cs) = stop r.table.getSize (as ++ c :: cs) := by
    rw [stop_append, stop_append]; rfl
  have hlo : stop r.table.getSize (as ++ c :: cs) <
      stop r.table.getSize (as ++ c :: cs ++ [z]) := by
    rw [stop_append _ (as ++ c :: cs)]
    simp only [stop, Block.stop]
    omega
  refine ⟨{ r with holes, table, mem := mem.move g.offset z.offset z.size }, as ++ n :: c :: cs, ?_,
    ⟨ht', ?_, hal, ?_, ?_, ?_, ?_, h.huge⟩, ?_, ?_, hb', rfl, ?_⟩
  · simp only [he, bind_some, hco, t]
  · rw [hb']; exact hor
  · rw [hb']; exact h.base
  · rw [hb', hst]
    exact fun _ => Nat.le_trans (Nat.le_of_lt hlo) (h.fits hbs)
  · rw [hb']
    -- the moved data ends where the new gap behind it starts
    refine HolesAre.of_mem (r := { r with holes, mem, table }) (hh.congr rfl rfl) ?_
    intro k hk i hi
    apply move_sameOutside
    have hdj := hor.gap_disjoint hk (b := n) (by simp [n])
    have hks := hh.room k hk
    simp only [Gap.stop, Block.stop, n] at hdj
    omega
  · have hn := h.netto
    have hns : n.size = z.size := rfl
    simp only [total_append, total_cons, total_nil] at hn ⊢
    omega
  · simp only [map_append, map_cons]
    exact perm_middle.trans (perm_append_singleton _ _).symm
  · rw [hst]; exact hlo
  · intro d hd
    rcases mem_append.mp hd with hdx | hdz
    · have hne : d.id ≠ z.id := h.table.id_ne (by rw [append_nil]; exact hdx)
      apply h.keeps_of_mem hd
      · exact (congrFun hof d.id).trans (by rw [hto, update_of_ne hne])
      · exact (congrFun hsf d.id).trans (congrFun hts d.id)
      · intro x hx hx'
        have hdj := hxo.gap_disjoint hgx hdx
        exact (move_sameOutside _ _ _ _ x (by omega)).trans (hm x (by omega))
    obtain rfl := mem_singleton.mp hdz
    refine ⟨(congrFun hsf d.id).trans (congrFun hts d.id), ?_⟩
    intro i hi
    change i < (r.table.entries d.id).size at hi
    rw [hs] at hi
    have hw : table.offsetOf d.id = g.offset := by
      rw [hof, hto, update_self]
    have hol : r.table.offsetOf d.id = d.offset := ho
    change mem.move g.offset d.offset d.size (table.offsetOf d.id + i) = _
    rw [hw, hol, move_apply _ _ _ _ _ hi]
    apply hm
    omega

private theorem moveLastLoop (m fuel : Nat) :
    ∀ {r : Rubber} {bs : List (Block Nat)}, Inv r bs fs → bs ≠ [] → stop r.table.getSize bs < fuel →
      ∃ r' bs', moveLastLoop fuel r m = some r' ∧ Inv r' bs' fs ∧
        (bs'.map Block.id).Perm (bs.map Block.id) ∧
        r'.table.getSize = r.table.getSize ∧ r'.mapSize = r.mapSize ∧
        ∀ c ∈ bs, Keeps r r' c.id := by
  induction fuel with
  | zero => intro r bs _ _ hf; omega
  | succ fuel ih =>
    intro r bs h hbs hf
    simp only [Rubber.moveLastLoop, bind_eq_bind]
    obtain he | ⟨r', bs', he, h', hp, hlo, hb, hm, hk⟩ := h.moveLast m hbs
    · refine ⟨r, bs, ?_, h, List.Perm.refl _, rfl, rfl, fun c _ => Keeps.refl r c.id⟩
      simp only [he, bind_some]
    have hbs' : bs' ≠ [] := by
      rintro rfl
      have := hp.length_eq
      simp only [map_nil, length_map] at this
      exact hbs (eq_nil_of_length_eq_zero this.symm)
    obtain ⟨r'', bs'', he', h'', hp', hb', hm', hk'⟩ := ih h' hbs' (by rw [hb]; omega)
    refine ⟨r'', bs'', ?_, h'', hp'.trans hp, hb'.trans hb, hm'.trans hm, ?_⟩
    · simp only [he, bind_some, he']
    · intro c hc
      obtain ⟨c', hc', hcc⟩ := mem_map.mp (hp.mem_iff.mpr (mem_map_of_mem hc))
      exact (hk c hc).trans (hcc ▸ hk' c' hc')

private theorem addTail (h : Inv r bs fs) (hs : rubberAlign ∣ size) (h0 : 0 < size)
    (hfi : stop r.table.getSize bs + size ≤ r.mapSize) :
    r.table.add r.table.getTailOffset size = (0, r.table) ∨
      ∃ id table fs', r.table.add r.table.getTailOffset size = (id, table) ∧ id ≠ 0 ∧
        Inv { r with table, nettoSize := r.nettoSize + size }
          (bs ++ [⟨id, stop r.table.getSize bs, size⟩]) fs' ∧
        table.getSize = r.table.getSize ∧
        ∀ c ∈ bs, Keeps r { r with table, nettoSize := r.nettoSize + size } c.id := by
  rw [h.table.getTailOffset_eq]
  simp only [RubberTable.add]
  obtain ha | ⟨id, t, fs', ha, hid, hw, ht, hi, his, hb⟩ :=
    h.table.addId_init (stop r.table.getSize bs) size
  · left
    simp only [ha, if_true]
  right
  have ht' : TableIs (t.init id (stop r.table.getSize bs) size) (bs ++ []) [id] fs' := by
    rwa [append_nil]
  have hla := ht'.cut.2
  have htl := ht'.link
  rw [hi, his, update_self, update_self] at htl
  have hb' : ((t.init id (stop r.table.getSize bs) size).link id (lastId 0 bs) 0).getSize =
      r.table.getSize := by
    rw [getSize, sizeOf_link]; exact hb
  refine ⟨id, (t.init id (stop r.table.getSize bs) size).link id (lastId 0 bs) 0, fs', ?_,
    Nat.ne_of_gt hid, ⟨htl, ?_, ?_, ?_, ?_, ?_, ?_, h.huge⟩, hb', ?_⟩
  · simp only [ha, if_neg (Nat.ne_of_gt hid)]
    rw [show previousOf _ 0 = lastId 0 bs from hla]
  · rw [hb']
    exact ordered_append.mpr ⟨h.ordered, Nat.le_refl _, h0, True.intro⟩
  · exact aligned_append.mpr ⟨h.aligned,
      aligned_cons.mpr ⟨⟨h.aligned.stop h.base, hs⟩, by simp [Aligned]⟩⟩
  · rw [hb']; exact h.base
  · rw [stop_append]; exact fun _ => hfi
  · rw [hb', gaps_append]
    simp only [gaps, append_nil]
    have hg : gapBefore (lastId 0 bs) (stop r.table.getSize bs)
        ⟨id, stop r.table.getSize bs, size⟩ = [] := gapBefore_of_le (Nat.le_refl _)
    rw [hg, append_nil]
    exact h.holes.congr rfl rfl
  · have hn := h.netto
    simp only [total_append, total_cons, total_nil] at hn ⊢
    omega
  · intro c hc
    have hne : c.id ≠ id := ne_of_mem_of_not_mem (mem_map_of_mem hc) hw
    refine h.keeps_of_mem hc ?_ ?_ fun _ _ _ => rfl
    · exact (congrFun (offsetOf_link _ _ _ _) c.id).trans
        (by rw [hi, update_of_ne hne])
    · exact (congrFun (sizeOf_link _ _ _ _) c.id).trans
        (by rw [his, update_of_ne hne])

/-- What an allocation of a range of `size` bytes does: it fails, or adds an object; the
other objects may move, but keep their contents. -/
structure Added (r : Rubber) (bs : List (Block Nat)) (size id : Nat) (r' : Rubber) : Prop where
  inv : ∃ bs' fs', Inv r' bs' fs' ∧
    (bs'.map Block.id).Perm (if id = 0 then bs.map Block.id else id :: bs.map Block.id)
  size_eq : id ≠ 0 → r'.getSizeOf id = size
  base_eq : r'.table.getSize = r.table.getSize
  map_eq : r'.mapSize = r.mapSize
  keeps : ∀ c ∈ bs, Keeps r r' c.id

/-- A step that only moves objects. -/
structure Moved (r : Rubber) (bs : List (Block Nat)) (r' : Rubber) : Prop where
  inv : ∃ bs' fs', Inv r' bs' fs' ∧ (bs'.map Block.id).Perm (bs.map Block.id)
  base_eq : r'.table.getSize = r.table.getSize
  map_eq : r'.mapSize = r.mapSize
  keeps : ∀ c ∈ bs, Keeps r r' c.id

variable (h : Inv r bs fs)
include h

theorem Moved.refl : Moved r bs r :=
  ⟨⟨bs, fs, h, List.Perm.refl _⟩, rfl, rfl, fun c _ => Keeps.refl r c.id⟩

theorem Moved.of_compress : ∃ r', r.compress = some r' ∧ Moved r bs r' := by
  obtain ⟨r', he, h', hb, hm, hk⟩ := h.compress
  refine ⟨r', he, ⟨_, fs, h', ?_⟩, hb, hm, hk⟩
  rw [map_id_compact]

omit h in
theorem Moved.trans {r' r'' : Rubber} {bs' : List (Block Nat)} (h : Moved r bs r')
    (hp : (bs'.map Block.id).Perm (bs.map Block.id)) (h' : Moved r' bs' r'') :
    Moved r bs r'' := by
  obtain ⟨bs'', fs'', hi, hp'⟩ := h'.inv
  refine ⟨⟨bs'', fs'', hi, hp'.trans hp⟩, h'.base_eq.trans h.base_eq, h'.map_eq.trans h.map_eq, ?_⟩
  intro c hc
  obtain ⟨c', hc', hcc⟩ := mem_map.mp (hp.mem_iff.mpr (mem_map_of_mem hc))
  exact (h.keeps c hc).trans (hcc ▸ h'.keeps c' hc')

/-- The objects are moved together, or the last ones into holes. -/
theorem Moved.of_tidy (size : Nat) : ∃ r', r.tidy size = some r' ∧ Moved r bs r' := by
  unfold tidy
  split
  · exact Moved.of_compress h
  next hlt =>
  have hbs : bs ≠ [] := by
    rintro rfl
    have hn := h.netto
    rw [total_nil] at hn
    omega
  obtain ⟨r1, bs1, he, h₁, hp, hb, hm, hk⟩ := h.moveLastLoop
    (size - 1) (r.mapSize + 1) hbs (Nat.lt_succ_of_le (h.fits hbs))
  exact ⟨r1, he, ⟨bs1, fs, h₁, hp⟩, hb, hm, hk⟩

private theorem Moved.of_makeRoom (size : Nat) :
    ∃ r', r.makeRoom size = some r' ∧ Moved r bs r' := by
  unfold makeRoom
  split
  · exact Moved.of_compress h
  · exact ⟨r, rfl, Moved.refl h⟩

private theorem addBehind (hs : rubberAlign ∣ size) (h0 : 0 < size) :
    ∃ id r', r.addBehind size = some (id, r') ∧ Added r bs size id r' := by
  obtain ⟨r1, he1, hm1⟩ := Moved.of_tidy h size
  obtain ⟨bs1, fs1, h₁, hp1⟩ := hm1.inv
  obtain ⟨r2, he2, hm2⟩ := Moved.of_makeRoom h₁ size
  have hm := hm1.trans hp1 hm2
  obtain ⟨bs2, fs2, h₂, hp2⟩ := hm.inv
  simp only [Rubber.addBehind, bind_eq_bind, he1, he2, bind_some]
  split
  · exact ⟨0, r2, rfl, ⟨bs2, fs2, h₂, by simpa using hp2⟩, by simp, hm.base_eq, hm.map_eq, hm.keeps⟩
  next hfi =>
  rw [h₂.table.getTailOffset_eq] at hfi
  obtain ha | ⟨id, table, fs', ha, hid, h', hb, hk⟩ := h₂.addTail hs h0 (by omega)
  · refine ⟨0, r2, ?_, ⟨bs2, fs2, h₂, by simpa using hp2⟩, by simp, hm.base_eq, hm.map_eq, hm.keeps⟩
    simp only [ha]
    rfl
  refine ⟨id, _, ?_, ⟨_, fs', h', ?_⟩, ?_, hb.trans hm.base_eq, hm.map_eq, ?_⟩
  · simp only [ha, Nat.pos_of_ne_zero hid, if_true]
  · rw [if_neg hid, map_append]
    exact (perm_append_singleton _ _).trans (hp2.cons _)
  · intro _
    exact h'.table.size_eq ⟨id, stop r2.table.getSize bs2, size⟩ (by simp)
  · intro c hc
    obtain ⟨c', hc', hcc⟩ := mem_map.mp (hp2.mem_iff.mpr (mem_map_of_mem hc))
    exact (hm.keeps c hc).trans (hcc ▸ hk c' hc')

/-- `Add` always returns; it fails, or adds an object of the aligned size. -/
theorem add (h0 : 0 < size) :
    ∃ id r', r.add size = some (id, r') ∧ Added r bs (alignSize size) id r' := by
  have hs := dvd_alignSize size
  have h0' : 0 < alignSize size := Nat.lt_of_lt_of_le h0 (le_alignSize size)
  simp only [Rubber.add]
  split
  · exact ⟨0, r, rfl, ⟨bs, fs, h, by simp⟩, by simp, rfl, rfl, fun c _ => Keeps.refl r c.id⟩
  split
  · obtain he | ⟨id, r', bs', fs', he, hid, h', hp, hsz, hb, hm, hk⟩ := h.addInHole hs h0'
    · simp only [he, bind_eq_bind]
      exact h.addBehind hs h0'
    · refine ⟨id, r', ?_, ⟨bs', fs', h', by rwa [if_neg hid]⟩, fun _ => hsz, hb, hm, hk⟩
      simp only [he, bind_eq_bind, bind_some, hid, ne_eq, not_false_eq_true, if_true]
  · exact h.addBehind hs h0'

end Inv
end BengProxy.Memory
