import BengProxy.Memory.RubberSession

/-!
# When the rubber allocator fails

`Rubber::Add` looks for a hole, then moves objects out of the way, then compresses. Together these
are complete: an allocation fails only if the memory map or the allocation table is full, however
the free memory is fragmented.
-/

namespace BengProxy.Memory

open Base Tiling List RubberTable Rubber Option Session

variable {size : Nat}

/-- The table has an id to give away, `src/memory/Rubber.cxx:256-257`. -/
def RubberTable.hasUnusedId (t : RubberTable) : Prop :=
  t.freeHead ≠ 0 ∨ t.initializedTail < t.maxEntries

private theorem RubberTable.addId_eq_zero_iff {t : RubberTable} (h0 : 0 < t.initializedTail) :
    t.addId.1 = 0 ↔ ¬ t.hasUnusedId := by
  unfold addId hasUnusedId
  by_cases hfr : t.freeHead = 0
  · rw [if_pos hfr]
    by_cases hfu : t.maxEntries ≤ t.initializedTail
    · rw [if_pos hfu]
      omega
    · rw [if_neg hfu]
      omega
  · rw [if_neg hfr]
    simp only [hfr, ne_eq, not_false_eq_true, true_or, not_true_eq_false]

/-- The ids that are left, and the netto size, are the same. -/
structure SameIds (r r' : Rubber) : Prop where
  freeHead : r'.table.freeHead = r.table.freeHead
  initializedTail : r'.table.initializedTail = r.table.initializedTail
  maxEntries : r'.table.maxEntries = r.table.maxEntries
  netto : r'.nettoSize = r.nettoSize

namespace SameIds

variable {r r' r'' : Rubber}

theorem refl (r : Rubber) : SameIds r r := ⟨rfl, rfl, rfl, rfl⟩

theorem trans (h : SameIds r r') (h' : SameIds r' r'') : SameIds r r'' :=
  ⟨h'.freeHead.trans h.freeHead, h'.initializedTail.trans h.initializedTail,
    h'.maxEntries.trans h.maxEntries, h'.netto.trans h.netto⟩

private theorem hasUnusedId_iff (h : SameIds r r') :
    r'.table.hasUnusedId ↔ r.table.hasUnusedId := by
  unfold hasUnusedId
  rw [h.freeHead, h.initializedTail, h.maxEntries]

private theorem moveData (r : Rubber) (id n : Nat) : SameIds r
    (r.moveData id n) := by
  unfold Rubber.moveData
  simp only
  split
  · exact refl r
  · exact ⟨rfl, rfl, rfl, rfl⟩

private theorem compressLoop (fuel : Nat) :
    ∀ {r : Rubber} {id o end' : Nat},
      compressLoop fuel r id o = some (r', end') → SameIds r r' := by
  induction fuel with
  | zero => intro r id o end' h; cases h
  | succ fuel ih =>
    intro r id o end' h
    rw [Rubber.compressLoop] at h
    split at h
    · cases h; exact refl _
    · exact (moveData r _ o).trans (ih h)

private theorem compress (h : r.compress = some r') : SameIds r r' := by
  unfold Rubber.compress at h
  split at h
  · cases h; exact refl _
  obtain ⟨⟨r1, offset⟩, hlo, h⟩ := bind_eq_some_iff.mp h
  have hsa := compressLoop _ hlo
  have hs' : SameIds r r1 := ⟨hsa.freeHead, hsa.initializedTail, hsa.maxEntries, hsa.netto⟩
  simp only at h
  split at h <;> cases h
  · exact ⟨hs'.freeHead, hs'.initializedTail, hs'.maxEntries, hs'.netto⟩
  · exact hs'

private theorem useHole {o id : Nat} (h : r.useHole o id size = some r') :
    SameIds r r' := by
  obtain ⟨hole, -, h⟩ := bind_eq_some_iff.mp h
  have hli : SameIds r { r with table := r.table.link id hole.previousId hole.nextId } :=
    ⟨freeHead_link .., initializedTail_link .., maxEntries_link .., rfl⟩
  split at h <;> cases h
  all_goals exact ⟨hli.freeHead, hli.initializedTail, hli.maxEntries, rfl⟩

private theorem moveLast {m : Nat} {mo : Bool}
    (h : r.moveLast m = some (mo, r')) : SameIds r r' := by
  unfold Rubber.moveLast at h
  simp only at h
  split at h
  · cases h; exact refl _
  obtain ⟨found, -, h⟩ := bind_eq_some_iff.mp h
  cases found with
  | none => cases h; exact refl _
  | some offset =>
    obtain ⟨hole, -, h⟩ := bind_eq_some_iff.mp h
    split at h
    · cases h; exact refl _
    obtain ⟨r1, hu, h⟩ := bind_eq_some_iff.mp h
    obtain ⟨mem, -, h⟩ := bind_eq_some_iff.mp h
    cases h
    have hsa := useHole hu
    rw [discardHoleBetween_eq] at hsa
    let last := r.table.previousOf 0
    exact ⟨hsa.freeHead.trans (freeHead_unlink r.table last),
      hsa.initializedTail.trans (initializedTail_unlink r.table last),
      hsa.maxEntries.trans (maxEntries_unlink r.table last), hsa.netto⟩

private theorem moveLastLoop (fuel m : Nat) :
    ∀ {r : Rubber}, moveLastLoop fuel r m = some r' → SameIds r r' := by
  induction fuel with
  | zero => intro r h; cases h
  | succ fuel ih =>
    intro r h
    obtain ⟨⟨moved, r1⟩, hmo, h⟩ := bind_eq_some_iff.mp h
    cases moved with
    | true => exact (moveLast hmo).trans (ih h)
    | false => cases h; exact moveLast hmo

private theorem tidy (h : r.tidy size = some r') : SameIds r r' := by
  unfold Rubber.tidy at h
  split at h
  · exact compress h
  · exact moveLastLoop _ _ h

private theorem makeRoom (h : r.makeRoom size = some r') : SameIds r r' := by
  unfold Rubber.makeRoom at h
  split at h
  · exact compress h
  · cases h; exact refl _

end SameIds

namespace Inv

variable {r : Rubber} {bs : List (Block Nat)} {fs : List Nat}

variable (h : Inv r bs fs)
include h

private theorem netto_le_tail : r.table.getSize + r.nettoSize ≤ r.table.getTailOffset := by
  rw [h.table.getTailOffset_eq, h.ordered.stop_eq 0, h.netto]
  omega

variable {r' : Rubber}

private theorem tail_of_compress (he : r.compress = some r') :
    r'.table.getTailOffset = r.table.getSize + r.nettoSize := by
  obtain ⟨r1, he1, h1, hb, -, -⟩ := h.compress
  obtain rfl : r1 = r' := some.inj (he1.symm.trans he)
  rw [h1.table.getTailOffset_eq, h1.ordered.stop_eq 0, hb, gaps_compact, total_compact, h.netto]
  rfl

private theorem room_iff (he : r.makeRoom size = some r') :
    r'.table.getTailOffset + size > r'.mapSize ↔
      r.table.getSize + (r.nettoSize + size) > r.mapSize := by
  have hle := h.netto_le_tail
  unfold makeRoom at he
  split at he
  · obtain ⟨r1, he1, -, -, hma, -⟩ := h.compress
    obtain rfl : r1 = r' := some.inj (he1.symm.trans he)
    rw [h.tail_of_compress he]
    omega
  next hfi =>
    cases he
    omega

private theorem addBehind_eq_zero_iff {id : Nat} (he : r.addBehind size = some (id, r')) :
    id = 0 ↔ r.table.getSize + (r.nettoSize + size) > r.mapSize ∨ ¬ r.table.hasUnusedId := by
  obtain ⟨r1, he1, hmo⟩ := Moved.of_tidy h size
  rw [Rubber.addBehind, he1, bind_eq_bind, bind_some] at he
  obtain ⟨r2, he2, he⟩ := bind_eq_some_iff.mp he
  obtain ⟨bs1, fs1, h1, -⟩ := hmo.inv
  have hsa := (SameIds.tidy he1).trans (SameIds.makeRoom he2)
  have hro := h1.room_iff he2
  rw [hmo.base_eq, hmo.map_eq, (SameIds.tidy he1).netto] at hro
  rw [← hro, ← hsa.hasUnusedId_iff]
  by_cases hfu : r2.table.getTailOffset + size > r2.mapSize
  · rw [if_pos hfu] at he
    cases he
    exact iff_of_true rfl (.inl hfu)
  rw [if_neg hfu] at he
  have hpo : 0 < r2.table.initializedTail := by
    rw [hsa.initializedTail]
    exact h.table.tail_pos
  have hid : (r2.table.add r2.table.getTailOffset size).1 = r2.table.addId.1 := by
    unfold RubberTable.add
    simp only
    split
    next hz => exact hz.symm
    · rfl
  have hre : id = (r2.table.add r2.table.getTailOffset size).1 := by
    simp only at he
    split at he <;> cases he <;> rfl
  rw [hre, hid, addId_eq_zero_iff hpo, or_iff_right hfu]

private theorem hasUnusedId_of_addInHole {id : Nat} (he : r.addInHole size = some (id, r'))
    (hid : id ≠ 0) : r.table.hasUnusedId := by
  obtain ⟨found, -, he⟩ := bind_eq_some_iff.mp he
  cases found with
  | none =>
    cases he
    exact absurd rfl hid
  | some offset =>
    by_contra hn
    rw [← addId_eq_zero_iff h.table.tail_pos] at hn
    simp only [addInHoleAt, hn] at he
    cases he
    exact hid rfl

private theorem add_eq_zero_iff (hba : 0 < r.table.getSize) {id : Nat} (h0 : 0 < size)
    (he : r.add size = some (id, r')) :
    id = 0 ↔ r.nettoSize + alignSize size > r.getMaxSize ∨ ¬ r.table.hasUnusedId := by
  have hle := le_alignSize size
  have hma : r.nettoSize + alignSize size > r.getMaxSize ↔
      r.table.getSize + (r.nettoSize + alignSize size) > r.mapSize := by
    unfold Rubber.getMaxSize
    omega
  rw [hma]
  unfold Rubber.add at he
  by_cases hsa : size ≥ r.mapSize
  · rw [if_pos hsa] at he
    cases he
    exact iff_of_true rfl (.inl (by omega))
  rw [if_neg hsa] at he
  by_cases hh : r.nettoSize + alignSize size ≤ r.getBruttoSize
  · rw [if_pos hh] at he
    obtain hn | ⟨id', r1, -, -, he1, hid, -⟩ :=
      h.addInHole (dvd_alignSize size) (Nat.lt_of_lt_of_le h0 hle)
    · rw [hn] at he
      exact h.addBehind_eq_zero_iff he
    · rw [he1, Option.bind_eq_bind, Option.bind_some] at he
      simp only [hid, ne_eq, not_false_eq_true] at he
      cases he
      -- what fits into a hole fits into the memory map
      have hfi : ¬ r.table.getSize + (r.nettoSize + alignSize size) > r.mapSize := by
        have hb : bs ≠ [] := by
          rintro rfl
          rw [Rubber.getBruttoSize, h.table.getBruttoSize_eq, stop] at hh
          omega
        have hst := h.fits hb
        rw [Rubber.getBruttoSize, h.table.getBruttoSize_eq] at hh
        omega
      have hu := h.hasUnusedId_of_addInHole he1 hid
      exact iff_of_false hid fun ho => ho.elim hfi fun ht => ht hu
  · rw [if_neg hh] at he
    exact h.addBehind_eq_zero_iff he

end Inv

namespace Session

variable {s s' : Session} {c : Call}

private theorem Valid.map_step (h : s.Valid) (hst : s.Step c s') :
    s'.rubber.table.getSize = s.rubber.table.getSize ∧ s'.rubber.mapSize = s.rubber.mapSize := by
  obtain ⟨bs, fs, hi, hp⟩ := h
  obtain ⟨ha, he⟩ := hst
  cases c with
  | add size =>
    obtain ⟨id, r, he', had⟩ := hi.add ha
    rw [Session.step, he'] at he
    cases he
    exact ⟨had.base_eq, had.map_eq⟩
  | remove id =>
    obtain ⟨b, hb, rfl⟩ := mem_map.mp (hp.mem_iff.mpr ha)
    obtain ⟨xs, ys, rfl⟩ := append_of_mem hb
    obtain ⟨r, he', -, hba, hma, -⟩ := hi.remove
    rw [Session.step, he'] at he
    cases he
    exact ⟨hba, hma⟩
  | shrink id newSize =>
    obtain ⟨hid, h0, hle⟩ := ha
    obtain ⟨b, hb, rfl⟩ := mem_map.mp (hp.mem_iff.mpr hid)
    rw [Rubber.getSizeOf, RubberTable.getSizeOf, hi.table.size_eq b hb] at hle
    obtain ⟨xs, ys, rfl⟩ := append_of_mem hb
    obtain ⟨r, he', -, hba, hma, -⟩ := hi.shrink h0 hle
    rw [Session.step, he'] at he
    cases he
    exact ⟨hba, hma⟩
  | compress =>
    obtain ⟨r, he', -, hba, hma, -⟩ := hi.compress
    rw [Session.step, he'] at he
    cases he
    exact ⟨hba, hma⟩
  | write id position bytes =>
    cases he
    exact ⟨rfl, rfl⟩

private theorem map_of_run {p : Placement} {m : Nat} {ca : List Call}
    (h : Run Step (new p m) ca s) :
    s.rubber.table.getSize = (new p m).rubber.table.getSize ∧
      s.rubber.mapSize = (new p m).rubber.mapSize := by
  have hi := h.invariant (P := fun s => s.Valid ∧
      s.rubber.table.getSize = (new p m).rubber.table.getSize ∧
      s.rubber.mapSize = (new p m).rubber.mapSize)
    ⟨⟨[], [], Inv.new p m, List.Perm.refl _⟩, rfl, rfl⟩ ?_
  · exact hi.2
  · rintro s c s' ⟨hv, hb, hma⟩ hst
    obtain ⟨s1, he, hv', -⟩ := hv.step hst.1
    obtain rfl : s1 = s' := some.inj (he.symm.trans hst.2)
    obtain ⟨hb', hm'⟩ := hv.map_step hst
    exact ⟨hv', hb'.trans hb, hm'.trans hma⟩

end Session

private theorem alignHugePageUp_le (hu x : Nat) :
    alignHugePageUp hu x ≤ x + (hu - 1) := Nat.div_mul_le_self _ _

private theorem getSize_new_pos (p : Placement) (m : Nat) :
    0 < (new p m).rubber.table.getSize := by
  have hle := le_alignHugePageUp p.huge_pos (p.begin + requiredSize
    ((p.hugePageSize + alignHugePageUp p.hugePageSize m) / 1024))
  have hpo : 0 < requiredSize
      ((p.hugePageSize + alignHugePageUp p.hugePageSize m) / 1024) := by
    unfold requiredSize sizeofTable
    omega
  exact Nat.sub_pos_of_lt (by omega)

private theorem getSize_new_le (p : Placement) {maxSize : Nat} (h0 : 0 < maxSize)
    (hh : 64 ≤ p.hugePageSize) :
    (new p maxSize).rubber.table.getSize ≤ (new p maxSize).rubber.mapSize := by
  have ho : p.hugePageSize ≤ alignHugePageUp p.hugePageSize maxSize := by
    apply Nat.le_mul_of_pos_left
    exact Nat.div_pos (by omega) p.huge_pos
  have hu := alignHugePageUp_le p.hugePageSize (p.begin + requiredSize
    ((p.hugePageSize + alignHugePageUp p.hugePageSize maxSize) / 1024))
  simp only [Session.new, Rubber.new, RubberTable.new, RubberTable.getSize, RubberTable.sizeOf]
  simp only [requiredSize, sizeofTable, sizeofObject] at hu ⊢
  omega

/-- After every sequence of allowed calls, `Add` returns. It fails if and only if the object does
not fit into what the objects leave of the memory map, or all ids are in use; then every object has
its size and its contents. -/
theorem add_fails_iff {p : Placement} {maxSize : Nat} {calls : List Call} {s : Session}
    (h : Run Session.Step (new p maxSize) calls s) {size : Nat} (h0 : 0 < size) :
    ∃ id r', s.rubber.add size = some (id, r') ∧
      (id = 0 ↔ s.rubber.nettoSize + alignSize size > s.rubber.getMaxSize ∨
        (s.rubber.table.freeHead = 0 ∧
          s.rubber.table.maxEntries ≤ s.rubber.table.initializedTail)) ∧
      (id = 0 → ∀ object ∈ s.live, r'.getSizeOf object = s.rubber.getSizeOf object ∧
        r'.read object = s.rubber.read object) ∧
      (0 < maxSize → 64 ≤ p.hugePageSize → s.rubber.table.getSize ≤ s.rubber.mapSize) := by
  obtain ⟨bs, fs, hi, hp⟩ := valid_of_run h
  obtain ⟨hba, hma⟩ := map_of_run h
  obtain ⟨id, r', he, had⟩ := hi.add h0
  refine ⟨id, r', he, ?_, ?_, ?_⟩
  · have hpo := getSize_new_pos p maxSize
    rw [← hba] at hpo
    rw [hi.add_eq_zero_iff hpo h0 he, hasUnusedId, not_or, not_not, Nat.not_lt]
  · intro _ object ho
    obtain ⟨b, hb, rfl⟩ := mem_map.mp (hp.mem_iff.mpr ho)
    exact ⟨(had.keeps b hb).1, (had.keeps b hb).read_eq⟩
  · intro hmax hh
    rw [hba, hma]
    exact getSize_new_le p hmax hh

/-- The memory behind the second object is not enough for 4000 bytes, but with the hole before
it. -/
theorem add_fails_sample :
    ∃ s id r', Run Session.Step (new samplePlacement 4096)
        [.add 100, .add 50, .remove 1] s ∧
      s.rubber.table.getTailOffset + 4000 > s.rubber.mapSize ∧
      s.rubber.add 4000 = some (id, r') ∧ id ≠ 0 := by
  have h : ∃ s, Run Session.Step (new samplePlacement 4096)
      [.add 100, .add 50, .remove 1] s ∧
      s.rubber.table.getTailOffset + 4000 > s.rubber.mapSize ∧
      s.rubber.nettoSize = 64 ∧ s.rubber.getMaxSize = 4096 ∧ s.rubber.table.freeHead = 1 :=
    ⟨_, .cons ⟨by decide, rfl⟩ (.cons ⟨by decide, rfl⟩ (.cons ⟨by decide, rfl⟩ .nil)),
      by decide, rfl, rfl, rfl⟩
  obtain ⟨s, hru, ht, hnet, hma, hfr⟩ := h
  obtain ⟨id, r', he, hi, -⟩ := add_fails_iff hru (show 0 < 4000 by decide)
  refine ⟨s, id, r', hru, ht, he, ?_⟩
  rw [hnet, hma, hfr] at hi
  intro hz
  rcases hi.mp hz with hme | hids
  · exact absurd hme (by decide)
  · exact absurd hids.1 Nat.one_ne_zero

end BengProxy.Memory
