import BengProxy.Base.Tiling
import BengProxy.Memory.RubberTable
import Mathlib.Data.List.Perm.Subperm

/-!
# What the allocation table means

`TableIs t bs rs fs` relates a table to the blocks it describes: the linked list through
entry 0 visits the blocks in order, `rs` are ids that were taken from one list and not yet
put into the other, and `fs` is the list of free ids. Every table operation moves one id
between the three.
-/

namespace BengProxy.Memory

open Base Tiling RubberTable List Function

/-- The table describes the blocks `bs`, with reserved ids `rs` and free ids `fs`. -/
structure TableIs (t : RubberTable) (bs : List (Block Nat)) (rs fs : List Nat) : Prop where
  ring : Ring t.nextOf t.previousOf 0 (bs.map Block.id)
  offset_eq : ∀ b ∈ bs, t.offsetOf b.id = b.offset
  size_eq : ∀ b ∈ bs, t.sizeOf b.id = b.size
  offset_root : t.offsetOf 0 = 0
  free : Stack t.nextOf 0 t.freeHead fs
  nodup : (bs.map Block.id ++ (rs ++ fs)).Nodup
  mem_ids : ∀ id, id ∈ bs.map Block.id ++ (rs ++ fs) ↔ 0 < id ∧ id < t.initializedTail
  tail_pos : 0 < t.initializedTail
  tail_le : t.initializedTail ≤ t.maxEntries

namespace TableIs

variable {t : RubberTable} {bs xs ys : List (Block Nat)} {b : Block Nat} {rs fs : List Nat}
  {id offset size : Nat}

/-- An entry is a block of the list if its id is. -/
theorem mem_of_id (h : TableIs t bs rs fs) (hid : id ∈ bs.map Block.id) :
    ⟨id, t.offsetOf id, t.sizeOf id⟩ ∈ bs := by
  obtain ⟨b, hb, rfl⟩ := mem_map.mp hid
  rw [h.offset_eq b hb, h.size_eq b hb]
  exact hb

theorem id_pos (h : TableIs t bs rs fs) (hb : b ∈ bs) : 0 < b.id :=
  ((h.mem_ids b.id).mp (mem_append_left _ (mem_map_of_mem hb))).1

/-- The entry of a block ends where the block does. -/
theorem getEndOffset_eq (h : TableIs t bs rs fs) (hb : b ∈ bs) :
    (t.entries b.id).getEndOffset = b.stop := by
  have ho := h.offset_eq b hb
  have hs := h.size_eq b hb
  simp only [RubberTable.offsetOf, RubberTable.sizeOf] at ho hs
  rw [RubberObject.getEndOffset, ho, hs, Block.stop]

/-- The blocks before a point of the list end where its last entry does. -/
theorem getEndOffset_last (h : TableIs t (xs ++ ys) rs fs) :
    (t.entries (lastId 0 xs)).getEndOffset = stop t.getSize xs := by
  rcases eq_nil_or_concat xs with rfl | ⟨xs', x, rfl⟩
  · have h0 := h.offset_root
    simp only [RubberTable.offsetOf] at h0
    simp only [lastId_nil, RubberObject.getEndOffset, h0, stop, getSize,
      RubberTable.sizeOf, zero_add]
  · have hl : lastId 0 (xs'.concat x) = x.id := by
      simp [lastId]
    rw [hl, h.getEndOffset_eq (by simp), concat_eq_append, stop_append]
    rfl

/-- The links of a block lead to its neighbours. -/
theorem links (h : TableIs t (xs ++ b :: ys) rs fs) :
    t.nextOf b.id = firstId 0 ys ∧ t.previousOf b.id = lastId 0 xs := by
  have hr := h.ring
  rw [map_append] at hr
  exact hr.links

/-- The links at a point of the list, where one of the sides may be the root. -/
theorem cut (h : TableIs t (xs ++ ys) rs fs) :
    t.nextOf (lastId 0 xs) = firstId 0 ys ∧ t.previousOf (firstId 0 ys) = lastId 0 xs := by
  have hr := h.ring
  rw [map_append] at hr
  exact hr.cut

/-- The end of the last block is the tail offset of the table. -/
theorem getTailOffset_eq (h : TableIs t bs rs fs) : t.getTailOffset = stop t.getSize bs := by
  have h' : TableIs t (bs ++ []) rs fs := by rwa [append_nil]
  have hc : t.previousOf 0 = lastId 0 bs := h'.cut.2
  rw [getTailOffset, getTail, hc]
  exact h'.getEndOffset_last

/-- The brutto size is the distance from the table to the end of the last block. -/
theorem getBruttoSize_eq (h : TableIs t bs rs fs) :
    t.getBruttoSize = stop t.getSize bs - t.getSize := by
  exact congrArg (· - t.getSize) h.getTailOffset_eq

/-- The ids of the list differ from each other. -/
theorem nodup_ids (h : TableIs t bs rs fs) : (bs.map Block.id).Nodup :=
  (nodup_append.mp h.nodup).1

/-- The id of one block is not the id of another one. -/
theorem id_ne (h : TableIs t (xs ++ b :: ys) rs fs) {c : Block Nat} (hc : c ∈ xs ++ ys) :
    c.id ≠ b.id := by
  have hn := h.nodup_ids
  rw [map_append, map_cons, nodup_middle, nodup_cons, ← map_append] at hn
  intro he
  exact hn.1 (he ▸ mem_map_of_mem hc)

/-- There are fewer objects than initialized entries. -/
theorem length_lt (h : TableIs t bs rs fs) : bs.length < t.initializedTail := by
  have hnd : (0 :: bs.map Block.id).Nodup := h.ring.1
  have hsu : 0 :: bs.map Block.id ⊆ List.range t.initializedTail := by
    intro i hi
    rw [mem_range]
    rcases mem_cons.mp hi with rfl | hi
    · exact h.tail_pos
    · exact ((h.mem_ids i).mp (mem_append_left _ hi)).2
  have hl := (subperm_of_subset hnd hsu).length_le
  simp only [length_cons, length_map, length_range] at hl
  omega

private theorem free_ne_last (h : TableIs t (xs ++ ys) rs fs) (hid : id ∈ fs) :
    id ≠ lastId 0 xs := by
  rintro rfl
  have hl : lastId 0 xs ∈ 0 :: xs.map Block.id := getLastD_mem_cons
  rcases mem_cons.mp hl with he | he
  · have h0 := (h.mem_ids 0).mp (by rw [he] at hid; simp [hid])
    exact Nat.lt_irrefl 0 h0.1
  · have hm : lastId 0 xs ∈ (xs ++ ys).map Block.id := by
      rw [map_append]
      exact mem_append_left _ he
    exact (nodup_append.mp h.nodup).2.2 _ hm _ (mem_append_right _ hid) rfl

private theorem of_fields {t' : RubberTable} {bs' : List (Block Nat)} (h : TableIs t bs rs fs)
    (hd : bs'.map Block.id = bs.map Block.id) (hn : t'.nextOf = t.nextOf)
    (hp : t'.previousOf = t.previousOf) (ho : ∀ b ∈ bs', t'.offsetOf b.id = b.offset)
    (hs : ∀ b ∈ bs', t'.sizeOf b.id = b.size) (h0 : t'.offsetOf 0 = 0)
    (hf : t'.freeHead = t.freeHead) (hi : t'.initializedTail = t.initializedTail)
    (hm : t'.maxEntries = t.maxEntries) : TableIs t' bs' rs fs where
  ring := by rw [hn, hp, hd]; exact h.ring
  offset_eq := ho
  size_eq := hs
  offset_root := h0
  free := by rw [hn, hf]; exact h.free
  nodup := by rw [hd]; exact h.nodup
  mem_ids := by rw [hd, hi]; exact h.mem_ids
  tail_pos := by rw [hi]; exact h.tail_pos
  tail_le := by rw [hi, hm]; exact h.tail_le

/-- Moving one block in the table moves it in the list. -/
theorem setOffset (h : TableIs t (xs ++ b :: ys) rs fs) :
    TableIs (t.setOffset b.id offset) (xs ++ { b with offset := offset } :: ys) rs fs := by
  have hb : b ∈ xs ++ b :: ys := by simp
  have h0 := h.id_pos hb
  refine h.of_fields (by simp) (by simp) (by simp) ?_ ?_ ?_ rfl rfl rfl
  · intro c hc
    rw [offsetOf_setOffset]
    rcases mem_middle.mp hc with rfl | he
    · rw [update_self]
    · rw [update_of_ne (h.id_ne he), h.offset_eq c (mem_middle.mpr (.inr he))]
  · intro c hc
    rw [sizeOf_setOffset]
    rcases mem_middle.mp hc with rfl | he
    · exact h.size_eq b hb
    · exact h.size_eq c (mem_middle.mpr (.inr he))
  · rw [offsetOf_setOffset, update_of_ne (Nat.ne_of_lt h0)]
    exact h.offset_root

/-- Resizing one block in the table resizes it in the list. -/
theorem setSize (h : TableIs t (xs ++ b :: ys) rs fs) :
    TableIs (t.setSize b.id size) (xs ++ { b with size := size } :: ys) rs fs := by
  have hb : b ∈ xs ++ b :: ys := by simp
  refine h.of_fields (by simp) (by simp) (by simp) ?_ ?_ ?_ rfl rfl rfl
  · intro c hc
    rw [offsetOf_setSize]
    rcases mem_middle.mp hc with rfl | he
    · exact h.offset_eq b hb
    · exact h.offset_eq c (mem_middle.mpr (.inr he))
  · intro c hc
    rw [sizeOf_setSize]
    rcases mem_middle.mp hc with rfl | he
    · rw [update_self]
    · rw [update_of_ne (h.id_ne he), h.size_eq c (mem_middle.mpr (.inr he))]
  · rw [offsetOf_setSize]
    exact h.offset_root

/-- Moving an entry that is reserved does not change the list. -/
theorem setOffset_reserved (h : TableIs t bs [id] fs) :
    TableIs (t.setOffset id offset) bs [id] fs := by
  have hid : id ∉ bs.map Block.id := by
    intro hm
    exact (nodup_append.mp h.nodup).2.2 id hm id (by simp) rfl
  have h0 : 0 < id := ((h.mem_ids id).mp (by simp)).1
  refine h.of_fields rfl (by simp) (by simp) ?_ ?_ ?_ rfl rfl rfl
  · intro c hc
    have hne : c.id ≠ id := ne_of_mem_of_not_mem (mem_map_of_mem hc) hid
    rw [offsetOf_setOffset, update_of_ne hne, h.offset_eq c hc]
  · intro c hc
    rw [sizeOf_setOffset, h.size_eq c hc]
  · rw [offsetOf_setOffset, update_of_ne (Nat.ne_of_lt h0)]
    exact h.offset_root

private theorem setSize_reserved (h : TableIs t bs [id] fs) :
    TableIs (t.setSize id size) bs [id] fs := by
  have hid : id ∉ bs.map Block.id := by
    intro hm
    exact (nodup_append.mp h.nodup).2.2 id hm id (by simp) rfl
  refine h.of_fields rfl (by simp) (by simp) ?_ ?_ ?_ rfl rfl rfl
  · intro c hc
    rw [offsetOf_setSize, h.offset_eq c hc]
  · intro c hc
    have hne : c.id ≠ id := ne_of_mem_of_not_mem (mem_map_of_mem hc) hid
    rw [sizeOf_setSize, update_of_ne hne, h.size_eq c hc]
  · rw [offsetOf_setSize]
    exact h.offset_root

private theorem init (h : TableIs t bs [id] fs) : TableIs (t.init id offset size) bs [id] fs :=
  h.setOffset_reserved.setSize_reserved

/-- Linking a reserved id puts its entry into the list. -/
theorem link (h : TableIs t (xs ++ ys) [id] fs) :
    TableIs (t.link id (lastId 0 xs) (firstId 0 ys))
      (xs ++ ⟨id, t.offsetOf id, t.sizeOf id⟩ :: ys) [] fs := by
  have hr := h.ring
  have hn := h.nodup
  have hm := h.mem_ids
  rw [map_append] at hr hn hm
  have hid : id ∉ xs.map Block.id ++ ys.map Block.id := by
    intro hi
    exact (nodup_append.mp hn).2.2 id hi id (by simp) rfl
  have h0 : 0 < id := ((hm id).mp (by simp)).1
  refine ⟨?_, ?_, ?_, ?_, ?_, ?_, ?_, ?_, ?_⟩
  · rw [nextOf_link, previousOf_link, map_append]
    apply hr.insert
    simp only [mem_cons, not_or]
    exact ⟨Nat.ne_of_gt h0, hid⟩
  · intro c hc
    rw [offsetOf_link]
    rcases mem_middle.mp hc with rfl | hc
    · rfl
    · exact h.offset_eq c hc
  · intro c hc
    rw [sizeOf_link]
    rcases mem_middle.mp hc with rfl | hc
    · rfl
    · exact h.size_eq c hc
  · rw [offsetOf_link]; exact h.offset_root
  · rw [nextOf_link]
    apply h.free.congr
    intro c hc
    have hci : c ≠ id := by
      rintro rfl
      have hd := (nodup_append.mp hn).2.1
      exact (nodup_cons.mp hd).1 hc
    rw [update_of_ne (h.free_ne_last hc), update_of_ne hci]
  · rw [map_append, map_cons, append_assoc, cons_append, nodup_middle, nodup_cons]
    rw [cons_append, nodup_middle, nodup_cons, append_assoc] at hn
    exact hn
  · intro i
    rw [initializedTail_link, ← hm]
    simp only [map_append, map_cons, mem_append, mem_cons]
    tauto
  · rw [initializedTail_link]; exact h.tail_pos
  · rw [initializedTail_link]; exact h.tail_le

/-- Unlinking a block reserves its id. -/
theorem unlink (h : TableIs t (xs ++ b :: ys) [] fs) :
    TableIs (t.unlink b.id) (xs ++ ys) [b.id] fs := by
  have hr := h.ring
  have hn := h.nodup
  have hm := h.mem_ids
  rw [map_append, map_cons] at hr hn hm
  obtain ⟨hx, hpr⟩ := h.links
  have hsu : ∀ c ∈ xs ++ ys, c ∈ xs ++ b :: ys := fun c hc => mem_middle.mpr (.inr hc)
  refine ⟨?_, ?_, ?_, ?_, ?_, ?_, ?_, ?_, ?_⟩
  · rw [nextOf_unlink, previousOf_unlink, hx, hpr, map_append]
    exact hr.erase
  · intro c hc
    rw [offsetOf_unlink]
    exact h.offset_eq c (hsu c hc)
  · intro c hc
    rw [sizeOf_unlink]
    exact h.size_eq c (hsu c hc)
  · rw [offsetOf_unlink]; exact h.offset_root
  · rw [nextOf_unlink, hpr]
    apply h.free.congr
    intro c hc
    rw [update_of_ne (h.free_ne_last hc)]
  · rw [map_append, cons_append, nodup_middle, nodup_cons, append_assoc]
    rw [append_assoc, cons_append, nodup_middle, nodup_cons] at hn
    exact hn
  · intro i
    rw [initializedTail_unlink, ← hm]
    simp only [map_append, mem_append, mem_cons]
    tauto
  · rw [initializedTail_unlink]; exact h.tail_pos
  · rw [initializedTail_unlink]; exact h.tail_le

private theorem push_free (h : TableIs t bs [id] fs) :
    TableIs { t.setNext id t.freeHead with freeHead := id } bs [] (id :: fs) := by
  have hid : id ∉ 0 :: bs.map Block.id := by
    intro hm
    rcases mem_cons.mp hm with rfl | hm
    · exact Nat.lt_irrefl 0 ((h.mem_ids 0).mp (by simp)).1
    · exact (nodup_append.mp h.nodup).2.2 id hm id (by simp) rfl
  have hfs : id ∉ fs := (nodup_cons.mp (nodup_append.mp h.nodup).2.1).1
  have hn : nextOf { t.setNext id t.freeHead with freeHead := id } =
      update t.nextOf id t.freeHead := nextOf_setNext t id t.freeHead
  refine ⟨⟨h.ring.1, ?_⟩, ?_, ?_, ?_, ?_, h.nodup, h.mem_ids, h.tail_pos, h.tail_le⟩
  · rw [hn]
    apply h.ring.2.congr
    · intro c hc
      exact update_of_ne (ne_of_mem_of_not_mem hc hid) _ _
    · intro c _
      exact congrFun (previousOf_setNext t id t.freeHead) c
  · intro c hc
    exact (congrFun (offsetOf_setNext t id t.freeHead) c.id).trans (h.offset_eq c hc)
  · intro c hc
    exact (congrFun (sizeOf_setNext t id t.freeHead) c.id).trans (h.size_eq c hc)
  · exact (congrFun (offsetOf_setNext t id t.freeHead) 0).trans h.offset_root
  · refine ⟨rfl, ?_⟩
    rw [hn, update_self]
    apply h.free.congr
    intro c hc
    exact update_of_ne (ne_of_mem_of_not_mem hc hfs) _ _

/-- `Remove` takes a block from the list and frees its id; offsets and sizes stay. -/
theorem remove (h : TableIs t (xs ++ b :: ys) [] fs) :
    (t.remove b.id).1 = b.size ∧ TableIs (t.remove b.id).2 (xs ++ ys) [] (b.id :: fs) ∧
      (t.remove b.id).2.offsetOf = t.offsetOf ∧ (t.remove b.id).2.sizeOf = t.sizeOf := by
  have ho : (t.remove b.id).2.offsetOf = t.offsetOf :=
    (offsetOf_setNext _ _ _).trans (offsetOf_unlink _ _)
  have hs : (t.remove b.id).2.sizeOf = t.sizeOf := (sizeOf_setNext _ _ _).trans (sizeOf_unlink _ _)
  refine ⟨?_, h.unlink.push_free, ho, hs⟩
  exact (congrFun hs b.id).trans (h.size_eq b (by simp))

private theorem addId (h : TableIs t bs [] fs) :
    t.addId = (0, t) ∨
      ∃ id t' fs', t.addId = (id, t') ∧ 0 < id ∧ TableIs t' bs [id] fs' ∧
        t'.entries = t.entries ∧ t'.maxEntries = t.maxEntries := by
  unfold RubberTable.addId
  have hn := h.nodup
  rw [nil_append] at hn
  cases fs with
  | nil =>
    have hf : t.freeHead = 0 := h.free
    rw [if_pos hf]
    split
    · exact .inl rfl
    next hlt =>
    -- the list is used up: the first entry that was never used
    refine .inr ⟨_, _, [], rfl, h.tail_pos, ?_, rfl, rfl⟩
    have ht : t.initializedTail ∉ bs.map Block.id := by
      intro hm
      exact Nat.lt_irrefl _ ((h.mem_ids t.initializedTail).mp (by simpa using hm)).2
    refine ⟨h.ring, h.offset_eq, h.size_eq, h.offset_root, h.free, ?_, ?_, ?_, ?_⟩
    · rw [append_nil] at hn ⊢
      rw [nodup_append]
      refine ⟨hn, nodup_singleton _, ?_⟩
      rintro c hc d hd rfl
      obtain rfl := mem_singleton.mp hd
      exact ht hc
    · intro i
      have hi := h.mem_ids i
      have hp := h.tail_pos
      simp only [append_nil, mem_append, mem_singleton] at hi ⊢
      rw [hi]
      omega
    · exact Nat.succ_pos _
    · have := h.tail_le
      change t.initializedTail + 1 ≤ t.maxEntries
      omega
  | cons f fs =>
    obtain ⟨hf, hs⟩ := h.free
    have hpo : 0 < f := ((h.mem_ids f).mp (by simp)).1
    rw [if_neg (by rw [hf]; omega)]
    refine .inr ⟨_, _, fs, rfl, by rw [hf]; exact hpo, ?_, rfl, rfl⟩
    rw [hf]
    exact { h with free := hs }

/-- `AddId` followed by `Init`: fails without a change, or writes one reserved entry. -/
theorem addId_init (h : TableIs t bs [] fs) (offset size : Nat) :
    t.addId = (0, t) ∨
      ∃ id t' fs', t.addId = (id, t') ∧ 0 < id ∧ id ∉ bs.map Block.id ∧
        TableIs (t'.init id offset size) bs [id] fs' ∧
        (t'.init id offset size).offsetOf = update t.offsetOf id offset ∧
        (t'.init id offset size).sizeOf = update t.sizeOf id size ∧
        (t'.init id offset size).getSize = t.getSize := by
  obtain ha | ⟨id, t', fs', ha, hid, ht, he, -⟩ := h.addId
  · exact .inl ha
  have hto : t'.offsetOf = t.offsetOf := by
    funext i; simp only [offsetOf, he]
  have hts : t'.sizeOf = t.sizeOf := by
    funext i; simp only [RubberTable.sizeOf, he]
  have hs : (t'.init id offset size).sizeOf = update t.sizeOf id size := by
    simp only [RubberTable.init, RubberTable.sizeOf_setSize, RubberTable.sizeOf_setOffset, hts]
  refine .inr ⟨id, t', fs', ha, hid, ?_, ht.init, ?_, hs, ?_⟩
  · intro hm
    exact (nodup_append.mp ht.nodup).2.2 id hm id (by simp) rfl
  · simp only [RubberTable.init, RubberTable.offsetOf_setSize, RubberTable.offsetOf_setOffset, hto]
  · rw [getSize, hs, update_of_ne (Nat.ne_of_lt hid)]
    rfl

end TableIs
end BengProxy.Memory
