import BengProxy.Base.Run
import BengProxy.Cache.Cache
import Mathlib.Algebra.BigOperators.Group.List.Basic
import Mathlib.Algebra.GroupWithZero.Nat
import Mathlib.Data.List.Nodup

/-!
# Invariants of the item cache

All functions are made of four steps: an item is removed, accessed, inserted or rejected. Each of
them keeps the invariant, and the ones that remove items leave everything else alone.
-/

namespace BengProxy.Cache

open Base List Function Cache

variable {κ α : Type}

variable {s : Cache κ α} {id : Nat} {ids : List Nat}

/-- The total size of some items. -/
def totalSize (s : Cache κ α) (ids : List Nat) : Nat := (ids.map fun id => (s.store id).size).sum

/-- The accounting is right, the containers agree and are sorted, and exactly those items have been
destroyed that nobody needs any more. -/
structure Inv (s : Cache κ α) : Prop where
  nodup : s.sortedItems.Nodup
  perm : s.items.Perm s.sortedItems
  size_eq : s.size = s.totalSize s.sortedItems
  size_le : s.size ≤ s.maxSize
  ordered : s.sortedItems.Pairwise fun a b => s.touched a < s.touched b
  before : ∀ id ∈ s.sortedItems, s.touched id < s.clock
  lt : ∀ id ∈ s.sortedItems, id < s.count
  fresh : ∀ id, s.count ≤ id → s.leases id = 0
  destroyed_nodup : s.destroyed.Nodup
  destroyed_iff : ∀ id, id ∈ s.destroyed ↔ id < s.count ∧ id ∉ s.sortedItems ∧ s.leases id = 0

theorem Inv.mem_items_iff (h : s.Inv) :
    id ∈ s.items ↔ id ∈ s.sortedItems := h.perm.mem_iff

/-- The items as objects have not changed. -/
structure Same (s s' : Cache κ α) : Prop where
  maxSize_eq : s'.maxSize = s.maxSize
  store_eq : s'.store = s.store
  count_eq : s'.count = s.count
  leases_eq : s'.leases = s.leases

theorem Same.refl (s : Cache κ α) : Same s s := ⟨rfl, rfl, rfl, rfl⟩

theorem Same.trans {s' s'' : Cache κ α} (h : Same s s') (h' : Same s' s'') : Same s s'' where
  maxSize_eq := h'.maxSize_eq.trans h.maxSize_eq
  store_eq := h'.store_eq.trans h.store_eq
  count_eq := h'.count_eq.trans h.count_eq
  leases_eq := h'.leases_eq.trans h.leases_eq

section

variable (s : Cache κ α)

private theorem sortedItems_removeItem (id : Nat) :
    (s.removeItem id).sortedItems = s.sortedItems.erase id := by
  unfold removeItem itemRemoved release destroy
  split <;> rfl

theorem items_removeItem (id : Nat) : (s.removeItem id).items = s.items.erase id := by
  unfold removeItem itemRemoved release destroy
  split <;> rfl

theorem size_removeItem (id : Nat) : (s.removeItem id).size = s.size - (s.store id).size := by
  unfold removeItem itemRemoved release destroy
  split <;> rfl

theorem destroyed_removeItem (id : Nat) :
    (s.removeItem id).destroyed = if s.leases id = 0 then s.destroyed ++ [id] else s.destroyed := by
  unfold removeItem itemRemoved release destroy
  split <;> rfl

theorem same_removeItem (id : Nat) : Same s (s.removeItem id) := by
  unfold removeItem itemRemoved release destroy
  split <;> exact ⟨rfl, rfl, rfl, rfl⟩

theorem touched_removeItem (id : Nat) :
    (s.removeItem id).touched = s.touched ∧ (s.removeItem id).clock = s.clock := by
  unfold removeItem itemRemoved release destroy
  split <;> exact ⟨rfl, rfl⟩

theorem totalSize_erase (h : id ∈ ids) :
    s.totalSize ids = (s.store id).size + s.totalSize (ids.erase id) := by
  have hpe := ((perm_cons_erase h).map fun id => (s.store id).size).sum_eq
  rwa [map_cons] at hpe

end

private theorem Inv.removeItem (h : s.Inv) (hid : id ∈ s.sortedItems) : (s.removeItem id).Inv := by
  have hsa := same_removeItem s id
  have hsu : (s.sortedItems.erase id).Sublist s.sortedItems := erase_sublist
  have hs := totalSize_erase s hid
  have hme : ∀ x, x ∈ s.sortedItems.erase id ↔ x ≠ id ∧ x ∈ s.sortedItems :=
    fun x => h.nodup.mem_erase_iff
  have hn : id ∉ s.destroyed := fun hx => ((h.destroyed_iff id).mp hx).2.1 hid
  have hsize_eq := h.size_eq
  have hle := h.size_le
  constructor
  · rw [sortedItems_removeItem]
    exact h.nodup.erase id
  · rw [items_removeItem, sortedItems_removeItem]
    exact h.perm.erase id
  · rw [size_removeItem, sortedItems_removeItem, totalSize, hsa.store_eq]
    show s.size - (s.store id).size = s.totalSize (s.sortedItems.erase id)
    omega
  · rw [size_removeItem, hsa.maxSize_eq]
    omega
  · rw [sortedItems_removeItem, (touched_removeItem s id).1]
    exact h.ordered.sublist hsu
  · rw [sortedItems_removeItem, (touched_removeItem s id).1, (touched_removeItem s id).2]
    exact fun x hx => h.before x (hsu.subset hx)
  · rw [sortedItems_removeItem, hsa.count_eq]
    exact fun x hx => h.lt x (hsu.subset hx)
  · rw [hsa.count_eq, hsa.leases_eq]
    exact h.fresh
  · rw [destroyed_removeItem]
    split
    · exact nodup_append.mpr ⟨h.destroyed_nodup, nodup_singleton id,
        fun x hx y hy he => hn (by rwa [← mem_singleton.mp hy, ← he])⟩
    · exact h.destroyed_nodup
  · intro x
    rw [destroyed_removeItem, sortedItems_removeItem, hsa.count_eq, hsa.leases_eq]
    by_cases hx : x = id
    · subst hx
      have hlt := h.lt x hid
      split <;> simp_all
    · have hi := h.destroyed_iff x
      split <;> simp [hx, hi]

private theorem Inv.refreshItem (h : s.Inv) (hid : id ∈ s.sortedItems) :
    (s.refreshItem id).Inv := by
  have hpe : (s.sortedItems.erase id ++ [id]).Perm s.sortedItems :=
    perm_append_comm.trans (perm_cons_erase hid).symm
  have hme : ∀ {x}, x ∈ s.sortedItems.erase id → x ≠ id ∧ x ∈ s.sortedItems :=
    fun hx => h.nodup.mem_erase_iff.mp hx
  refine ⟨hpe.nodup_iff.mpr h.nodup, h.perm.trans hpe.symm, ?_, h.size_le, ?_, ?_, ?_,
    h.fresh, h.destroyed_nodup, fun x => ?_⟩
  · show s.size = s.totalSize (s.sortedItems.erase id ++ [id])
    rw [h.size_eq]
    exact (hpe.symm.map _).sum_eq
  · show (s.sortedItems.erase id ++ [id]).Pairwise _
    rw [pairwise_append]
    refine ⟨?_, pairwise_singleton _ _, fun a ha b hb => ?_⟩
    · refine (h.ordered.sublist erase_sublist).imp_of_mem fun ha hb hab => ?_
      show update s.touched id s.clock _ < update s.touched id s.clock _
      rwa [update_of_ne (hme ha).1, update_of_ne (hme hb).1]
    · rw [mem_singleton.mp hb]
      show update s.touched id s.clock _ < update s.touched id s.clock _
      rw [update_of_ne (hme ha).1, update_self]
      exact h.before a (hme ha).2
  · intro x hx
    show update s.touched id s.clock x < s.clock + 1
    by_cases hxi : x = id
    · rw [hxi, update_self]
      exact Nat.lt_succ_self _
    · rw [update_of_ne hxi]
      exact Nat.lt_succ_of_lt (h.before x (hpe.mem_iff.mp hx))
  · exact fun x hx => h.lt x (hpe.mem_iff.mp hx)
  · show x ∈ s.destroyed ↔ x < s.count ∧ x ∉ s.sortedItems.erase id ++ [id] ∧ s.leases x = 0
    rw [hpe.mem_iff]
    exact h.destroyed_iff x

private theorem totalSize_update (s : Cache κ α) (h : ∀ id ∈ ids, id < s.count)
    (item : CacheItem κ α) :
    (ids.map fun id => (update s.store s.count item id).size).sum = s.totalSize ids := by
  congr 1
  apply map_congr_left
  intro id hid
  rw [update_of_ne (Nat.ne_of_lt (h id hid))]

private theorem Inv.insert (h : s.Inv) {item : CacheItem κ α}
    (hro : s.size + item.size ≤ s.maxSize) : (s.insert item).Inv := by
  have hn : ∀ {x}, x ∈ s.sortedItems → x ≠ s.count := fun hx => Nat.ne_of_lt (h.lt _ hx)
  refine ⟨?_, ?_, ?_, hro, ?_, ?_, ?_, fun x hx => h.fresh x (Nat.le_of_succ_le hx),
    h.destroyed_nodup, fun x => ?_⟩
  · exact nodup_append.mpr ⟨h.nodup, nodup_singleton _,
      fun x hx y hy he => hn hx (he.trans (mem_singleton.mp hy))⟩
  · exact (h.perm.cons s.count).trans (perm_append_singleton s.count s.sortedItems).symm
  · show s.size + item.size = ((s.sortedItems ++ [s.count]).map fun id =>
      (update s.store s.count item id).size).sum
    rw [map_append, sum_append, totalSize_update s h.lt item, ← h.size_eq,
      map_singleton, sum_singleton, update_self]
  · show (s.sortedItems ++ [s.count]).Pairwise _
    rw [pairwise_append]
    refine ⟨?_, pairwise_singleton _ _, fun a ha b hb => ?_⟩
    · refine h.ordered.imp_of_mem fun ha hb hab => ?_
      show update s.touched s.count s.clock _ < update s.touched s.count s.clock _
      rwa [update_of_ne (hn ha), update_of_ne (hn hb)]
    · rw [mem_singleton.mp hb]
      show update s.touched s.count s.clock _ < update s.touched s.count s.clock _
      rw [update_of_ne (hn ha), update_self]
      exact h.before a ha
  · intro x hx
    show update s.touched s.count s.clock x < s.clock + 1
    rcases mem_append.mp hx with hx | hx
    · rw [update_of_ne (hn hx)]
      exact Nat.lt_succ_of_lt (h.before x hx)
    · rw [mem_singleton.mp hx, update_self]
      exact Nat.lt_succ_self _
  · intro x hx
    rcases mem_append.mp hx with hx | hx
    · exact Nat.lt_succ_of_lt (h.lt x hx)
    · rw [mem_singleton.mp hx]
      exact Nat.lt_succ_self _
  · show x ∈ s.destroyed ↔ x < s.count + 1 ∧ x ∉ s.sortedItems ++ [s.count] ∧ s.leases x = 0
    rw [h.destroyed_iff x, mem_append, mem_singleton, not_or]
    constructor
    · rintro ⟨hlt, ht, hle⟩
      exact ⟨Nat.lt_succ_of_lt hlt, ⟨ht, Nat.ne_of_lt hlt⟩, hle⟩
    · rintro ⟨hlt, ⟨ht, hne⟩, hle⟩
      exact ⟨by omega, ht, hle⟩

private theorem Inv.reject (h : s.Inv) (item : CacheItem κ α) : (s.reject item).Inv := by
  have hn : s.count ∉ s.destroyed := fun hx => Nat.lt_irrefl _ ((h.destroyed_iff _).mp hx).1
  refine ⟨h.nodup, h.perm, ?_, h.size_le, h.ordered, h.before,
    fun x hx => Nat.lt_succ_of_lt (h.lt x hx), fun x hx => h.fresh x (Nat.le_of_succ_le hx), ?_,
    fun x => ?_⟩
  · show s.size = (s.sortedItems.map fun id => (update s.store s.count item id).size).sum
    rw [totalSize_update s h.lt item]
    exact h.size_eq
  · exact nodup_append.mpr ⟨h.destroyed_nodup, nodup_singleton _,
      fun x hx y hy he => hn (by rwa [← mem_singleton.mp hy, ← he])⟩
  · show x ∈ s.destroyed ++ [s.count] ↔ x < s.count + 1 ∧ x ∉ s.sortedItems ∧ s.leases x = 0
    rw [mem_append, mem_singleton, h.destroyed_iff x]
    by_cases hx : x = s.count
    · subst hx
      have ht : s.count ∉ s.sortedItems := fun hx => Nat.lt_irrefl _ (h.lt _ hx)
      simp [ht, h.fresh s.count (Nat.le_refl _)]
    constructor
    · rintro (⟨hlt, ht, hle⟩ | hx')
      · exact ⟨Nat.lt_succ_of_lt hlt, ht, hle⟩
      · exact absurd hx' hx
    · rintro ⟨hlt, ht, hle⟩
      exact .inl ⟨by omega, ht, hle⟩

/-- The loop that removes items keeps the invariant if it visits each item once. -/
theorem Inv.removeIf {p : CacheItem κ α → Bool} :
    ∀ {s : Cache κ α}, s.Inv → ids.Nodup → (∀ id ∈ ids, id ∈ s.sortedItems) →
      (removeIf p ids s).Inv ∧ Same s (removeIf p ids s) ∧
        (removeIf p ids s).sortedItems =
          s.sortedItems.filter fun id => !(decide (id ∈ ids) && p (s.store id)) := by
  induction ids with
  | nil =>
    intro s h _ _
    refine ⟨h, .refl s, ?_⟩
    show s.sortedItems = _
    simp
  | cons id ids ih =>
    intro s h hn hme
    obtain ⟨hid, hn⟩ := nodup_cons.mp hn
    obtain ⟨hin, hme⟩ := forall_mem_cons.mp hme
    rw [Cache.removeIf]
    split
    next hp =>
      have hr : ∀ x ∈ ids, x ∈ (s.removeItem id).sortedItems := by
        intro x hx
        rw [sortedItems_removeItem, h.nodup.mem_erase_iff]
        exact ⟨fun he => hid (he ▸ hx), hme x hx⟩
      obtain ⟨hi, hsa, hso⟩ := ih (h.removeItem hin) hn hr
      refine ⟨hi, (same_removeItem s id).trans hsa, ?_⟩
      rw [hso, sortedItems_removeItem, (same_removeItem s id).store_eq,
        h.nodup.erase_eq_filter, filter_filter]
      apply filter_congr
      intro x _
      by_cases hx : x = id
      · subst hx
        simp [hp]
      · simp [hx]
    next hp =>
      obtain ⟨hi, hsa, hso⟩ := ih h hn hme
      refine ⟨hi, hsa, ?_⟩
      rw [hso]
      apply filter_congr
      intro x _
      by_cases hx : x = id
      · subst hx
        simp [hp]
      · simp [hx]

private theorem Inv.removeIf_items (h : s.Inv) (p : CacheItem κ α → Bool) :
    (Cache.removeIf p s.items s).Inv :=
  (h.removeIf (h.perm.nodup_iff.mpr h.nodup) fun _ hid => h.mem_items_iff.mp hid).1

private theorem Inv.removeIf_sortedItems (h : s.Inv) (p : CacheItem κ α → Bool) :
    (Cache.removeIf p s.sortedItems s).Inv :=
  (h.removeIf h.nodup fun _ => id).1

theorem Inv.remove (h : s.Inv) (id : Nat) : (s.remove id).Inv ∧ Same s (s.remove id) ∧
      ∀ x, x ∈ (s.remove id).sortedItems ↔ x ≠ id ∧ x ∈ s.sortedItems := by
  unfold Cache.remove Cache.isRemoved
  split
  next hn =>
    rw [Bool.not_eq_true', contains_eq_mem, decide_eq_false_iff_not] at hn
    refine ⟨h, .refl s, fun x => ⟨fun hx => ⟨?_, hx⟩, fun hx => hx.2⟩⟩
    exact fun he => hn (he ▸ hx)
  next hi =>
    rw [Bool.not_eq_true', Bool.not_eq_false, contains_iff_mem] at hi
    refine ⟨h.removeItem hi, same_removeItem s id, fun x => ?_⟩
    rw [sortedItems_removeItem]
    exact h.nodup.mem_erase_iff

private theorem Inv.destroyOldestItem (h : s.Inv) :
    s.destroyOldestItem.Inv ∧ Same s s.destroyOldestItem ∧
      s.destroyOldestItem.sortedItems = s.sortedItems.drop 1 := by
  unfold Cache.destroyOldestItem
  cases hso : s.sortedItems with
  | nil => exact ⟨h, .refl s, hso⟩
  | cons id ids =>
    refine ⟨h.removeItem (by rw [hso]; exact mem_cons_self), same_removeItem s id, ?_⟩
    rw [sortedItems_removeItem, hso, erase_cons_head]
    rfl

private theorem Inv.needRoomLoop {size : Nat} (fuel : Nat) :
    ∀ {s : Cache κ α}, s.Inv → s.sortedItems.length < fuel → size ≤ s.maxSize →
      ∃ s' n, needRoomLoop size fuel s = some s' ∧ s'.Inv ∧ Same s s' ∧
        s'.size + size ≤ s'.maxSize ∧ s'.sortedItems = s.sortedItems.drop n := by
  induction fuel with
  | zero =>
    intro s _ hfu
    exact absurd hfu (Nat.not_lt_zero _)
  | succ fuel ih =>
    intro s h hfu hs
    rw [Cache.needRoomLoop]
    by_cases hro : s.size + size ≤ s.maxSize
    · rw [if_pos hro]
      exact ⟨s, 0, rfl, h, .refl s, hro, rfl⟩
    rw [if_neg hro]
    obtain ⟨hi, hsa, hso⟩ := h.destroyOldestItem
    have hne : s.sortedItems ≠ [] := by
      intro hni
      have hz := h.size_eq
      rw [hni] at hz
      have he : s.totalSize [] = 0 := rfl
      omega
    have hpo := length_pos_iff.mpr hne
    have hsh : s.destroyOldestItem.sortedItems.length < fuel := by
      rw [hso, length_drop]
      omega
    rw [← hsa.maxSize_eq] at hs
    obtain ⟨s', n, hlo, hi', hs', hr', hso'⟩ := ih hi hsh hs
    refine ⟨s', 1 + n, hlo, hi', hsa.trans hs', hr', ?_⟩
    rw [hso', hso, drop_drop]

private theorem Inv.needRoom (h : s.Inv) (size : Nat) :
    ∃ s' ok, s.needRoom size = some (s', ok) ∧ s'.Inv ∧ Same s s' ∧
      (ok = true → s'.size + size ≤ s'.maxSize) ∧ ∃ n, s'.sortedItems = s.sortedItems.drop n := by
  unfold Cache.needRoom
  by_cases hs : s.maxSize < size
  · rw [if_pos hs]
    exact ⟨s, false, rfl, h, .refl s, nofun, 0, rfl⟩
  · rw [if_neg hs]
    obtain ⟨s', n, hlo, hi, hsa, hro, hso⟩ :=
      h.needRoomLoop _ (Nat.lt_succ_self _) (Nat.le_of_not_lt hs)
    exact ⟨s', true, by rw [hlo]; rfl, hi, hsa, fun _ => hro, n, hso⟩

/-- The cache has got one more item, which is the only one that may be new in it. -/
structure Grows (item : CacheItem κ α) (s s' : Cache κ α) : Prop where
  count_eq : s'.count = s.count + 1
  leases_eq : s'.leases = s.leases
  store_eq : s'.store = update s.store s.count item
  subset : ∀ id ∈ s'.sortedItems, id = s.count ∨ id ∈ s.sortedItems

private theorem Same.grows {item : CacheItem κ α} {s' s'' : Cache κ α} (h : Same s s')
    (hsu : ∀ id ∈ s'.sortedItems, id ∈ s.sortedItems) (h' : Grows item s' s'') :
    Grows item s s'' where
  count_eq := by rw [h'.count_eq, h.count_eq]
  leases_eq := h'.leases_eq.trans h.leases_eq
  store_eq := by rw [h'.store_eq, h.store_eq, h.count_eq]
  subset id hid := by
    rw [← h.count_eq]
    exact (h'.subset id hid).imp_right (hsu id)

private theorem Inv.add (h : s.Inv) (item : CacheItem κ α) :
    ∃ s' ok, s.add item = some (s', ok) ∧ s'.Inv ∧ Grows item s s' := by
  obtain ⟨s', ok, hn, hi, hsa, hro, n, hso⟩ := h.needRoom item.size
  have hsu : ∀ id ∈ s'.sortedItems, id ∈ s.sortedItems := by
    intro id hid
    rw [hso] at hid
    exact mem_of_mem_drop hid
  unfold Cache.add
  rw [hn]
  cases ok with
  | true =>
    refine ⟨_, true, rfl, hi.insert (hro rfl), hsa.grows hsu ⟨rfl, rfl, rfl, ?_⟩⟩
    intro id hid
    rcases mem_append.mp hid with hid | hid
    · exact .inr hid
    · exact .inl (mem_singleton.mp hid)
  | false =>
    exact ⟨_, false, rfl, hi.reject item, hsa.grows hsu ⟨rfl, rfl, rfl, fun id hid => .inr hid⟩⟩

section Key

variable [DecidableEq κ]

theorem Inv.get (h : s.Inv) (now : Nat) (valid : CacheItem κ α → Bool) (key : κ) :
    (s.get now valid key).1.Inv := by
  unfold Cache.get
  split
  · exact h
  next id hfi =>
    have hid := h.mem_items_iff.mp (mem_of_find?_eq_some hfi)
    split
    · exact h.refreshItem hid
    · exact h.removeItem hid

/-- One round of the loop of `GetMatch()`: the item is the one that is looked for, it is removed
because it is not valid any more, or it is skipped. -/
theorem getMatchLoop_cons (now : Nat) (valid : CacheItem κ α → Bool) (key : κ)
    (p : CacheItem κ α → Bool) (id : Nat) (ids : List Nat) (s : Cache κ α) :
    (((s.store id).key = key ∧ (s.store id).validate now valid = true ∧ p (s.store id) = true) ∧
        getMatchLoop now valid key p (id :: ids) s = (s.refreshItem id, some id)) ∨
      ((s.store id).validate now valid = false ∧
        getMatchLoop now valid key p (id :: ids) s =
          getMatchLoop now valid key p ids (s.removeItem id)) ∨
      (¬((s.store id).key = key ∧ (s.store id).validate now valid = true ∧ p (s.store id) = true) ∧
        getMatchLoop now valid key p (id :: ids) s = getMatchLoop now valid key p ids s) := by
  rw [getMatchLoop]
  split
  next hke => exact .inr (.inr ⟨fun h => hke h.1, rfl⟩)
  next hke =>
    split
    next hv =>
      rw [Bool.not_eq_true'] at hv
      exact .inr (.inl ⟨hv, rfl⟩)
    next hv =>
      rw [Bool.not_eq_true', Bool.not_eq_false] at hv
      split
      next hp => exact .inl ⟨⟨not_not.mp hke, hv, hp⟩, rfl⟩
      next hp => exact .inr (.inr ⟨fun h => hp h.2.2, rfl⟩)

private theorem Inv.getMatchLoop {now : Nat} {v : CacheItem κ α → Bool} {key : κ}
    {p : CacheItem κ α → Bool} :
    ∀ {s : Cache κ α}, s.Inv → ids.Nodup → (∀ id ∈ ids, id ∈ s.sortedItems) →
      ∃ s' found, getMatchLoop now v key p ids s = (s', found) ∧ s'.Inv ∧ Same s s' ∧
        (∀ id ∈ s'.sortedItems, id ∈ s.sortedItems) ∧
        ∀ id, found = some id → id ∈ s'.sortedItems ∧ (s.store id).key = key ∧
          (s.store id).validate now v = true ∧ p (s.store id) = true := by
  induction ids with
  | nil =>
    intro s h _ _
    exact ⟨s, none, rfl, h, .refl s, fun _ => id, fun id hx => by cases hx⟩
  | cons id ids ih =>
    intro s h hn hme
    obtain ⟨hid, hn⟩ := nodup_cons.mp hn
    obtain ⟨hi, hme⟩ := forall_mem_cons.mp hme
    rcases getMatchLoop_cons now v key p id ids s with ⟨hma, he⟩ | ⟨-, he⟩ | ⟨-, he⟩
    · rw [he]
      have hpe : (s.sortedItems.erase id ++ [id]).Perm s.sortedItems :=
        perm_append_comm.trans (perm_cons_erase hi).symm
      refine ⟨s.refreshItem id, some id, rfl, h.refreshItem hi, ⟨rfl, rfl, rfl, rfl⟩,
        fun x hx => hpe.mem_iff.mp hx, fun x hx => ?_⟩
      cases hx
      exact ⟨mem_concat_self, hma⟩
    · rw [he]
      have hr : ∀ x ∈ ids, x ∈ (s.removeItem id).sortedItems := by
        intro x hx
        rw [sortedItems_removeItem, h.nodup.mem_erase_iff]
        exact ⟨fun he => hid (he ▸ hx), hme x hx⟩
      have hsa := same_removeItem s id
      obtain ⟨s', found, hlo, hv, hs', hsu, hfo⟩ := ih (h.removeItem hi) hn hr
      rw [hsa.store_eq] at hfo
      refine ⟨s', found, hlo, hv, hsa.trans hs', fun x hx => ?_, hfo⟩
      have hx' := hsu x hx
      rw [sortedItems_removeItem] at hx'
      exact mem_of_mem_erase hx'
    · rw [he]
      exact ih h hn hme

/-- `GetMatch()` returns a valid item of the cache that matches. -/
theorem Inv.getMatch (h : s.Inv) (now : Nat) (valid : CacheItem κ α → Bool)
    (key : κ) (p : CacheItem κ α → Bool) :
    ∃ s' found, s.getMatch now valid key p = (s', found) ∧ s'.Inv ∧ Same s s' ∧
      (∀ id ∈ s'.sortedItems, id ∈ s.sortedItems) ∧
      ∀ id, found = some id → id ∈ s'.sortedItems ∧ (s.store id).key = key ∧
        (s.store id).validate now valid = true ∧ p (s.store id) = true :=
  h.getMatchLoop (h.perm.nodup_iff.mpr h.nodup) fun _ hid => h.mem_items_iff.mp hid

private theorem Inv.put (h : s.Inv) (item : CacheItem κ α) :
    ∃ s' ok, s.put item = some (s', ok) ∧ s'.Inv := by
  obtain ⟨s', ok, hn, hi, -, hro, -⟩ := h.needRoom item.size
  unfold Cache.put
  rw [hn]
  cases ok with
  | false => exact ⟨_, false, rfl, hi.reject item⟩
  | true =>
    have hro := hro rfl
    cases hfi : s'.items.find? fun id => decide ((s'.store id).key = item.key) with
    | none =>
      refine ⟨_, true, ?_, hi.insert hro⟩
      simp [hfi]
    | some id =>
      have hid := hi.mem_items_iff.mp (mem_of_find?_eq_some hfi)
      refine ⟨(s'.removeItem id).insert item, true, ?_, (hi.removeItem hid).insert ?_⟩
      · simp [hfi]
      · rw [size_removeItem, (same_removeItem s' id).maxSize_eq]
        omega

theorem Inv.putMatch (h : s.Inv) (now : Nat) (valid : CacheItem κ α → Bool)
    (item : CacheItem κ α) (p : CacheItem κ α → Bool) :
    ∃ s' ok, s.putMatch now valid item p = some (s', ok) ∧ s'.Inv ∧ Grows item s s' := by
  obtain ⟨s1, found, hge, hi, hsa, hsu, hfo⟩ := h.getMatch now valid item.key p
  unfold Cache.putMatch
  rw [hge]
  cases found with
  | none =>
    obtain ⟨s', ok, had, hi', hg⟩ := hi.add item
    exact ⟨s', ok, had, hi', hsa.grows hsu hg⟩
  | some id =>
    obtain ⟨s', ok, had, hi', hg⟩ := (hi.removeItem (hfo id rfl).1).add item
    refine ⟨s', ok, had, hi', hsa.grows hsu ((same_removeItem s1 id).grows ?_ hg)⟩
    intro x hx
    rw [sortedItems_removeItem] at hx
    exact mem_of_mem_erase hx

end Key

private theorem Inv.lock (h : s.Inv) (hal : s.Alive id) : (s.lock id).Inv := by
  refine { h with fresh := fun x hx => ?_, destroyed_iff := fun x => ?_ }
  · have hne : x ≠ id := fun he => Nat.not_lt.mpr hx (he ▸ hal.1)
    show update s.leases id _ x = 0
    rw [update_of_ne hne]
    exact h.fresh x hx
  · show x ∈ s.destroyed ↔ x < s.count ∧ x ∉ s.sortedItems ∧
      update s.leases id (s.leases id + 1) x = 0
    by_cases hx : x = id
    · subst hx
      rw [update_self]
      exact ⟨fun hd => absurd hd hal.2, fun hd => absurd hd.2.2 (Nat.succ_ne_zero _)⟩
    · rw [update_of_ne hx]
      exact h.destroyed_iff x

private theorem Inv.unlock (h : s.Inv) (hle : 0 < s.leases id) : (s.unlock id).Inv := by
  have hlt : id < s.count := by
    by_contra hg
    rw [h.fresh id (Nat.le_of_not_lt hg)] at hle
    exact Nat.lt_irrefl 0 hle
  have hn : id ∉ s.destroyed := fun hd => Nat.ne_of_gt hle ((h.destroyed_iff id).mp hd).2.2
  have hf : ∀ x, s.count ≤ x → update s.leases id (s.leases id - 1) x = 0 := by
    intro x hx
    have hne : x ≠ id := fun he => Nat.not_lt.mpr hx (he ▸ hlt)
    rw [update_of_ne hne]
    exact h.fresh x hx
  unfold Cache.unlock Cache.isRemoved Cache.destroy
  simp only [update_self]
  split
  next hla =>
    obtain ⟨hz, hre⟩ := hla
    rw [Bool.not_eq_true', contains_eq_mem, decide_eq_false_iff_not] at hre
    refine { h with fresh := hf, destroyed_nodup := ?_, destroyed_iff := fun x => ?_ }
    · exact nodup_append.mpr ⟨h.destroyed_nodup, nodup_singleton _,
        fun x hx y hy he => hn (by rwa [← mem_singleton.mp hy, ← he])⟩
    · show x ∈ s.destroyed ++ [id] ↔ x < s.count ∧ x ∉ s.sortedItems ∧
        update s.leases id (s.leases id - 1) x = 0
      rw [mem_append, mem_singleton]
      by_cases hx : x = id
      · subst hx
        rw [update_self]
        exact ⟨fun _ => ⟨hlt, hre, hz⟩, fun _ => .inr rfl⟩
      · rw [update_of_ne hx, h.destroyed_iff x]
        exact ⟨fun hd => hd.resolve_right hx, .inl⟩
  next hla =>
    refine { h with fresh := hf, destroyed_iff := fun x => ?_ }
    show x ∈ s.destroyed ↔ x < s.count ∧ x ∉ s.sortedItems ∧
      update s.leases id (s.leases id - 1) x = 0
    by_cases hx : x = id
    · subst hx
      rw [update_self]
      refine ⟨fun hd => absurd hd hn, fun hd => absurd ⟨hd.2.2, ?_⟩ hla⟩
      rw [Bool.not_eq_true', contains_eq_mem, decide_eq_false_iff_not]
      exact hd.2.1
    · rw [update_of_ne hx]
      exact h.destroyed_iff x

private theorem Inv.setExpires (h : s.Inv) (id time : Nat) : (s.setExpires id time).Inv := by
  refine { h with size_eq := ?_ }
  show s.size = (s.sortedItems.map fun x => (update s.store id _ x).size).sum
  rw [h.size_eq, totalSize]
  congr 1
  apply map_congr_left
  intro x _
  by_cases hx : x = id
  · rw [hx, update_self]
  · rw [update_of_ne hx]

theorem inv_new [Inhabited (CacheItem κ α)] (maxSize : Nat) :
    (new maxSize : Cache κ α).Inv := by
  refine ⟨nodup_nil, List.Perm.refl _, rfl, Nat.zero_le _, List.Pairwise.nil, ?_, ?_,
    fun _ _ => rfl, nodup_nil, fun id => ?_⟩
  · exact fun id hid => absurd hid not_mem_nil
  · exact fun id hid => absurd hid not_mem_nil
  · exact ⟨fun hid => absurd hid not_mem_nil, fun hid => absurd hid.1 (Nat.not_lt_zero _)⟩

section Run

variable [DecidableEq κ]

private theorem getLast_getMatchLoop {now : Nat} {v : CacheItem κ α → Bool} {key : κ}
    {p : CacheItem κ α → Bool} : ∀ {ids : List Nat} {s : Cache κ α},
      ∀ id ∈ (getMatchLoop now v key p ids s).2,
        (getMatchLoop now v key p ids s).1.sortedItems.getLast? = some id
  | [], s => nofun
  | id :: ids, s => by
    rcases getMatchLoop_cons now v key p id ids s with ⟨-, he⟩ | ⟨-, he⟩ | ⟨-, he⟩ <;> rw [he]
    · rintro _ ⟨⟩
      exact getLast?_concat
    · exact getLast_getMatchLoop
    · exact getLast_getMatchLoop

private theorem getLast_get (s : Cache κ α) (now : Nat) (v : CacheItem κ α → Bool) (key : κ) :
    ∀ id ∈ (s.get now v key).2, (s.get now v key).1.sortedItems.getLast? = some id := by
  unfold Cache.get
  split
  · nofun
  · split
    · rintro _ ⟨⟩
      exact getLast?_concat
    · nofun

private theorem Inv.call (h : s.Inv) {e : CacheEvent κ α} (hle : s.Legal e) :
    ∃ s', s.call e = some s' ∧ s'.Inv := by
  cases e with
  | get now valid key => exact ⟨_, rfl, h.get now valid key⟩
  | getMatch now valid key p =>
    obtain ⟨s', found, hg, hi, -⟩ := h.getMatch now valid key p
    exact ⟨s', by rw [Cache.call, hg], hi⟩
  | add item =>
    obtain ⟨s', ok, had, hi, -⟩ := h.add item
    exact ⟨s', by rw [Cache.call, had]; rfl, hi⟩
  | put item =>
    obtain ⟨s', ok, hpu, hi⟩ := h.put item
    exact ⟨s', by rw [Cache.call, hpu]; rfl, hi⟩
  | putMatch now valid item p =>
    obtain ⟨s', ok, hpu, hi, -⟩ := h.putMatch now valid item p
    exact ⟨s', by rw [Cache.call, hpu]; rfl, hi⟩
  | remove id => exact ⟨_, rfl, (h.remove id).1⟩
  | removeKey key | removeKeyIf key p => exact ⟨_, rfl, h.removeIf_items _⟩
  | removeAllMatch p => exact ⟨_, rfl, h.removeIf_sortedItems p⟩
  | flush => exact ⟨_, rfl, h.removeIf_items _⟩
  | expire now => exact ⟨_, rfl, h.removeIf_sortedItems _⟩
  | lock id => exact ⟨_, rfl, h.lock hle⟩
  | unlock id => exact ⟨_, rfl, h.unlock hle⟩
  | setExpires id time => exact ⟨_, rfl, h.setExpires id time⟩

private theorem inv_of_run [Inhabited (CacheItem κ α)] {m : Nat}
    {ev : List (CacheEvent κ α)}
    (h : Run Step (new m) ev s) : s.Inv := by
  refine h.invariant (P := Inv) (inv_new m) fun s e s' hs hst => ?_
  obtain ⟨s'', hc, hi⟩ := hs.call hst.1
  rw [hst.2] at hc
  cases hc
  exact hi

/-- After every run: the size is that of the items and does not exceed the limit; both containers
have the same items, each once; the list is sorted by the last access or insertion, and an item that
is returned is the last one then; `NeedRoom()` returns and removes only the oldest items; an item
has been destroyed, once, exactly if it has been removed and there is no lease; and the next call
returns. -/
theorem cache_consistent [Inhabited (CacheItem κ α)] {maxSize : Nat}
    {events : List (CacheEvent κ α)} {s : Cache κ α}
    (h : Run Step (new maxSize) events s) :
    (s.size = (s.items.map fun id => (s.store id).size).sum ∧ s.size ≤ s.maxSize) ∧
    (s.items.Nodup ∧ s.sortedItems.Nodup ∧ s.items.Perm s.sortedItems) ∧
    s.sortedItems.Pairwise (fun a b => s.touched a < s.touched b) ∧
    (∀ now valid key, (∀ id ∈ (s.get now valid key).2,
        (s.get now valid key).1.sortedItems.getLast? = some id) ∧
      ∀ p, ∀ id ∈ (s.getMatch now valid key p).2,
        (s.getMatch now valid key p).1.sortedItems.getLast? = some id) ∧
    (∀ size, ∃ s' ok n, s.needRoom size = some (s', ok) ∧ s'.sortedItems = s.sortedItems.drop n) ∧
    (s.destroyed.Nodup ∧ ∀ id, id ∈ s.destroyed ↔ id < s.count ∧ id ∉ s.items ∧ s.leases id = 0) ∧
    (∀ e, s.Legal e → (s.call e).isSome = true) := by
  have hi := inv_of_run h
  refine ⟨⟨?_, hi.size_le⟩, ⟨hi.perm.nodup_iff.mpr hi.nodup, hi.nodup, hi.perm⟩,
    hi.ordered, fun now v key => ⟨getLast_get s now v key, fun _ => getLast_getMatchLoop⟩,
    fun size => ?_, ⟨hi.destroyed_nodup, fun id => ?_⟩, fun e hle => ?_⟩
  · rw [(hi.perm.map _).sum_eq]
    exact hi.size_eq
  · obtain ⟨s', ok, hnee, -, -, -, n, hso⟩ := hi.needRoom size
    exact ⟨s', ok, n, hnee, hso⟩
  · rw [hi.mem_items_iff]
    exact hi.destroyed_iff id
  · obtain ⟨s', hc, -⟩ := hi.call hle
    rw [hc]
    rfl

end Run

/-- The first item is returned, which makes the second one the oldest; it is evicted while there is
a lease on it, and destroyed when the lease is returned. -/
theorem cache_consistent_sample :
    let item (key : Nat) : CacheItem Nat Unit := { key, size := 2, expires := 9, data := () }
    let hit : CacheEvent Nat Unit := .get 0 (fun _ => true) 1
    ∃ s s' s'' : Cache Nat Unit, Run Step (new 5) [.add (item 1), .add (item 2), .lock 1] s ∧
      s.call hit = some s' ∧ s'.sortedItems.getLast? = some 0 ∧
      Run Step s' [.add (item 3), .unlock 1] s'' ∧
      s''.sortedItems = [0, 2] ∧ s''.destroyed = [1] ∧ s''.size ≤ s''.maxSize := by
  intro item hit
  let s1 : Cache Nat Unit := (new 5).insert (item 1)
  let s2 : Cache Nat Unit := s1.insert (item 2)
  let s3 : Cache Nat Unit := s2.lock 1
  let s4 : Cache Nat Unit := s3.refreshItem 0
  let s5 : Cache Nat Unit := (s4.removeItem 1).insert (item 3)
  let s6 : Cache Nat Unit := s5.unlock 1
  have h1 : Step (new 5) (.add (item 1)) s1 := ⟨trivial, rfl⟩
  have h2 : Step s1 (.add (item 2)) s2 := ⟨trivial, rfl⟩
  have h3 : Step s2 (.lock 1) s3 := ⟨⟨by decide, by decide⟩, rfl⟩
  have h4 : Step s3 hit s4 := ⟨trivial, rfl⟩
  have h5 : Step s4 (.add (item 3)) s5 := ⟨trivial, rfl⟩
  have hle : 0 < s5.leases 1 := by decide
  have h6 : Step s5 (.unlock 1) s6 := ⟨hle, rfl⟩
  have hru : Run Step (new 5) _ s3 := ((Run.nil.snoc h1).snoc h2).snoc h3
  have hal : Run Step (new 5) _ s6 := ((hru.snoc h4).snoc h5).snoc h6
  have hla := ((cache_consistent hru).2.2.2.1 0 (fun _ => true) 1).1 0 rfl
  exact ⟨s3, s4, s6, hru, rfl, hla, (Run.nil.snoc h5).snoc h6, by decide, by decide,
    (cache_consistent hal).1.2⟩

end BengProxy.Cache
