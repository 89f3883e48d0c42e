import BengProxy.Cache.CacheInvariant

/-!
# Indexes of the item cache

An index is a second container for some of the cached items, such as those with a certain property.
Its hooks unlink themselves when an item is destroyed. While nobody holds a lease, the destroyed
items are those that have left the cache, so an index stays right without being told.
-/

namespace BengProxy.Cache

variable {κ α : Type}

/-- The index contains exactly the cached items with the property. -/
def Indexes (s : Cache κ α) (p : CacheItem κ α → Bool) (index : List Nat) : Prop :=
  ∀ id, id ∈ index ↔ id ∈ s.items ∧ p (s.store id) = true

private theorem Inv.mem_items_iff_not_destroyed {s : Cache κ α} (h : s.Inv)
    (hle : ∀ id, s.leases id = 0) {id : Nat} (hlt : id < s.count) :
    id ∈ s.items ↔ id ∉ s.destroyed := by
  rw [h.mem_items_iff, h.destroyed_iff]
  constructor
  · intro hid hd
    exact hd.2.1 hid
  · intro hn
    by_contra hid
    exact hn ⟨hlt, hid, hle id⟩

/-- An index after items have been removed. -/
theorem Indexes.shrink {s s' : Cache κ α} {p : CacheItem κ α → Bool} {index : List Nat}
    (h : s.Indexes p index) (hs : s.Inv) (hs' : s'.Inv) (hsa : Same s s')
    (hsu : ∀ id ∈ s'.sortedItems, id ∈ s.sortedItems) (hle : ∀ id, s.leases id = 0) :
    s'.Indexes p (index.filter (· ∉ s'.destroyed)) := by
  intro id
  have hl' : ∀ id, s'.leases id = 0 := by
    intro id
    rw [hsa.leases_eq]
    exact hle id
  rw [List.mem_filter, decide_eq_true_iff, h id, hsa.store_eq]
  constructor
  · rintro ⟨⟨hid, hp⟩, hn⟩
    have hlt : id < s'.count := by
      rw [hsa.count_eq]
      exact hs.lt id (hs.mem_items_iff.mp hid)
    exact ⟨(hs'.mem_items_iff_not_destroyed hl' hlt).mpr hn, hp⟩
  · rintro ⟨hid, hp⟩
    have hid' := hs'.mem_items_iff.mp hid
    have hn := (hs'.mem_items_iff_not_destroyed hl' (hs'.lt id hid')).mp hid
    exact ⟨⟨hs.mem_items_iff.mpr (hsu id hid'), hp⟩, hn⟩

/-- An index after an item has been added to it, if it has the property, and to the cache. -/
theorem Indexes.grow {s s' : Cache κ α} {item : CacheItem κ α} {p : CacheItem κ α → Bool}
    {index : List Nat} (h : s.Indexes p index) (hs : s.Inv) (hs' : s'.Inv)
    (hg : Grows item s s') (hle : ∀ id, s.leases id = 0) :
    s'.Indexes p ((if p item then s.count :: index else index).filter (· ∉ s'.destroyed)) := by
  intro id
  have hl' : ∀ id, s'.leases id = 0 := by
    intro id
    rw [hg.leases_eq]
    exact hle id
  have hc := hg.count_eq
  -- the index before the hooks of destroyed items are unlinked
  have hme : id ∈ (if p item then s.count :: index else index) ↔
      (id = s.count ∨ id ∈ s.items) ∧ p (s'.store id) = true := by
    rw [hg.store_eq]
    by_cases hn : id = s.count
    · have ht : id ∉ index := by
        intro hid
        have hlt := hs.lt id (hs.mem_items_iff.mp ((h id).mp hid).1)
        omega
      rw [hn, Function.update_self]
      rw [hn] at ht
      split
      next hp => simp [hp]
      next hp => simp [hp, ht]
    · rw [Function.update_of_ne hn]
      split
      all_goals simp [hn, h id]
  rw [List.mem_filter, decide_eq_true_iff, hme]
  constructor
  · rintro ⟨⟨hid, hp⟩, ht⟩
    have hlt : id < s'.count := by
      rcases hid with hid | hid
      · omega
      · have hlt := hs.lt id (hs.mem_items_iff.mp hid)
        omega
    exact ⟨(hs'.mem_items_iff_not_destroyed hl' hlt).mpr ht, hp⟩
  · rintro ⟨hid, hp⟩
    have hid' := hs'.mem_items_iff.mp hid
    have ht := (hs'.mem_items_iff_not_destroyed hl' (hs'.lt id hid')).mp hid
    exact ⟨⟨(hg.subset id hid').imp_right hs.mem_items_iff.mpr, hp⟩, ht⟩

end BengProxy.Cache
