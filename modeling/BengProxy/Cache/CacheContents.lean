import BengProxy.Cache.CacheInvariant

/-!
# The contents of the item cache

What the calls do to the set of cached items, without any assumption about the state: items
disappear, and at most the new one appears. What is found is one of the items and matches.
-/

namespace BengProxy.Cache

open List

variable {κ α : Type}

variable {s s' : Cache κ α} {now : Nat} {valid p : CacheItem κ α → Bool}

/-- No item is new, and the items are the same as before. -/
structure Within (s s' : Cache κ α) : Prop where
  subset : ∀ id ∈ s'.items, id ∈ s.items
  store_eq : s'.store = s.store

theorem Within.refl (s : Cache κ α) : Within s s := ⟨fun _ h => h, rfl⟩

theorem Within.trans {s'' : Cache κ α} (h : Within s s') (h' : Within s' s'') :
    Within s s'' :=
  ⟨fun id hid => h.subset id (h'.subset id hid), h'.store_eq.trans h.store_eq⟩

theorem within_removeItem (s : Cache κ α) (id : Nat) : Within s (s.removeItem id) := by
  refine ⟨fun x hx => ?_, (same_removeItem s id).store_eq⟩
  rw [items_removeItem] at hx
  exact mem_of_mem_erase hx

theorem within_removeIf (p : CacheItem κ α → Bool) (ids : List Nat) :
    ∀ s : Cache κ α, Within s (removeIf p ids s) := by
  induction ids with
  | nil => exact Within.refl
  | cons id ids ih =>
    intro s
    rw [removeIf]
    split
    · exact (within_removeItem s id).trans (ih _)
    · exact ih s

theorem within_remove (s : Cache κ α) (id : Nat) : Within s (s.remove id) := by
  unfold remove
  split
  · exact .refl s
  · exact within_removeItem s id

theorem within_unlock (s : Cache κ α) (id : Nat) : Within s (s.unlock id) := by
  unfold unlock destroy
  simp only
  split <;> exact ⟨fun _ h => h, rfl⟩

theorem within_destroyOldestItem (s : Cache κ α) : Within s s.destroyOldestItem := by
  unfold destroyOldestItem
  split
  · exact .refl s
  · exact within_removeItem s _

theorem within_needRoomLoop {size : Nat} (fuel : Nat) :
    ∀ {s s' : Cache κ α}, needRoomLoop size fuel s = some s' → Within s s' := by
  induction fuel with
  | zero =>
    intro s s' h
    cases h
  | succ fuel ih =>
    intro s s' h
    rw [needRoomLoop] at h
    split at h
    · cases h
      exact .refl s
    · exact (within_destroyOldestItem s).trans (ih h)

theorem within_needRoom {size : Nat} {ok : Bool}
    (h : s.needRoom size = some (s', ok)) : Within s s' := by
  unfold needRoom at h
  split at h
  · cases h
    exact .refl s
  · obtain ⟨s'', hlo, he⟩ := Option.map_eq_some_iff.mp h
    cases he
    exact within_needRoomLoop _ hlo

/-- Every item of the cache is a new one with this content, or was there before. -/
def WithNew (item : CacheItem κ α) (s s' : Cache κ α) : Prop :=
  ∀ id ∈ s'.items, s'.store id = item ∨ id ∈ s.items ∧ s'.store id = s.store id

variable {item : CacheItem κ α}

private theorem withNew_update (hst : s'.store = Function.update s.store s.count item)
    (hi : ∀ id ∈ s'.items, id = s.count ∨ id ∈ s.items) : WithNew item s s' := by
  intro id hid
  rw [hst]
  by_cases hn : id = s.count
  · rw [hn, Function.update_self]
    exact .inl rfl
  · rw [Function.update_of_ne hn]
    exact .inr ⟨(hi id hid).resolve_left hn, rfl⟩

theorem withNew_insert (s : Cache κ α) (item : CacheItem κ α) : WithNew item s (s.insert item) :=
  withNew_update rfl fun _ hid => mem_cons.mp hid

theorem withNew_reject (s : Cache κ α) (item : CacheItem κ α) : WithNew item s (s.reject item) :=
  withNew_update rfl fun _ hid => .inr hid

theorem Within.withNew {s'' : Cache κ α} (h : Within s s') (h' : WithNew item s' s'') :
    WithNew item s s'' := by
  intro id hid
  rcases h' id hid with hn | ⟨ho, he⟩
  · exact .inl hn
  · exact .inr ⟨h.subset id ho, he.trans (congrFun h.store_eq id)⟩

theorem withNew_add {ok : Bool} (h : s.add item = some (s', ok)) : WithNew item s s' := by
  unfold add at h
  cases hro : s.needRoom item.size with
  | none =>
    rw [hro] at h
    cases h
  | some r =>
    obtain ⟨s1, room⟩ := r
    rw [hro] at h
    have hw := within_needRoom hro
    cases room with
    | true =>
      cases h
      exact hw.withNew (withNew_insert s1 item)
    | false =>
      cases h
      exact hw.withNew (withNew_reject s1 item)

section Key

variable [DecidableEq κ]

private theorem getMatchLoop_spec {key : κ} {ids : List Nat} :
    ∀ {s s' : Cache κ α} {f : Option Nat}, getMatchLoop now valid key p ids s = (s', f) →
      Within s s' ∧ ∀ id, f = some id → id ∈ ids ∧ (s.store id).key = key ∧
        (s.store id).validate now valid = true ∧ p (s.store id) = true := by
  induction ids with
  | nil =>
    intro s s' f h
    cases h
    exact ⟨.refl s, fun id hx => by cases hx⟩
  | cons id ids ih =>
    intro s s' f h
    rcases getMatchLoop_cons now valid key p id ids s with ⟨hma, he⟩ | ⟨-, he⟩ | ⟨-, he⟩
    · rw [he] at h
      cases h
      refine ⟨⟨fun _ hx => hx, rfl⟩, fun x hx => ?_⟩
      cases hx
      exact ⟨mem_cons_self, hma⟩
    · rw [he] at h
      obtain ⟨hw, hfo⟩ := ih h
      rw [(same_removeItem s id).store_eq] at hfo
      exact ⟨(within_removeItem s id).trans hw,
        fun x hx => (hfo x hx).imp_left (mem_cons_of_mem id)⟩
    · rw [he] at h
      obtain ⟨hw, hfo⟩ := ih h
      exact ⟨hw, fun x hx => (hfo x hx).imp_left (mem_cons_of_mem id)⟩

theorem getMatch_spec {key : κ} {found : Option Nat}
    (h : s.getMatch now valid key p = (s', found)) :
    Within s s' ∧ ∀ id, found = some id → id ∈ s.items ∧ (s.store id).key = key ∧
      (s.store id).validate now valid = true ∧ p (s.store id) = true :=
  getMatchLoop_spec h

/-- `GetMatch()` removes only items that are not valid any more. -/
theorem getMatchLoop_keeps {key : κ} {ids : List Nat} :
    ∀ {s s' : Cache κ α} {found : Option Nat}, getMatchLoop now valid key p ids s = (s', found) →
      ∀ x ∈ s.items, (s.store x).validate now valid = true → x ∈ s'.items := by
  induction ids with
  | nil =>
    intro s s' found h x hx _
    cases h
    exact hx
  | cons id ids ih =>
    intro s s' found h x hx hxv
    rcases getMatchLoop_cons now valid key p id ids s with ⟨-, he⟩ | ⟨hi, he⟩ | ⟨-, he⟩
    · rw [he] at h
      cases h
      exact hx
    · rw [he] at h
      have hne : x ≠ id := by
        intro hxi
        rw [← hxi, hxv] at hi
        cases hi
      apply ih h x
      · rw [items_removeItem]
        exact (mem_erase_of_ne hne).mpr hx
      · rw [(same_removeItem s id).store_eq]
        exact hxv
    · rw [he] at h
      exact ih h x hx hxv

/-- If `GetMatch()` finds nothing, then no valid item with the key matches. -/
theorem getMatchLoop_none {key : κ} {ids : List Nat} :
    ∀ {s s' : Cache κ α}, getMatchLoop now valid key p ids s = (s', none) →
      ∀ x ∈ ids, (s.store x).key = key → (s.store x).validate now valid = true →
        p (s.store x) = false := by
  induction ids with
  | nil =>
    intro s s' _ x hx
    exact absurd hx not_mem_nil
  | cons id ids ih =>
    intro s s' h x hx hxk hxv
    rcases getMatchLoop_cons now valid key p id ids s with ⟨-, he⟩ | ⟨hi, he⟩ | ⟨hn, he⟩
    · rw [he] at h
      cases h
    · rw [he] at h
      rcases mem_cons.mp hx with rfl | hx
      · rw [hxv] at hi
        cases hi
      · have hr := ih h x hx
        rw [(same_removeItem s id).store_eq] at hr
        exact hr hxk hxv
    · rw [he] at h
      rcases mem_cons.mp hx with rfl | hx
      · rw [← Bool.not_eq_true]
        exact fun hp => hn ⟨hxk, hxv, hp⟩
      · exact ih h x hx hxk hxv

/-- `PutMatch()` adds at most the new item. -/
theorem withNew_putMatch {ok : Bool} (h : s.putMatch now valid item p = some (s', ok)) :
    WithNew item s s' := by
  unfold putMatch at h
  cases hg : s.getMatch now valid item.key p with
  | mk s1 found =>
    rw [hg] at h
    have hw := (getMatch_spec hg).1
    cases found with
    | none => exact hw.withNew (withNew_add h)
    | some id => exact (hw.trans (within_removeItem s1 id)).withNew (withNew_add h)

end Key

end BengProxy.Cache
