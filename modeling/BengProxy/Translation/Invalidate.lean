import BengProxy.Cache.CacheIndex
import BengProxy.Translation.Cache

/-!
# Invalidation of the translation cache

In every run, the two indexes contain exactly the cached items with `VARY=HOST` and those with a
site. So `tcache::Invalidate` removes exactly the items that match, whether it looks into an index
or at all items.
-/

namespace BengProxy.Translation

open Base Text List Tcache

/-- The item is in the index of hosts. -/
def hasVaryHost (item : Item) : Bool := item.data.response.varyContains .host

/-- The item is in the index of sites. -/
def hasSite (item : Item) : Bool := item.data.response.site.isSome

/-- The cache is consistent, nobody holds a lease, the indexes are right, and only items with
`VARY=HOST` have a host. -/
structure Tcache.Inv (t : Tcache) : Prop where
  cache : t.cache.Inv
  leases : ∀ id, t.cache.leases id = 0
  perHost : t.cache.Indexes hasVaryHost t.perHost
  perSite : t.cache.Indexes hasSite t.perSite
  host : ∀ id ∈ t.cache.items, (t.cache.store id).data.request.host.isSome = true →
    hasVaryHost (t.cache.store id) = true

namespace Tcache

variable {lib : TranslationLib} {now : Nat} {statx : Text → Statx} {request : TranslateRequest}
  {P : Tcache → Prop} {t : Tcache}

private theorem tcacheLookupLoop_keeps {key : Text}
    (hg : ∀ (t : Tcache) key findBase, P t →
      P (t.tcacheGet lib now statx request key findBase).1) (p : List Nat) :
    ∀ {t : Tcache}, P t → P (tcacheLookupLoop lib now statx request key p t).1 := by
  induction p with
  | nil =>
    intro t h
    exact h
  | cons slash p ih =>
    intro t h
    have hn := hg t (key.take (slash + 1)) true h
    rw [tcacheLookupLoop]
    split
    next t' id he =>
      rw [he] at hn
      exact hn
    next t' he =>
      rw [he] at hn
      exact ih hn

/-- What `tcache_get()` keeps, a request keeps. -/
theorem sendRequest_keeps
    (hg : ∀ (t : Tcache) key findBase, P t →
      P (t.tcacheGet lib now statx request key findBase).1) (h : P t) :
    P (t.sendRequest lib now statx request) := by
  unfold sendRequest
  split
  · split
    next key _ =>
      have hn := hg t key false h
      unfold tcacheLookup
      split
      next t' id he =>
        rw [he] at hn
        exact hn
      next t' he =>
        rw [he] at hn
        split
        · exact hn
        · exact tcacheLookupLoop_keeps hg (slashes key) hn
    · exact h
  · exact h

end Tcache

namespace Tcache.Inv

variable {t : Tcache}

section

variable (h : t.Inv)
include h

private theorem shrink {cache : Cache Text TranslateCacheItem} (hi : cache.Inv)
    (hsa : Cache.Same t.cache cache)
    (hsu : ∀ id ∈ cache.sortedItems, id ∈ t.cache.sortedItems) : (t.withCache cache).Inv where
  cache := hi
  leases id := by
    show cache.leases id = 0
    rw [hsa.leases_eq]
    exact h.leases id
  perHost := h.perHost.shrink h.cache hi hsa hsu h.leases
  perSite := h.perSite.shrink h.cache hi hsa hsu h.leases
  host id hid := by
    have ho := hsu id (hi.mem_items_iff.mp hid)
    show (cache.store id).data.request.host.isSome = true → hasVaryHost (cache.store id) = true
    rw [hsa.store_eq]
    exact h.host id (h.cache.mem_items_iff.mpr ho)

private theorem removeIf (p : Item → Bool) {ids : List Nat} (hn : ids.Nodup)
    (hi : ∀ id ∈ ids, id ∈ t.cache.sortedItems) :
    (t.withCache (Cache.removeIf p ids t.cache)).Inv := by
  obtain ⟨hin, hsa, hso⟩ := h.cache.removeIf (p := p) hn hi
  apply h.shrink hin hsa
  intro id hid
  rw [hso] at hid
  exact (mem_filter.mp hid).1

private theorem grow {cache : Cache Text TranslateCacheItem} {item : Item}
    {r : TranslateResponse} (hi : cache.Inv) (hgr : Cache.Grows item t.cache cache)
    (hv : hasVaryHost item = r.varyContains .host)
    (hsi : hasSite item = r.site.isSome)
    (hh : item.data.request.host.isSome = true → hasVaryHost item = true) :
    ((t.link r).withCache cache).Inv where
  cache := hi
  leases id := by
    show cache.leases id = 0
    rw [hgr.leases_eq]
    exact h.leases id
  perHost := by
    have hg := h.perHost.grow h.cache hi hgr h.leases
    rw [hv] at hg
    exact hg
  perSite := by
    have hg := h.perSite.grow h.cache hi hgr h.leases
    rw [hsi] at hg
    exact hg
  host id hid := by
    show (cache.store id).data.request.host.isSome = true → hasVaryHost (cache.store id) = true
    rw [hgr.store_eq]
    by_cases hn : id = t.cache.count
    · rw [hn, Function.update_self]
      exact hh
    · rw [Function.update_of_ne hn]
      have ho := (hgr.subset id (hi.mem_items_iff.mp hid)).resolve_left hn
      exact h.host id (h.cache.mem_items_iff.mpr ho)

private theorem activate : { t with active := true }.Inv :=
  ⟨h.cache, h.leases, h.perHost, h.perSite, h.host⟩

private theorem dispose (id : Nat) : (t.dispose id).Inv ∧
    (t.dispose id).cache.store = t.cache.store ∧
    ∀ x, x ∈ (t.dispose id).cache.items ↔ x ≠ id ∧ x ∈ t.cache.items := by
  obtain ⟨hi, hsa, hme⟩ := h.cache.remove id
  refine ⟨h.shrink hi hsa fun x hx => ((hme x).mp hx).2, hsa.store_eq, fun x => ?_⟩
  show x ∈ (t.cache.remove id).items ↔ x ≠ id ∧ x ∈ t.cache.items
  rw [hi.mem_items_iff, hme, h.cache.mem_items_iff]

omit h in
private theorem foldl_dispose (ids : List Nat) : ∀ {t : Tcache}, t.Inv →
    (ids.foldl Tcache.dispose t).Inv ∧
    (ids.foldl Tcache.dispose t).cache.store = t.cache.store ∧
    ∀ x, x ∈ (ids.foldl Tcache.dispose t).cache.items ↔ x ∉ ids ∧ x ∈ t.cache.items := by
  induction ids with
  | nil =>
    intro t h
    exact ⟨h, rfl, fun x => by simp⟩
  | cons id ids ih =>
    intro t h
    obtain ⟨hi, hst, hme⟩ := h.dispose id
    obtain ⟨hi', hs', hm'⟩ := ih hi
    rw [foldl_cons]
    refine ⟨hi', hs'.trans hst, fun x => ?_⟩
    rw [hm' x, hme x, mem_cons, not_or, ← and_assoc, and_comm (a := x ∉ ids)]

private theorem disposeKeyIf {q : Item → Bool} {i : List Nat}
    (hi : t.cache.Indexes q i) (p matches' : Item → Bool)
    (hp : ∀ id ∈ t.cache.items, matches' (t.cache.store id) =
      (q (t.cache.store id) && p (t.cache.store id))) :
    (t.disposeKeyIf i p).Inv ∧ (t.disposeKeyIf i p).cache.store = t.cache.store ∧
    ∀ id, id ∈ (t.disposeKeyIf i p).cache.items ↔
      id ∈ t.cache.items ∧ matches' (t.cache.store id) = false := by
  obtain ⟨hin, hst, hme⟩ := foldl_dispose (i.filter fun id => p (t.cache.store id)) h
  refine ⟨hin, hst, fun id => (hme id).trans ?_⟩
  rw [mem_filter, hi id, and_comm]
  apply and_congr_right
  intro hid
  rw [hp id hid]
  cases q (t.cache.store id) <;> cases p (t.cache.store id) <;> simp [hid]

omit h in
private theorem host_of_invalidateMatchVary {item : Item} {vary : List TranslationCommand}
    {request : TranslateRequest} (hv : .host ∈ vary)
    (h : invalidateMatchVary item vary request = true) :
    ∃ host, item.data.request.host = some host ∧ request.host = some host := by
  have hma : tcacheStringMatch item.data.request.host request.host true = true :=
    all_eq_true.mp h .host hv
  unfold tcacheStringMatch at hma
  split at hma
  next a b ha hb => exact ⟨a, ha, by rw [hb, beq_iff_eq.mp hma]⟩
  · cases hma
  · cases hma

private theorem invalidateSite (request : TranslateRequest) (vary : List TranslationCommand)
    (site : Text) :
    (t.invalidateSite request vary site).Inv ∧
    (t.invalidateSite request vary site).cache.store = t.cache.store ∧
    ∀ id, id ∈ (t.invalidateSite request vary site).cache.items ↔ id ∈ t.cache.items ∧
      invalidateMatch (t.cache.store id) vary request (some site) = false := by
  apply h.disposeKeyIf h.perSite
    (fun item => getSite item == site && invalidateMatchVary item vary request)
    (fun item => invalidateMatch item vary request (some site))
  intro id _
  show (matchSite (t.cache.store id) site && _) = (hasSite (t.cache.store id) &&
    (getSite (t.cache.store id) == site && _))
  unfold matchSite hasSite getSite
  cases (t.cache.store id).data.response.site with
  | none => rfl
  | some s => simp

private theorem invalidateHost (request : TranslateRequest) {vary : List TranslationCommand}
    (hv : .host ∈ vary) :
    (t.invalidateHost request vary).Inv ∧
    (t.invalidateHost request vary).cache.store = t.cache.store ∧
    ∀ id, id ∈ (t.invalidateHost request vary).cache.items ↔ id ∈ t.cache.items ∧
      invalidateMatch (t.cache.store id) vary request none = false := by
  apply h.disposeKeyIf h.perHost
    (fun item => getHost item == request.host.getD [] && invalidateMatchVary item vary request)
    (fun item => invalidateMatch item vary request none)
  intro id hid
  show invalidateMatchVary (t.cache.store id) vary request = (hasVaryHost (t.cache.store id) &&
    (getHost (t.cache.store id) == request.host.getD [] &&
      invalidateMatchVary (t.cache.store id) vary request))
  cases hma : invalidateMatchVary (t.cache.store id) vary request with
  | false => simp
  | true =>
    -- an item that matches has a host, so it is in the index, and under the right key
    obtain ⟨host, hi, hre⟩ := host_of_invalidateMatchVary hv hma
    have hin := h.host id hid (by rw [hi]; rfl)
    rw [hin, getHost, hi, hre]
    simp

private theorem invalidateScan (request : TranslateRequest) (vary : List TranslationCommand)
    (site : Option Text) :
    (t.invalidateScan request vary site).Inv ∧
    (t.invalidateScan request vary site).cache.store = t.cache.store ∧
    ∀ id, id ∈ (t.invalidateScan request vary site).cache.items ↔ id ∈ t.cache.items ∧
      invalidateMatch (t.cache.store id) vary request site = false := by
  obtain ⟨hi, hsa, hso⟩ := h.cache.removeIf
    (p := fun item => invalidateMatch item vary request site) h.cache.nodup fun _ => id
  refine ⟨h.removeIf _ h.cache.nodup fun _ => id, hsa.store_eq, fun id => ?_⟩
  show id ∈ (Cache.removeIf (fun item => invalidateMatch item vary request site)
    t.cache.sortedItems t.cache).items ↔ _
  rw [hi.mem_items_iff, hso, mem_filter, h.cache.mem_items_iff]
  apply and_congr_right
  intro hid
  simp [hid]

/-- `tcache::Invalidate` removes exactly the items that match. -/
theorem invalidate (request : TranslateRequest) (vary : List TranslationCommand)
    (site : Option Text) :
    (t.invalidate request vary site).Inv ∧
    (t.invalidate request vary site).cache.store = t.cache.store ∧
    ∀ id, id ∈ (t.invalidate request vary site).cache.items ↔ id ∈ t.cache.items ∧
      invalidateMatch (t.cache.store id) vary request site = false := by
  unfold Tcache.invalidate
  cases site with
  | some site => exact h.invalidateSite request vary site
  | none =>
    by_cases hv : .host ∈ vary
    · simp only [if_pos hv]
      exact h.invalidateHost request hv
    · simp only [if_neg hv]
      exact h.invalidateScan request vary none

end

variable (lib : TranslationLib)

private theorem tcacheGet (h : t.Inv) (now : Nat) (statx : Text → Statx)
    (request : TranslateRequest)
    (key : Text) (f : Bool) : (t.tcacheGet lib now statx request key f).1.Inv := by
  obtain ⟨cache, found, hg, hi, hsa, hsu, -⟩ :=
    h.cache.getMatch now (tcacheValidateMtime statx) key (tcacheItemMatch lib request f)
  unfold Tcache.tcacheGet
  rw [hg]
  exact h.shrink hi hsa hsu

private theorem sendRequest (h : t.Inv) (now : Nat) (statx : Text → Statx)
    (request : TranslateRequest) :
    (t.sendRequest lib now statx request).Inv :=
  sendRequest_keeps (P := Tcache.Inv)
    (fun _ key findBase ht => ht.tcacheGet lib now statx request key findBase) h

private theorem host_itemRequest {request : TranslateRequest} {r : TranslateResponse}
    (h : (itemRequest request r).host.isSome = true) :
    r.varyContains .host = true := by
  by_contra hn
  have ho : (itemRequest request r).host = none := if_neg hn
  rw [ho] at h
  cases h

private theorem tcacheStore (h : t.Inv) (now : Nat) (statx : Text → Statx)
    (request : TranslateRequest)
    (key : Text) (r : TranslateResponse) :
    ∃ t', t.tcacheStore lib now statx request key r = some t' ∧ t'.Inv := by
  unfold Tcache.tcacheStore
  cases hst : lib.cacheStore r request.uri with
  | none => exact ⟨t, rfl, h⟩
  | some stored =>
    simp only
    split
    · exact ⟨t, rfl, h⟩
    obtain ⟨cache, ok, hpu, hi, hg⟩ := h.cache.putMatch now (tcacheValidateMtime statx)
      (newItem lib now request key r stored) (tcacheItemMatch lib request false)
    have hv : hasVaryHost (newItem lib now request key r stored) =
        r.varyContains .host := by
      show stored.vary.contains _ = r.vary.contains _
      rw [lib.cacheStore_vary hst]
    have hsi : hasSite (newItem lib now request key r stored) = r.site.isSome := by
      show stored.site.isSome = r.site.isSome
      rw [lib.cacheStore_site hst]
    refine ⟨(t.link r).withCache cache, by rw [hpu]; rfl, h.grow hi hg hv hsi fun hh => ?_⟩
    rw [hv]
    exact host_itemRequest hh

private theorem step (h : t.Inv) (e : Event) : ∃ t', t.step lib e = some t' ∧ t'.Inv := by
  cases e with
  | sendRequest now statx request => exact ⟨_, rfl, h.sendRequest lib now statx request⟩
  | response now statx request key cacheable response =>
    have hi : (if response.invalidate.isEmpty then { t with active := true }
        else Tcache.invalidate { t with active := true } request response.invalidate none).Inv := by
      split
      · exact h.activate
      · exact (h.activate.invalidate request response.invalidate none).1
    unfold Tcache.step Tcache.onTranslateResponse
    simp only
    split
    · exact hi.tcacheStore lib now statx request key response
    · exact ⟨_, rfl, hi⟩
  | invalidate request vary site => exact ⟨_, rfl, (h.invalidate request vary site).1⟩
  | flush =>
    have hn := h.cache.perm.nodup_iff.mpr h.cache.nodup
    exact ⟨_, rfl, h.removeIf _ hn fun _ hid => h.cache.mem_items_iff.mp hid⟩
  | expire now => exact ⟨_, rfl, h.removeIf _ h.cache.nodup fun _ => id⟩

theorem new (maxSize : Nat) (handshakeCacheable : Bool) :
    (new maxSize handshakeCacheable).Inv where
  cache := Cache.inv_new maxSize
  leases _ := rfl
  perHost _ := ⟨fun hid => absurd hid not_mem_nil, fun hid => absurd hid.1 not_mem_nil⟩
  perSite _ := ⟨fun hid => absurd hid not_mem_nil, fun hid => absurd hid.1 not_mem_nil⟩
  host _ hid := absurd hid not_mem_nil

theorem run {lib : TranslationLib} {maxSize : Nat} {handshakeCacheable : Bool} {events : List Event}
    (h : Run (Tcache.Step lib) (.new maxSize handshakeCacheable) events t) : t.Inv := by
  apply h.invariant (P := Tcache.Inv) (Inv.new maxSize handshakeCacheable)
  intro t e t' hi hst
  obtain ⟨t'', he, hi'⟩ := hi.step lib e
  rw [hst] at he
  cases he
  exact hi'

end Tcache.Inv

/-- In every run, the indexes contain exactly the cached items with `VARY=HOST` and with a site, and
`tcache::Invalidate` removes exactly the items that match, as the full scan does. -/
theorem invalidate_exact {lib : TranslationLib} {maxSize : Nat} {handshakeCacheable : Bool}
    {events : List Event} {t : Tcache}
    (h : Run (Tcache.Step lib) (.new maxSize handshakeCacheable) events t) :
    (∀ id, id ∈ t.perHost ↔ id ∈ t.cache.items ∧
      (t.cache.store id).data.response.varyContains .host = true) ∧
    (∀ id, id ∈ t.perSite ↔ id ∈ t.cache.items ∧
      (t.cache.store id).data.response.site.isSome = true) ∧
    ∀ request vary site,
      (∀ id, id ∈ (t.invalidate request vary site).cache.items ↔ id ∈ t.cache.items ∧
        invalidateMatch (t.cache.store id) vary request site = false) ∧
      ∀ id, id ∈ (t.invalidate request vary site).cache.items ↔
        id ∈ (t.invalidateScan request vary site).cache.items := by
  have hi := Tcache.Inv.run h
  refine ⟨hi.perHost, hi.perSite, fun request vary site => ?_⟩
  have hme := (hi.invalidate request vary site).2.2
  have hsc := (hi.invalidateScan request vary site).2.2
  exact ⟨hme, fun id => (hme id).trans (hsc id).symm⟩

/-- A library for the example: percent encoding, and regular expressions that are literal. -/
def literalLib : TranslationLib :=
  { UriEscape.percent with
    uriUnescape := some
    compiles := fun _ => true
    regexMatch := fun regex input => regex == input
    cacheStore := fun r _ => some r
    cacheStore_site := fun h => by rw [← Option.some_inj.mp h]
    cacheStore_vary := fun h => by rw [← Option.some_inj.mp h] }

/-- A response with `VARY=HOST` is stored for the host `a`. -/
def storeHostEvent : Event :=
  .response 0 (fun _ => .error) { uri := some (ascii "/"), host := some (ascii "a") } (ascii "a:/")
    true { maxAge := 60, vary := [.host] }

/-- Invalidating the host removes the item, and another host does not. -/
theorem invalidate_exact_host :
    ∃ t, Run (Tcache.Step literalLib) (.new 4 true) [storeHostEvent] t ∧ t.perHost = [0] ∧
      0 ∉ (t.invalidate { host := some (ascii "a") } [.host] none).cache.items ∧
      0 ∈ (t.invalidate { host := some (ascii "b") } [.host] none).cache.items := by
  have hst : ((new 4 true).step literalLib storeHostEvent).any (fun t =>
      decide (t.perHost = [0] ∧ 0 ∈ t.cache.items ∧
        invalidateMatch (t.cache.store 0) [.host] { host := some (ascii "a") } none = true ∧
        invalidateMatch (t.cache.store 0) [.host] { host := some (ascii "b") } none = false)) =
      true := by decide +kernel
  obtain ⟨t, ht, hd⟩ := (Option.any_eq_true _ _).mp hst
  obtain ⟨hi, hin, ha, hb⟩ := of_decide_eq_true hd
  have hru : Run (Tcache.Step literalLib) (.new 4 true) [storeHostEvent] t := .snoc .nil ht
  have he := (invalidate_exact hru).2.2
  refine ⟨t, hru, hi, fun hme => ?_, ((he _ _ _).1 0).mpr ⟨hin, hb⟩⟩
  have hno := (((he _ _ _).1 0).mp hme).2
  rw [ha] at hno
  cases hno

end BengProxy.Translation
