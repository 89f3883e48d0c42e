import BengProxy.HttpCache.Freshness

/-!
# Variants of cached responses

In every run of the HTTP cache, a document remembers the request headers that its `Vary` headers
list, up to the 64th one. A request that gets the document is of the variant that it was stored
for if no field name was lost.
-/

namespace BengProxy.HttpCaching

open Base Text Cache List HttpCache Option StringMap

variable {now : Nat} {available : Option Nat} {systemNow : Int} {response : Response}

variable {lib : CacheLib}

theorem mem_of_lookup {α : Type} {n : Nat} {l : List (Nat × α)} {a : α}
    (h : l.lookup n = some a) : (n, a) ∈ l := by
  induction l with
  | nil => cases h
  | cons p l ih =>
    rw [lookup_cons] at h
    split at h
    next he =>
      cases h
      rw [beq_iff_eq.mp he]
      exact mem_cons_self
    · exact mem_cons_of_mem _ (ih h)

/-- The document remembers the joined `Vary` headers of its response, and the request headers that
they list. -/
structure HttpCacheDocument.VaryOk (lib : CacheLib) (d : HttpCacheDocument) : Prop where
  joined : joinVary (d.responseHeaders.values (ascii "vary")) none = some d.info.vary
  copied : d.vary = storedVary lib d.info.vary d.request

/-- All cached documents do. -/
def HeapOk (lib : CacheLib) (heap : Heap) : Prop :=
  ∀ id ∈ heap.items, (heap.store id).data.VaryOk lib

/-- All cached documents do, and so will those that are being stored. -/
structure HttpCache.VaryInv (lib : CacheLib) (s : HttpCache) : Prop where
  heap : HeapOk lib s.heap
  storing : ∀ p ∈ s.storing, joinVary (p.2.headers.values (ascii "vary")) none = some p.2.info.vary

theorem HeapOk.within {heap heap' : Heap} (h : HeapOk lib heap) (hw : Cache.Within heap heap') :
    HeapOk lib heap' := by
  intro id hid
  rw [hw.store_eq]
  exact h id (hw.subset id hid)

theorem HeapOk.put {heap heap' : Heap} {item : CacheItem Text HttpCacheDocument}
    (h : HeapOk lib heap) (hi : item.data.VaryOk lib)
    (hpu : heapPut lib heap now item = some heap') : HeapOk lib heap' := by
  obtain ⟨⟨he, ok⟩, hma, rfl⟩ := map_eq_some_iff.mp hpu
  intro id hid
  rcases withNew_putMatch hma id hid with hn | ⟨ho, heq⟩
  · rw [hn]
    exact hi
  · rw [heq]
    exact h id ho

private theorem joinVary_of_evaluate {i ha e : Bool} {now : Int}
    {st : Nat}
    {he : StringMap} {info : ResponseInfo}
    (h : httpCacheResponseEvaluate lib i ha e now st he
      available = some info) :
    joinVary (he.values (ascii "vary")) none = some info.vary := by
  unfold httpCacheResponseEvaluate at h
  split at h
  · cases h
  split at h
  · cases h
  split at h
  · cases h
  next expires _ =>
    simp only at h
    split at h
    · cases h
    next vary hv =>
      rw [hv]
      split at h
      · split at h
        · cases h
          rfl
        · cases h
      · cases h
        rfl

theorem varyOk_newItem {key : Text} {tag : Option Text}
    {info : ResponseInfo} {request : StringMap} {size : Nat}
    (h : joinVary (response.headers.values (ascii "vary")) none = some info.vary) :
    (newItem lib now systemNow key tag info request response size).data.VaryOk lib :=
  ⟨h, rfl⟩

theorem values_updateHeader {headers dest : StringMap} {name name' : Text} (h : name' ≠ name) :
    (updateHeader lib headers dest name).values name' = dest.values name' := by
  unfold updateHeader
  split
  · rfl
  · exact values_secureSet h _

private theorem varyOk_updateDocument {e : Int} {he : StringMap}
    {item : CacheItem Text HttpCacheDocument} (h : item.data.VaryOk lib) :
    (updateDocument lib now systemNow e he item).data.VaryOk lib := by
  refine ⟨?_, h.copied⟩
  unfold updateDocument
  rw [values_updateHeader (by decide), values_updateHeader (by decide)]
  exact h.joined

namespace HttpCache.VaryInv

variable {s s' : HttpCache}

section

variable (h : s.VaryInv lib)
include h

theorem of_eq (hh : s'.heap = s.heap) (hst : s'.storing = s.storing) : s'.VaryInv lib :=
  ⟨by rw [hh]; exact h.heap, by rw [hst]; exact h.storing⟩

theorem within (hh : Cache.Within s.heap s'.heap) (hst : s'.storing = s.storing) : s'.VaryInv lib :=
  ⟨h.heap.within hh, by rw [hst]; exact h.storing⟩

theorem lock (id : Nat) : { s with heap := s.heap.lock id }.VaryInv lib :=
  h.within ⟨fun _ hid => hid, rfl⟩ rfl

theorem sendOther (contacted : Bool) (response : Response) :
    (s.sendOther contacted response).VaryInv lib :=
  h.of_eq rfl rfl

theorem release (r : HttpCacheRequest) : (s.release r).VaryInv lib := by
  unfold HttpCache.release
  split
  · exact h
  · exact h.within (within_unlock _ _) rfl

theorem removeDocument (r : HttpCacheRequest) : (s.removeDocument r).VaryInv lib := by
  unfold HttpCache.removeDocument
  split
  · exact h
  · exact h.within (within_remove _ _) rfl

theorem serve (systemNow : Int) (info : RequestInfo) (id : Nat)
    (contacted : Bool) : (s.serve systemNow info id contacted).VaryInv lib := by
  unfold HttpCache.serve
  simp only
  split
  · exact h.within ⟨fun _ hid => hid, rfl⟩ rfl
  · exact h.of_eq rfl rfl

theorem found (systemNow : Int) (p : StartParams) (key : Text)
    (info : RequestInfo) (id : Nat) : (s.found lib systemNow p key info id).VaryInv lib := by
  unfold HttpCache.found
  simp only
  split
  · exact h.of_eq rfl rfl
  · split
    · exact h.serve systemNow info id false
    · exact (h.lock id).of_eq rfl rfl

theorem start (now : Nat) (systemNow : Int) (p : StartParams) :
    (s.start lib now systemNow p).VaryInv lib := by
  have hre : ∀ key, (s.removeKey lib key p.request.headers).VaryInv lib := fun key =>
    h.within (within_removeIf _ _ s.heap) rfl
  unfold HttpCache.start
  split
  · exact h.of_eq rfl rfl
  next key _ =>
    split
    · exact h.of_eq rfl rfl
    simp only
    split
    next info _ =>
      unfold use
      split
      next heap hg =>
        have hh : { s with heap }.VaryInv lib := h.within (getMatch_spec hg).1 rfl
        unfold miss
        split <;> exact hh.of_eq rfl rfl
      next heap id hg =>
        have hh : { s with heap }.VaryInv lib := h.within (getMatch_spec hg).1 rfl
        exact hh.found systemNow p _ info id
    · split
      · exact (hre _).of_eq rfl rfl
      · split
        · exact (hre _).of_eq rfl rfl
        · exact h.of_eq rfl rfl

theorem serveRequest (systemNow : Int) (r : HttpCacheRequest) (id : Nat) :
    (s.serveRequest lib systemNow r id).VaryInv lib := by
  unfold HttpCache.serveRequest
  split
  · exact h.of_eq rfl rfl
  · exact h.serve systemNow r.info id true

theorem notModified (now : Nat) (systemNow : Int) (r : HttpCacheRequest)
    (id : Nat) (headers : StringMap) :
    (s.notModified lib now systemNow r id headers).VaryInv lib := by
  unfold HttpCache.notModified
  split
  · exact h
  next info _ =>
    split
    · refine ⟨fun id' hid => ?_, h.storing⟩
      have ho := h.heap id' hid
      by_cases he : id' = id
      · rw [he] at ho ⊢
        simp only [Function.update_self]
        exact varyOk_updateDocument ho
      · simp only [Function.update_of_ne he]
        exact ho
    · exact h

theorem newResponse {n : Nat} {r : HttpCacheRequest} {size : Nat}
    (hs : s.newResponse lib now systemNow n r response available size = some s') :
    s'.VaryInv lib := by
  unfold HttpCache.newResponse at hs
  have hre := h.removeDocument r
  generalize s.removeDocument r = s1 at hs hre
  split at hs
  · cases hs
    exact (hre.sendOther true response).release r
  next info he =>
    split at hs
    · obtain ⟨heap, hpu, heq⟩ := map_eq_some_iff.mp hs
      have hh : { s1 with heap }.VaryInv lib :=
        ⟨hre.heap.put (varyOk_newItem (joinVary_of_evaluate he)) hpu, hre.storing⟩
      rw [← heq]
      exact (hh.sendOther true response).release r
    cases hs
    refine ⟨hre.heap, fun p hp => ?_⟩
    rcases mem_cons.mp hp with rfl | hp
    · exact joinVary_of_evaluate he
    · exact hre.storing p hp

theorem onResponse {n : Nat} {w : Waiting} {size : Nat}
    (hs : s.onResponse lib now systemNow n w response available size = some s') :
    s'.VaryInv lib := by
  unfold HttpCache.onResponse at hs
  split at hs
  · cases hs
    exact h.of_eq rfl rfl
  · split at hs
    · split at hs
      · cases hs
        exact h.of_eq rfl rfl
      next tag _ =>
        cases hs
        have hfl : { s with heap := heapFlushTag s.heap tag }.VaryInv lib :=
          h.within (within_removeIf _ _ s.heap) rfl
        exact hfl.of_eq rfl rfl
    · cases hs
      exact h.of_eq rfl rfl
  next r =>
    unfold onHttpResponse at hs
    split at hs
    · exact h.newResponse hs
    next id _ =>
      split at hs
      · cases hs
        exact ((h.notModified now systemNow r id _).serveRequest systemNow r id).release r
      · split at hs
        · cases hs
          exact (h.serveRequest systemNow r id).release r
        · exact h.newResponse hs

theorem rubberDone {t : Storing} {body digest : Text} {size : Nat}
    (ht : joinVary (t.headers.values (ascii "vary")) none = some t.info.vary)
    (hs : s.rubberDone lib now systemNow t body digest size = some s') : s'.VaryInv lib := by
  obtain ⟨heap, hpu, he⟩ := map_eq_some_iff.mp hs
  have hi : joinVary (values
      (if t.request.eagerCache ∧ !t.headers.contains lib.toLookup (ascii "digest") then
        t.headers.add (ascii "digest") digest
      else t.headers) (ascii "vary")) none = some t.info.vary := by
    split
    · rw [values_add (by decide)]
      exact ht
    · exact ht
  have hh : { s with heap }.VaryInv lib := ⟨h.heap.put (varyOk_newItem hi) hpu, h.storing⟩
  rw [← he]
  exact hh.release t.request

theorem step {e : Event} (hs : HttpCache.Step lib s e s') : s'.VaryInv lib := by
  have hfi : ∀ n, { s with storing := s.storing.filter (·.1 ≠ n) }.VaryInv lib := fun n =>
    ⟨h.heap, fun p hp => h.storing p (mem_filter.mp hp).1⟩
  unfold HttpCache.Step at hs
  cases e with
  | start now systemNow p =>
    cases hs
    exact h.start now systemNow p
  | response now systemNow n response available size =>
    obtain ⟨w, -, hw⟩ := bind_eq_some_iff.mp hs
    have hwa : { s with waiting := s.waiting.filter (·.1 ≠ n) }.VaryInv lib := h.of_eq rfl rfl
    exact hwa.onResponse hw
  | error n =>
    obtain ⟨w, -, hw⟩ := bind_eq_some_iff.mp hs
    cases hw
    have hwa : { s with waiting := s.waiting.filter (·.1 ≠ n) }.VaryInv lib := h.of_eq rfl rfl
    cases w with
    | direct | autoFlush tag => exact hwa
    | cached r => exact hwa.release r
  | stored now systemNow n body digest size =>
    obtain ⟨t, hlo, ht⟩ := bind_eq_some_iff.mp hs
    exact (hfi n).rubberDone (h.storing _ (mem_of_lookup hlo)) ht
  | notStored n =>
    obtain ⟨t, -, ht⟩ := bind_eq_some_iff.mp hs
    cases ht
    exact (hfi n).release t.request
  | closeStream id =>
    rw [HttpCache.step] at hs
    split at hs
    · cases hs
      exact h.within (within_unlock s.heap id) rfl
    · cases hs
  | flush | flushTag tag | expire now =>
    cases hs
    exact h.within (within_removeIf _ _ s.heap) rfl

end

theorem run {maxSize : Nat} {obeyNoCache : Bool} {events : List Event}
    (h : Run (HttpCache.Step lib) (.new maxSize obeyNoCache) events s) : s.VaryInv lib :=
  h.invariant ⟨forall_mem_nil _, forall_mem_nil _⟩
    fun _ _ _ hi hst => hi.step hst

end HttpCache.VaryInv

/-- The `Vary` headers of a response, joined as for storing it. -/
def joinedVary (response : StringMap) : Option Text :=
  (joinVary (response.values (ascii "vary")) none).join

/-- The requests that may get a cached document are of the variant that it was stored for exactly
if its `Vary` headers name no `"*"` and no field beyond those that are copied; then the request
that does get it is. -/
theorem found_same_variant_iff (lib : CacheLib) {maxSize : Nat} {obeyNoCache : Bool}
    {events : List Event} {s : HttpCache}
    (h : Run (HttpCache.Step lib) (.new maxSize obeyNoCache) events s) {id : Nat}
    (hid : id ∈ s.heap.items) :
    ((∀ r', httpCacheItemMatch lib r' (s.heap.store id) = true →
        SameVariant lib (s.heap.store id).data.responseHeaders (s.heap.store id).data.request r') ↔
      VaryComplete lib (s.heap.store id).data.responseHeaders
        (joinedVary (s.heap.store id).data.responseHeaders)) ∧
    (VaryComplete lib (s.heap.store id).data.responseHeaders
        (joinedVary (s.heap.store id).data.responseHeaders) →
      ∀ now key r', (heapGet lib s.heap now key r').2 = some id →
        SameVariant lib (s.heap.store id).data.responseHeaders (s.heap.store id).data.request
          r') := by
  have ho := (HttpCache.VaryInv.run h).heap id hid
  have hj : joinedVary (s.heap.store id).data.responseHeaders =
      (s.heap.store id).data.info.vary := by
    rw [joinedVary, ho.joined, join_some]
  have hi : (∀ r', httpCacheItemMatch lib r' (s.heap.store id) = true →
        SameVariant lib (s.heap.store id).data.responseHeaders (s.heap.store id).data.request r') ↔
      VaryComplete lib (s.heap.store id).data.responseHeaders
        (joinedVary (s.heap.store id).data.responseHeaders) := by
    rw [hj]
    unfold httpCacheItemMatch
    rw [ho.copied]
    exact varyComplete_iff
  refine ⟨hi, fun hcomplete now key r' hg => hi.mpr hcomplete r' ?_⟩
  exact ((getMatch_spec rfl).2 id hg).2.2.2

/-- A response with this `Vary` header is stored for a request with these headers. -/
def varyEvents (vary : Text) (request : StringMap) : List Event :=
  [ .start 100 1000 (plainGet request),
    .response 100 1000 0
      { status := 200, headers := [(ascii "etag", ascii "x"), (ascii "vary", vary)]
        body := none } (some 0) 10 ]

/-- A list of 65 names with two letters: `"aa,ab,…,cm"`. -/
def longVary : Text :=
  (List.range 65).flatMap fun i => [0x61 + UInt8.ofNat (i / 26), 0x61 + UInt8.ofNat (i % 26), 0x2c]

/-- The document with the number 0 has been stored for the first request and is found for the
second one, which wants another variant. -/
def FindsOther (r r' : StringMap) (s : HttpCache) : Prop :=
  0 ∈ s.heap.items ∧ (s.heap.store 0).data.request = r ∧
    (heapGet plainLib s.heap 200 (ascii "k") r').2 = some 0 ∧
    ¬SameVariant plainLib (s.heap.store 0).data.responseHeaders r r'
  deriving Decidable

/-- A `"*"` that is not alone in its header is ignored, and so is the 65th name of a list. -/
theorem found_other_variant : (∃ s, Run (HttpCache.Step plainLib) (.new 4096 true)
        (varyEvents (ascii "accept, *") [(ascii "accept", ascii "a")]) s ∧
      FindsOther [(ascii "accept", ascii "a")]
        [(ascii "accept", ascii "a"), (ascii "cookie", ascii "c")] s) ∧
    ∃ s, Run (HttpCache.Step plainLib) (.new 4096 true) (varyEvents longVary []) s ∧
      FindsOther [] [(ascii "cm", ascii "c")] s := by
  have hfi : ∀ vary r r', (runEvents (.new 4096 true) (varyEvents vary r)).any
      (fun s => decide (FindsOther r r' s)) = true →
      ∃ s, Run (HttpCache.Step plainLib) (.new 4096 true) (varyEvents vary r) s ∧
        FindsOther r r' s := by
    intro vary r r' h
    obtain ⟨s, hs, hf⟩ := (any_eq_true _ _).mp h
    exact ⟨s, run_runEvents _ hs, of_decide_eq_true hf⟩
  constructor
  all_goals exact hfi _ _ _ (by decide +kernel)

/-- A document with a complete list is found for a request of the same variant. -/
theorem found_same_variant_accept :
    ∃ s, Run (HttpCache.Step plainLib) (.new 4096 true)
        (varyEvents (ascii "accept") [(ascii "accept", ascii "a")]) s ∧
      SameVariant plainLib (s.heap.store 0).data.responseHeaders (s.heap.store 0).data.request
        [(ascii "cookie", ascii "c"), (ascii "accept", ascii "a")] := by
  have h : (runEvents (.new 4096 true)
      (varyEvents (ascii "accept") [(ascii "accept", ascii "a")])).any (fun s =>
        decide (0 ∈ s.heap.items ∧
          VaryComplete plainLib (s.heap.store 0).data.responseHeaders
            (joinedVary (s.heap.store 0).data.responseHeaders) ∧
          (heapGet plainLib s.heap 200 (ascii "k")
            [(ascii "cookie", ascii "c"), (ascii "accept", ascii "a")]).2 = some 0)) = true := by
    decide +kernel
  obtain ⟨s, hs, hd⟩ := (any_eq_true _ _).mp h
  obtain ⟨hid, hcomplete, hg⟩ := of_decide_eq_true hd
  have hru := run_runEvents _ hs
  exact ⟨s, hru, (found_same_variant_iff plainLib hru hid).2 hcomplete _ _ _ hg⟩

end BengProxy.HttpCaching
