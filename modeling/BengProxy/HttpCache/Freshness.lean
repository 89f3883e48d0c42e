import BengProxy.Cache.CacheContents
import BengProxy.HttpCache.Public

/-!
# Freshness of cached responses

A response that is derived from a cached document without asking the origin server is allowed if
the document is fresh or the client wanted it that way. Every run of the HTTP cache keeps to that,
unless a request finds a stale document and its conditional headers decide the matter:
`HttpCache::Found` looks at them first, `src/http/cache/Public.cxx:1092-1096`.
-/

namespace BengProxy.HttpCaching

open Base Text HttpCache List Bool

variable {s s' : HttpCache} {response : Response} {available : Option Nat}

/-- If the origin server was not asked, then the document was fresh and the client accepted cached
documents, or the client wanted to have it only if cached. -/
def Sent.Good (x : Sent) : Prop :=
  x.document.isSome = true →
    x.contacted = true ∨ x.fresh = true ∧ x.noCache = false ∨ x.onlyIfCached = true
  deriving Decidable

variable {lib : CacheLib}

/-- All new responses were sent after the origin server had been asked. -/
def Asked (s s' : HttpCache) : Prop :=
  ∃ sent, s'.sent = s.sent ++ sent ∧ ∀ x ∈ sent, x.contacted = true

theorem asked_of_eq (h : s'.sent = s.sent) : Asked s s' :=
  ⟨[], by rw [h, append_nil], fun x hx => absurd hx not_mem_nil⟩

theorem Asked.trans {s'' : HttpCache} (h : Asked s s') (h' : Asked s' s'') : Asked s s'' := by
  obtain ⟨xs, he, hxs⟩ := h
  obtain ⟨ys, he', hy⟩ := h'
  refine ⟨xs ++ ys, by rw [he', he, append_assoc], fun x hx => ?_⟩
  rcases mem_append.mp hx with hx | hx
  · exact hxs x hx
  · exact hy x hx

section

variable (s : HttpCache)

theorem asked_send {x : Sent} (h : x.contacted = true) : Asked s (s.send x) :=
  ⟨[x], rfl, fun y hy => by rwa [mem_singleton.mp hy]⟩

theorem sent_release (r : HttpCacheRequest) : (s.release r).sent = s.sent := by
  unfold release
  split <;> rfl

theorem sent_serve (systemNow : Int) (info : RequestInfo) (id : Nat) (contacted : Bool) :
    ∃ response, (s.serve systemNow info id contacted).sent =
      (s.sendDocument systemNow info id contacted response).sent := by
  unfold serve
  simp only
  split <;> exact ⟨_, rfl⟩

theorem asked_serveRequest (systemNow : Int) (r : HttpCacheRequest) (id : Nat) :
    Asked s (s.serveRequest lib systemNow r id) := by
  unfold serveRequest
  split
  next response _ => exact asked_send s rfl
  · obtain ⟨response, hse⟩ := sent_serve s systemNow r.info id true
    obtain ⟨sent, he, hal⟩ : Asked s (s.sendDocument systemNow r.info id true response) :=
      asked_send s rfl
    exact ⟨sent, hse.trans he, hal⟩

theorem sent_notModified (now : Nat) (systemNow : Int) (r : HttpCacheRequest)
    (id : Nat) (headers : StringMap) :
    (s.notModified lib now systemNow r id headers).sent = s.sent := by
  unfold notModified
  split
  · rfl
  · split <;> rfl

theorem sent_removeDocument (r : HttpCacheRequest) : (s.removeDocument r).sent = s.sent := by
  unfold removeDocument
  split <;> rfl

end

theorem asked_newResponse {now : Nat} {systemNow : Int} {n : Nat}
    {r : HttpCacheRequest} {size : Nat}
    (h : s.newResponse lib now systemNow n r response available size = some s') : Asked s s' := by
  unfold newResponse at h
  apply (asked_of_eq (sent_removeDocument s r)).trans
  generalize s.removeDocument r = s1 at h
  split at h
  · cases h
    exact (asked_send s1 rfl).trans (asked_of_eq (sent_release _ r))
  next info _ =>
    split at h
    · obtain ⟨heap, -, he⟩ := Option.map_eq_some_iff.mp h
      rw [← he]
      have hpu : Asked s1 { s1 with heap } := asked_of_eq rfl
      exact (hpu.trans (asked_send _ rfl)).trans (asked_of_eq (sent_release _ r))
    · cases h
      exact ⟨_, rfl, fun y hy => by rw [mem_singleton.mp hy]⟩

theorem asked_onHttpResponse {now : Nat} {systemNow : Int} {n : Nat}
    {r : HttpCacheRequest} {size : Nat}
    (h : s.onHttpResponse lib now systemNow n r response available size = some s') :
    Asked s s' := by
  unfold onHttpResponse at h
  split at h
  · exact asked_newResponse h
  next id _ =>
    split at h
    · cases h
      exact ((asked_of_eq (sent_notModified s now systemNow r id response.headers)).trans
        (asked_serveRequest _ systemNow r id)).trans (asked_of_eq (sent_release _ r))
    · split at h
      · cases h
        exact (asked_serveRequest s systemNow r id).trans (asked_of_eq (sent_release _ r))
      · exact asked_newResponse h

theorem asked_onResponse {now : Nat} {systemNow : Int} {n : Nat} {w : Waiting} {size : Nat}
    (h : s.onResponse lib now systemNow n w response available size = some s') : Asked s s' := by
  unfold onResponse at h
  split at h
  · cases h
    exact asked_send s rfl
  · split at h
    next tag =>
      split at h
      · cases h
        exact asked_send s rfl
      · cases h
        have hfl : Asked s { s with heap := heapFlushTag s.heap tag } := asked_of_eq rfl
        exact hfl.trans (asked_send _ rfl)
    · cases h
      exact asked_send s rfl
  next r => exact asked_onHttpResponse h

/-- The request does not find a document, or one that is fresh, or it insists on asking or not
asking the origin server, or its conditional headers do not decide the matter. -/
def StartSafe (lib : CacheLib) (s : HttpCache) (now : Nat) (systemNow : Int) (p : StartParams) :
    Prop :=
  ∀ key info id, p.key = some key → key.length ≤ 8192 →
    httpCacheRequestEvaluate lib p.request (s.obeyNoCache && !p.ignoreNoCache) = some info →
    (heapGet lib s.heap now (requestKey lib p key) p.request.headers).2 = some id →
    info.noCache = true ∨ info.onlyIfCached = true ∨
      (s.heap.store id).data.isFresh systemNow = true ∨
      checkCacheRequest lib info (s.heap.store id).data = none

/-- The condition for an event: only new requests have one. -/
def Event.Safe (lib : CacheLib) (s : HttpCache) : Event → Prop
  | .start now systemNow p => StartSafe lib s now systemNow p
  | _ => True

private theorem found_sent (lib : CacheLib) (s : HttpCache) (sy : Int) (p : StartParams)
    (key : Text)
    (info : RequestInfo) (id : Nat) :
    ∃ sent, (s.found lib sy p key info id).sent = s.sent ++ sent ∧
      ((∀ x ∈ sent, x.Good) ↔ info.noCache = true ∨ info.onlyIfCached = true ∨
        (s.heap.store id).data.isFresh sy = true ∨
        checkCacheRequest lib info (s.heap.store id).data = none) := by
  unfold found
  simp only
  split
  next response hc =>
    -- the conditional headers decide, whatever the document is like
    refine ⟨_, rfl, ?_⟩
    cases hno : info.noCache with
    | true =>
      rw [hno] at hc
      cases hc
    | false =>
      rw [hno] at hc
      rw [if_neg Bool.false_ne_true] at hc
      rw [hc]
      simp only [Sent.Good]
      cases info.onlyIfCached <;> cases (s.heap.store id).data.isFresh sy <;> simp
  next hc =>
    have hsa : info.noCache = true ∨ checkCacheRequest lib info (s.heap.store id).data = none := by
      cases hno : info.noCache with
      | true => exact .inl rfl
      | false =>
        rw [hno] at hc
        exact .inr hc
    have hr : info.noCache = true ∨ info.onlyIfCached = true ∨
        (s.heap.store id).data.isFresh sy = true ∨
        checkCacheRequest lib info (s.heap.store id).data = none :=
      hsa.imp_right fun h => .inr (.inr h)
    split
    next hma =>
      obtain ⟨response, hse⟩ := sent_serve s sy info id false
      refine ⟨_, hse, ⟨fun _ => hr, fun _ => ?_⟩⟩
      rw [forall_mem_singleton]
      intro _
      rw [httpCacheMayServe, or_eq_true, and_eq_true, not_eq_true'] at hma
      rcases hma with ho | ⟨hno, hf⟩
      · exact .inr (.inr ho)
      · exact .inr (.inl ⟨hf, hno⟩)
    · exact ⟨[], (append_nil _).symm, ⟨fun _ => hr, fun _ x hx => absurd hx not_mem_nil⟩⟩

private theorem start_sent (s : HttpCache) (now : Nat) (sy : Int) (p : StartParams) :
    ∃ sent, (s.start lib now sy p).sent = s.sent ++ sent ∧
      ((∀ x ∈ sent, x.Good) ↔ StartSafe lib s now sy p) := by
  have hn : ∀ {s' : HttpCache}, s'.sent = s.sent → StartSafe lib s now sy p →
      ∃ sent, s'.sent = s.sent ++ sent ∧
        ((∀ x ∈ sent, x.Good) ↔ StartSafe lib s now sy p) := by
    intro s' heq hsa
    exact ⟨[], by rw [heq, append_nil], ⟨fun _ => hsa, fun _ x hx => absurd hx not_mem_nil⟩⟩
  unfold start
  cases hke : p.key with
  | none =>
    refine hn rfl fun key info id hk => ?_
    rw [hke] at hk
    cases hk
  | some key =>
    simp only
    split
    next hlo =>
      refine hn rfl fun key' info id hk hle => ?_
      rw [hke] at hk
      cases hk
      exact absurd hlo (Nat.not_lt.mpr hle)
    next hlo =>
      cases hev : httpCacheRequestEvaluate lib p.request (s.obeyNoCache && !p.ignoreNoCache) with
      | none =>
        have hsa : StartSafe lib s now sy p := by
          intro key' info id _ _ he
          rw [hev] at he
          cases he
        simp only
        split
        · exact hn rfl hsa
        · split <;> exact hn rfl hsa
      | some info =>
        unfold use
        cases hg : heapGet lib s.heap now (requestKey lib p key) p.request.headers with
        | mk heap found =>
          have hst : heap.store = s.heap.store := (Cache.getMatch_spec hg).1.store_eq
          cases found with
          | none =>
            have hsa : StartSafe lib s now sy p := by
              intro key' info' id hk _ _ hfo
              rw [hke] at hk
              cases hk
              rw [hg] at hfo
              cases hfo
            simp only
            unfold miss
            split
            · refine ⟨_, rfl, ⟨fun _ => hsa, fun _ => ?_⟩⟩
              rw [forall_mem_singleton]
              exact nofun
            · exact hn rfl hsa
          | some id =>
            obtain ⟨sent, heq, hi⟩ :=
              found_sent lib { s with heap } sy p (requestKey lib p key) info id
            refine ⟨sent, heq, hi.trans ?_⟩
            rw [hst]
            constructor
            · intro h key' info' id' hk _ he hfo
              rw [hke] at hk
              cases hk
              rw [hev] at he
              cases he
              rw [hg] at hfo
              cases hfo
              exact h
            · intro h
              exact h key info id hke (Nat.not_lt.mp hlo) hev (by rw [hg])

private theorem step_sent {e : Event} (h : HttpCache.Step lib s e s') :
    ∃ sent, s'.sent = s.sent ++ sent ∧ ((∀ x ∈ sent, x.Good) ↔ e.Safe lib s) := by
  have hask : Asked s s' → ∃ sent, s'.sent = s.sent ++ sent ∧ ∀ x ∈ sent, x.Good := by
    rintro ⟨sent, he, hal⟩
    exact ⟨sent, he, fun x hx _ => .inl (hal x hx)⟩
  have ho : Asked s s' → e.Safe lib s →
      ∃ sent, s'.sent = s.sent ++ sent ∧ ((∀ x ∈ sent, x.Good) ↔ e.Safe lib s) := by
    intro ha hsa
    obtain ⟨sent, he, hal⟩ := hask ha
    exact ⟨sent, he, ⟨fun _ => hsa, fun _ => hal⟩⟩
  unfold HttpCache.Step at h
  cases e with
  | start now systemNow p =>
    cases h
    exact start_sent s now systemNow p
  | response now systemNow n response available size =>
    obtain ⟨w, -, hw⟩ := Option.bind_eq_some_iff.mp h
    have hwa : Asked s { s with waiting := s.waiting.filter (·.1 ≠ n) } := asked_of_eq rfl
    exact ho (hwa.trans (asked_onResponse hw)) trivial
  | error n =>
    obtain ⟨w, -, hw⟩ := Option.bind_eq_some_iff.mp h
    cases hw
    refine ho (asked_of_eq ?_) trivial
    cases w with
    | direct | autoFlush tag => rfl
    | cached r => exact sent_release _ r
  | stored now systemNow n body digest size =>
    obtain ⟨t, -, ht⟩ := Option.bind_eq_some_iff.mp h
    obtain ⟨heap, -, he⟩ := Option.map_eq_some_iff.mp ht
    refine ho (asked_of_eq ?_) trivial
    rw [← he, sent_release]
  | notStored n =>
    obtain ⟨t, -, ht⟩ := Option.bind_eq_some_iff.mp h
    cases ht
    exact ho (asked_of_eq (sent_release _ t.request)) trivial
  | closeStream id =>
    rw [step] at h
    split at h
    · cases h
      exact ho (asked_of_eq rfl) trivial
    · cases h
  | flush | flushTag tag | expire now =>
    cases h
    exact ho (asked_of_eq rfl) trivial

/-- In every run, all responses that were derived from cached documents without asking the origin
server are allowed exactly if no request found a stale document about which its conditional headers
decided. -/
theorem sent_good_iff (lib : CacheLib) {maxSize : Nat} {obeyNoCache : Bool} {events : List Event}
    {s : HttpCache} (h : Run (HttpCache.Step lib) (.new maxSize obeyNoCache) events s) :
    (∀ x ∈ s.sent, x.Good) ↔
      Run (fun s e s' => HttpCache.Step lib s e s' ∧ e.Safe lib s) (.new maxSize obeyNoCache)
        events s := by
  constructor
  · intro hg
    induction h with
    | nil => exact .nil
    | snoc _ hst ih =>
      obtain ⟨sent, he, hi⟩ := step_sent hst
      rw [he] at hg
      refine .snoc (ih fun x hx => hg x (mem_append_left _ hx)) ⟨hst, hi.mp ?_⟩
      exact fun x hx => hg x (mem_append_right _ hx)
  · intro hru
    apply hru.invariant (P := fun s => ∀ x ∈ s.sent, x.Good)
    · exact fun x hx => absurd hx not_mem_nil
    · intro s e s' hg hst x hx
      obtain ⟨sent, he, hi⟩ := step_sent hst.1
      rw [he] at hx
      rcases mem_append.mp hx with hx | hx
      · exact hg x hx
      · exact hi.mpr hst.2 x hx

/-- A library for the examples. -/
def plainLib : CacheLib :=
  { Lookup.first with
    isWhitespace := fun c => decide (c ≤ 0x20)
    httpDateParse := fun _ => -1
    atoi := fun s => s.foldl (fun n c => 10 * n + (c.toNat - 0x30 : Nat)) 0
    listContains := fun list item => list == item
    isSafeMethod := fun _ => true
    statusIsError := fun status => decide (400 ≤ status)
    docrootBase32 := id }

/-- A GET request with these headers. -/
def plainGet (headers : StringMap) : StartParams :=
  { key := some (ascii "k"), lhttp := false
    request := { method := .get, isRemote := false, hasQueryString := false, headers
                 hasBody := false }
    eagerCache := false, ignoreNoCache := false, autoFlushCache := false, tag := none }

/-- The state after these events, if they can happen. -/
def runEvents (s : HttpCache) (events : List Event) : Option HttpCache :=
  events.foldlM (fun s e => s.step plainLib e) s

theorem run_runEvents (events : List Event) :
    ∀ {s' : HttpCache}, runEvents s events = some s' →
      Run (HttpCache.Step plainLib) s events s' := by
  induction events generalizing s with
  | nil =>
    intro s' h
    cases h
    exact .nil
  | cons e events ih =>
    intro s' h
    obtain ⟨s1, hst, hr⟩ := Option.bind_eq_some_iff.mp h
    exact .cons hst (ih hr)

/-- A response with an `ETag` and no expiry date is stored, and then a client asks with the same
`ETag`. -/
def etagEvents : List Event :=
  [ .start 100 1000 (plainGet []),
    .response 100 1000 0
      { status := 200, headers := [(ascii "etag", ascii "x")], body := none } (some 0) 10,
    .start 200 1100 (plainGet [(ascii "if-none-match", ascii "x")]) ]

/-- The stale document is answered with `304 Not Modified`, and the origin server is not asked. -/
theorem stale_not_modified :
    ∃ s, Run (HttpCache.Step plainLib) (.new 4096 true) etagEvents s ∧
      s.sent.getLast? =
        some { response := { status := 304, headers := [(ascii "etag", ascii "x")] }
               document := some 0, contacted := false, fresh := false, noCache := false
               onlyIfCached := false } ∧
      ¬∀ x ∈ s.sent, x.Good := by
  have hru : (runEvents (.new 4096 true) etagEvents).isSome = true := by decide +kernel
  obtain ⟨s, hs⟩ := Option.isSome_iff_exists.mp hru
  have hse : (runEvents (.new 4096 true) etagEvents).map (·.sent.getLast?) =
      some (some { response := { status := 304, headers := [(ascii "etag", ascii "x")] }
                   document := some 0, contacted := false, fresh := false, noCache := false
                   onlyIfCached := false }) := by decide +kernel
  rw [hs, Option.map_some, Option.some_inj] at hse
  refine ⟨s, run_runEvents _ hs, hse, fun hal => ?_⟩
  exact absurd (hal _ (mem_of_getLast? hse)) (by decide)

/-- Without the `ETag` of the client, the document is revalidated. -/
theorem sent_good_revalidated :
    ∃ s, Run (fun s e s' => HttpCache.Step plainLib s e s' ∧ e.Safe plainLib s) (.new 4096 true)
      (etagEvents.take 2 ++ [.start 200 1100 (plainGet [])]) s := by
  have hru : (runEvents (.new 4096 true)
      (etagEvents.take 2 ++ [.start 200 1100 (plainGet [])])).isSome = true := by decide +kernel
  obtain ⟨s, hs⟩ := Option.isSome_iff_exists.mp hru
  have hse : (runEvents (.new 4096 true)
      (etagEvents.take 2 ++ [.start 200 1100 (plainGet [])])).all
        (fun s => s.sent.all fun x => decide x.Good) = true := by decide +kernel
  rw [hs, Option.all_some, all_eq_true] at hse
  refine ⟨s, (sent_good_iff plainLib (run_runEvents _ hs)).mp fun x hx => ?_⟩
  exact of_decide_eq_true (hse x hx)

end BengProxy.HttpCaching
