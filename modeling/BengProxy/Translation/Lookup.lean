import BengProxy.Cache.CacheContents
import BengProxy.Translation.DelimitedKey
import BengProxy.Translation.Invalidate

/-!
# Looking up the longest base

`tcache_lookup()` cuts the key of a request at its slashes, from the right, and `tcache_store()`
puts a response with a `BASE` under the key that the request has with the `BASE` in place of its
URI. The two meet as long as nobody else's key can be mistaken for such a piece.
-/

namespace BengProxy.Translation

open Base Text List Option Tcache Cache

variable {id : Nat}

namespace Tcache

private theorem mem_allSlashes {key : Text} {i : Nat} :
    i ∈ (range key.length).reverse.filter (fun i => decide (key[i]? = some 0x2f)) ↔
      key[i]? = some 0x2f := by
  rw [mem_filter, mem_reverse, mem_range, decide_eq_true_eq]
  constructor
  · exact fun h => h.2
  · intro h
    exact ⟨(List.getElem?_eq_some_iff.mp h).1, h⟩

private theorem pairwise_allSlashes (key : Text) : ((range key.length).reverse.filter
      (fun i => decide (key[i]? = some 0x2f))).Pairwise (· > ·) := by
  apply List.Pairwise.filter
  rw [pairwise_reverse]
  exact pairwise_lt_range

private theorem pairwise_slashes (key : Text) : (slashes key).Pairwise (· > ·) := by
  have hal := pairwise_allSlashes key
  unfold slashes
  simp only
  split
  · exact List.Pairwise.nil
  next slash rest he =>
    rw [he] at hal
    split
    · exact (pairwise_cons.mp hal).2
    · rw [he]
      exact hal

private theorem mem_slashes {key : Text} {i : Nat} (h : key[i]? = some 0x2f)
    (hlt : i + 1 < key.length) :
    i ∈ slashes key := by
  have hme := mem_allSlashes.mpr h
  unfold slashes
  simp only
  split
  next he =>
    rw [he] at hme
    exact absurd hme not_mem_nil
  next slash rest he =>
    split
    next hla =>
      rw [he] at hme
      rcases mem_cons.mp hme with rfl | hr
      · omega
      · exact hr
    · exact hme

private theorem exists_slash {key p : Text} (hpr : p <+: key) (hne : p ≠ key)
    (hla : p.getLast? = some 0x2f) :
    ∃ i ∈ slashes key, key.take (i + 1) = p ∧ i + 1 = p.length := by
  have hpo : p.length ≠ 0 := by
    intro hz
    rw [length_eq_zero_iff.mp hz] at hla
    cases hla
  have hlt : p.length < key.length := by
    apply Nat.lt_of_le_of_ne hpr.length_le
    exact fun he => hne (hpr.eq_of_length he)
  have hsu : p.length - 1 + 1 = p.length := by omega
  refine ⟨p.length - 1, mem_slashes ?_ (by omega), ?_, hsu⟩
  · rw [getLast?_eq_getElem?] at hla
    obtain ⟨rest, rfl⟩ := hpr
    rw [getElem?_append_left (by omega)]
    exact hla
  · rw [hsu]
    exact (prefix_iff_eq_take.mp hpr).symm

/-- The item is in the cache under the key, is valid, and matches the request. -/
structure Serves (lib : TranslationLib) (now : Nat) (statx : Text → Statx)
    (request : TranslateRequest) (t : Tcache) (key : Text) (findBase : Bool) (id : Nat) : Prop where
  mem : id ∈ t.cache.items
  key_eq : (t.cache.store id).key = key
  valid : (t.cache.store id).validate now (tcacheValidateMtime statx) = true
  matches' : tcacheItemMatch lib request findBase (t.cache.store id) = true

section

variable {lib : TranslationLib} {now : Nat} {statx : Text → Statx} {request : TranslateRequest}
  {t t' : Tcache} {key : Text} {findBase : Bool} {found : Option Nat}

private theorem Serves.transfer (h : Serves lib now statx request t key findBase id)
    (hme : id ∈ t'.cache.items) (hst : t'.cache.store = t.cache.store) :
    Serves lib now statx request t' key findBase id := by
  refine ⟨hme, ?_, ?_, ?_⟩ <;> rw [hst]
  · exact h.key_eq
  · exact h.valid
  · exact h.matches'

private theorem getMatch_of_tcacheGet
    (h : t.tcacheGet lib now statx request key findBase = (t', found)) :
    t.cache.getMatch now (tcacheValidateMtime statx) key (tcacheItemMatch lib request findBase) =
      (t'.cache, found) := by
  cases h
  rfl

private theorem serves_iff_of_tcacheGet
    (h : t.tcacheGet lib now statx request key findBase = (t', found))
    {key' : Text} {findBase' : Bool} :
    Serves lib now statx request t' key' findBase' id ↔
      Serves lib now statx request t key' findBase' id := by
  have hg := getMatch_of_tcacheGet h
  have hw := (getMatch_spec hg).1
  constructor
  · exact fun hs => hs.transfer (hw.subset id hs.mem) hw.store_eq.symm
  · intro hs
    exact hs.transfer (getMatchLoop_keeps hg id hs.mem hs.valid) hw.store_eq

private theorem serves_of_tcacheGet
    (h : t.tcacheGet lib now statx request key findBase = (t', some id)) :
    Serves lib now statx request t key findBase id := by
  obtain ⟨hme, hke, hv, hma⟩ := (getMatch_spec (getMatch_of_tcacheGet h)).2 id rfl
  exact ⟨hme, hke, hv, hma⟩

private theorem not_serves_of_tcacheGet
    (h : t.tcacheGet lib now statx request key findBase = (t', none)) (id : Nat) :
    ¬Serves lib now statx request t key findBase id := by
  intro hs
  have hno := getMatchLoop_none (getMatch_of_tcacheGet h) id hs.mem hs.key_eq hs.valid
  rw [hs.matches'] at hno
  cases hno

private theorem tcacheLookupLoop_some {p : List Nat} : ∀ {t : Tcache},
    (tcacheLookupLoop lib now statx request key p t).2 = some id →
    ∃ before slash after, p = before ++ slash :: after ∧
      Serves lib now statx request t (key.take (slash + 1)) true id ∧
      ∀ i ∈ before, ∀ x, ¬Serves lib now statx request t (key.take (i + 1)) true x := by
  induction p with
  | nil =>
    intro t h
    cases h
  | cons slash p ih =>
    intro t h
    rw [tcacheLookupLoop] at h
    split at h
    next t' id' he =>
      cases h
      exact ⟨[], slash, p, rfl, serves_of_tcacheGet he, fun i hi => absurd hi not_mem_nil⟩
    next t' he =>
      obtain ⟨before, slash', after, hpo, hse, hb⟩ := ih h
      simp only [serves_iff_of_tcacheGet he] at hse hb
      refine ⟨slash :: before, slash', after, by rw [hpo]; rfl, hse, fun i hi => ?_⟩
      rcases mem_cons.mp hi with rfl | hi
      · exact not_serves_of_tcacheGet he
      · exact hb i hi

private theorem tcacheLookupLoop_none {p : List Nat} : ∀ {t : Tcache},
    (tcacheLookupLoop lib now statx request key p t).2 = none →
    ∀ i ∈ p, ∀ x, ¬Serves lib now statx request t (key.take (i + 1)) true x := by
  induction p with
  | nil =>
    intro t _ i hi
    exact absurd hi not_mem_nil
  | cons slash p ih =>
    intro t h
    rw [tcacheLookupLoop] at h
    split at h
    · cases h
    next t' he =>
      have hr := ih h
      simp only [serves_iff_of_tcacheGet he] at hr
      intro i hi
      rcases mem_cons.mp hi with rfl | hi
      · exact not_serves_of_tcacheGet he
      · exact hr i hi

/-- What a lookup finds: an item under the whole key if there is one, and otherwise one under the
longest piece that ends with a slash. -/
inductive Finds (lib : TranslationLib) (now : Nat) (statx : Text → Statx)
    (request : TranslateRequest) (t : Tcache) (key : Text) : Option Nat → Prop where
  | exact {id : Nat} (h : Serves lib now statx request t key false id) :
      Finds lib now statx request t key (some id)
  | base {id slash : Nat} (hno : ∀ id, ¬Serves lib now statx request t key false id)
      (h : Serves lib now statx request t (key.take (slash + 1)) true id)
      (hlongest : ∀ i ∈ slashes key, slash < i →
        ∀ id, ¬Serves lib now statx request t (key.take (i + 1)) true id) :
      Finds lib now statx request t key (some id)
  | nothing (hno : ∀ id, ¬Serves lib now statx request t key false id)
      (hnobase : ∀ i ∈ slashes key, ∀ id,
        ¬Serves lib now statx request t (key.take (i + 1)) true id) :
      Finds lib now statx request t key none

private theorem finds_tcacheLookup (hu : request.uri.isNone = false) :
    Finds lib now statx request t key (t.tcacheLookup lib now statx request key).2 := by
  unfold tcacheLookup
  split
  next t' id he => exact .exact (serves_of_tcacheGet he)
  next t' he =>
    have hno := not_serves_of_tcacheGet he
    rw [if_neg (by rw [hu]; exact Bool.false_ne_true)]
    cases hfo : (tcacheLookupLoop lib now statx request key (slashes key) t').2 with
    | none =>
      have hn := tcacheLookupLoop_none hfo
      simp only [serves_iff_of_tcacheGet he] at hn
      exact .nothing hno hn
    | some id =>
      obtain ⟨before, slash, after, hpo, hse, hb⟩ := tcacheLookupLoop_some hfo
      simp only [serves_iff_of_tcacheGet he] at hse hb
      refine .base hno hse fun i hi hlt => ?_
      -- the positions come from the right, so a greater one has been tried before
      have hso := pairwise_slashes key
      rw [hpo] at hi hso
      rcases mem_append.mp hi with hi | hi
      · exact hb i hi
      · rcases mem_cons.mp hi with rfl | hi
        · omega
        · have hg := (pairwise_cons.mp (pairwise_append.mp hso).2.1).1 i hi
          omega

end

end Tcache

namespace Tcache

open Cache (Within)

private theorem within_tcacheGet (lib : TranslationLib) (t : Tcache) (now : Nat)
    (statx : Text → Statx)
    (request : TranslateRequest) (key : Text) (findBase : Bool) :
    Within t.cache (t.tcacheGet lib now statx request key findBase).1.cache := by
  unfold tcacheGet
  generalize hg : t.cache.getMatch now (tcacheValidateMtime statx) key
    (tcacheItemMatch lib request findBase) = r
  exact (getMatch_spec hg).1

private theorem within_sendRequest (lib : TranslationLib) (t : Tcache) (now : Nat)
    (statx : Text → Statx)
    (request : TranslateRequest) :
    Within t.cache (t.sendRequest lib now statx request).cache :=
  sendRequest_keeps (P := fun t' => Within t.cache t'.cache)
    (fun t' key findBase h => h.trans (within_tcacheGet lib t' now statx request key findBase))
    (.refl t.cache)

private theorem within_disposeKeyIf (t : Tcache) (i : List Nat) (p : Item → Bool) :
    Within t.cache (t.disposeKeyIf i p).cache := by
  unfold disposeKeyIf
  generalize i.filter (fun id => p (t.cache.store id)) = ids
  induction ids generalizing t with
  | nil => exact .refl t.cache
  | cons id ids ih => exact (within_remove t.cache id).trans (ih (t.dispose id))

private theorem within_invalidate (t : Tcache) (request : TranslateRequest)
    (vary : List TranslationCommand) (site : Option Text) :
    Within t.cache (t.invalidate request vary site).cache := by
  unfold invalidate
  split
  · exact within_disposeKeyIf t _ _
  · split
    · exact within_disposeKeyIf t _ _
    · exact within_removeIf _ _ t.cache

end Tcache

/-- The event is a response that is put into the cache as this item, for a request and with a
`BASE`. -/
def Event.Stores (lib : TranslationLib) (e : Event) (r : TranslateRequest) (base : Text)
    (item : Item) : Prop :=
  ∃ now statx key cacheable response stored, e = .response now statx r key cacheable response ∧
    lib.cacheStore response r.uri = some stored ∧ stored.base = some base ∧
    item = newItem lib now r key response stored

/-- Every item with a `BASE` comes from one of the events. -/
def Tcache.Traced (lib : TranslationLib) (events : List Event) (t : Tcache) : Prop :=
  ∀ id ∈ t.cache.items, ∀ base, (t.cache.store id).data.response.base = some base →
    ∃ e ∈ events, ∃ r, e.Stores lib r base (t.cache.store id)

namespace Tcache.Traced

variable {lib : TranslationLib} {events : List Event} {t t' : Tcache}

section

variable (h : t.Traced lib events)
include h

private theorem within (hw : Cache.Within t.cache t'.cache) : t'.Traced lib events := by
  intro id hid base hb
  rw [hw.store_eq] at hb ⊢
  exact h id (hw.subset id hid) base hb

private theorem more (e : Event) : t.Traced lib (events ++ [e]) := by
  intro id hid base hb
  obtain ⟨e', he', hst⟩ := h id hid base hb
  exact ⟨e', mem_append_left _ he', hst⟩

private theorem tcacheStore {now : Nat} {statx : Text → Statx}
    {request : TranslateRequest} {key : Text} {re : TranslateResponse} (c : Bool)
    (hst : t.tcacheStore lib now statx request key re = some t') :
    t'.Traced lib (events ++ [.response now statx request key c re]) := by
  unfold Tcache.tcacheStore at hst
  split at hst
  · cases hst
    exact h.more _
  next stored hs =>
    split at hst
    · cases hst
      exact h.more _
    obtain ⟨r, hpu, he⟩ := map_eq_some_iff.mp hst
    cases he
    intro id hid base hb
    rcases withNew_putMatch hpu id hid with hn | ⟨ho, hsa⟩
    · have hi : ((t.link re).withCache r.1).cache.store id =
          newItem lib now request key re stored := hn
      rw [hi] at hb ⊢
      exact ⟨_, mem_concat_self, request, now, statx, key, c,
        re, stored, rfl, hs, hb, rfl⟩
    · have hi : ((t.link re).withCache r.1).cache.store id = t.cache.store id := hsa
      rw [hi] at hb ⊢
      exact h.more _ id ho base hb

private theorem step {e : Event} (hst : t.step lib e = some t') : t'.Traced lib
    (events ++ [e]) := by
  cases e with
  | sendRequest now statx request =>
    cases hst
    exact (h.within (within_sendRequest lib t now statx request)).more _
  | response now statx request key cacheable response =>
    have hac : { t with active := true }.Traced lib events := h
    unfold Tcache.step onTranslateResponse at hst
    simp only at hst
    have hi : (if response.invalidate.isEmpty then { t with active := true }
        else invalidate { t with active := true } request response.invalidate
          none).Traced lib events := by
      split
      · exact hac
      · exact hac.within (within_invalidate _ request response.invalidate none)
    split at hst
    · exact hi.tcacheStore cacheable hst
    · cases hst
      exact hi.more _
  | invalidate request vary site =>
    cases hst
    exact (h.within (within_invalidate t request vary site)).more _
  | flush | expire now =>
    cases hst
    exact Traced.more (h.within (within_removeIf _ _ t.cache)) _

end

private theorem run {m : Nat} {ha : Bool}
    (h : Run (Tcache.Step lib) (.new m ha) events t) :
    t.Traced lib events := by
  induction h with
  | nil => exact fun id hid => absurd hid not_mem_nil
  | snoc _ hst ih => exact ih.step hst

end Tcache.Traced

/-- `TranslateResponse::CacheStore()` and the parser of translation responses: a `BASE` begins and
ends with a slash. -/
def TranslationLib.SlashedBases (lib : TranslationLib) : Prop :=
  ∀ response uri stored base, lib.cacheStore response uri = some stored →
    stored.base = some base → base.head? = some 0x2f ∧ base.getLast? = some 0x2f

/-- The request is looked up under the key of its URI. -/
structure TranslateRequest.ByUri (r : TranslateRequest) (uri : Text) : Prop where
  uri_eq : r.uri = some uri
  contentTypeLookup : tcacheIsContentTypeLookup r = false
  chain : r.chain = none
  mountListenStream : r.mountListenStream = none

/-- What stands before the URI in the key of a request. -/
def beforeUri (lib : UriEscape) (r : TranslateRequest) : Text := (keyParts lib r).flatten

/-- The key of `r` cannot be mistaken for one of `stored` with a `BASE`: if it begins with what
stands before the URI there, and a slash, then the same stands before the URI here. -/
def TranslateRequest.Apart (lib : UriEscape) (stored r : TranslateRequest) (uri : Text) : Prop :=
  beforeUri lib stored ++ [0x2f] <+: tcacheUriKey lib uri r → beforeUri lib stored = beforeUri lib r

/-- The components that are not escaped have no slash. -/
structure TranslateRequest.Slashless (r : TranslateRequest) : Prop where
  probeSuffix : ∀ suffix ∈ r.probeSuffix, 0x2f ∉ suffix
  layoutItem : 0x2f ∉ layoutItemPart r.layoutItem
  checkHeader : ∀ value ∈ r.checkHeader, 0x2f ∉ value
  host : ∀ host ∈ r.host, 0x2f ∉ host

section

variable {lib : UriEscape}

private theorem slash_not_mem_escape (value : Text) : 0x2f ∉ lib.escape value := by
  intro h
  exact absurd (lib.isEscaped_of_mem h) (by decide)

private theorem slash_not_mem_markedPart {mark : Text} (hm : 0x2f ∉ mark)
    (value : Option Text) : 0x2f ∉ markedPart lib mark value := by
  cases value with
  | none => exact not_mem_nil
  | some value =>
    rw [markedPart, mem_append, not_or]
    exact ⟨slash_not_mem_escape value, hm⟩

private theorem slash_not_mem_introducedPart {mark : Text} (hm : 0x2f ∉ mark)
    (value : Option Text) : 0x2f ∉ introducedPart lib mark value := by
  cases value with
  | none => exact not_mem_nil
  | some value =>
    rw [introducedPart, mem_append, not_or]
    exact ⟨hm, slash_not_mem_escape value⟩

private theorem slash_not_mem_flagPart {mark : Text} (hm : 0x2f ∉ mark) (flag : Bool) :
    0x2f ∉ flagPart mark flag := by
  cases flag with
  | false => exact not_mem_nil
  | true => exact hm

variable {r : TranslateRequest}

private theorem slash_not_mem_probePart (h : r.Slashless) :
    0x2f ∉ probePart lib r := by
  unfold probePart
  split
  · exact not_mem_nil
  next value _ =>
    rw [mem_append, mem_append, not_or, not_or]
    refine ⟨⟨slash_not_mem_escape value, by decide⟩, ?_⟩
    cases hs : r.probeSuffix with
    | none => exact not_mem_nil
    | some suffix =>
      rw [elim_some, mem_append, mem_append, not_or, not_or]
      exact ⟨⟨by decide, h.probeSuffix suffix hs⟩, by decide⟩

private theorem slash_not_mem_layoutPart (h : r.Slashless) :
    0x2f ∉ layoutPart lib r := by
  unfold layoutPart
  split
  · exact not_mem_nil
  next value _ =>
    rw [mem_append, mem_append, not_or, not_or]
    exact ⟨⟨slash_not_mem_escape value, h.layoutItem⟩, by decide⟩

private theorem slash_not_mem_rawParts (h : r.Slashless) :
    0x2f ∉ checkHeaderPart r.checkHeader ∧ 0x2f ∉ hostPart r.host := by
  constructor
  · cases hc : r.checkHeader with
    | none => exact not_mem_nil
    | some value =>
      rw [checkHeaderPart, elim_some, mem_append, not_or]
      exact ⟨by decide, h.checkHeader value hc⟩
  · cases hh : r.host with
    | none => exact not_mem_nil
    | some host =>
      rw [hostPart, elim_some, mem_append, not_or]
      exact ⟨h.host host hh, by decide⟩

/-- Without a slash in the other components, the first one in the key belongs to the URI. -/
theorem slash_not_mem_beforeUri (h : r.Slashless) :
    0x2f ∉ beforeUri lib r := by
  have hra := slash_not_mem_rawParts h
  have hs : 0x2f ∉ statusPart r.status := fun hme => (mem_statusPart hme).2.1 rfl
  rw [beforeUri, mem_flatten]
  rintro ⟨part, hpa, hme⟩
  revert hme
  unfold keyParts at hpa
  simp only [mem_cons, not_mem_nil, or_false] at hpa
  rcases hpa with rfl | rfl | rfl | rfl | rfl | rfl | rfl | rfl | rfl | rfl | rfl | rfl
  · exact slash_not_mem_markedPart (by decide) r.readFile
  · exact slash_not_mem_markedPart (by decide) r.directoryIndex
  · exact slash_not_mem_markedPart (by decide) r.fileNotFound
  · exact slash_not_mem_probePart h
  · exact slash_not_mem_flagPart (by decide) r.pathExists
  · exact slash_not_mem_flagPart (by decide) (!r.want.isEmpty)
  · exact slash_not_mem_introducedPart (by decide) r.wantFullUri
  · exact slash_not_mem_layoutPart h
  · exact slash_not_mem_introducedPart (by decide) r.check
  · exact hra.1
  · exact hra.2
  · exact hs

private theorem apart_of_slashless {s : TranslateRequest} {uri : Text}
    (hst : s.Slashless) (hr : r.Slashless) (hu : uri.head? = some 0x2f) :
    s.Apart lib r uri := by
  intro hpr
  obtain ⟨rest, hre⟩ := hpr
  cases uri with
  | nil => cases hu
  | cons c uri =>
    cases hu
    rw [append_assoc] at hre
    have hsl : ∀ {r : TranslateRequest}, r.Slashless →
        ∀ c ∈ beforeUri lib r, (c != 0x2f) = true := by
      intro r hr c hc
      rw [bne_iff_ne]
      rintro rfl
      exact slash_not_mem_beforeUri hr hc
    exact (append_cons_inj (hsl hst) (hsl hr) (by decide) (by decide) hre).1

end

section

variable {lib : TranslationLib}

theorem tcacheRequestKey_of_byUri {lib : UriEscape} {r : TranslateRequest} {uri : Text}
    (h : r.ByUri uri) : tcacheRequestKey lib r = some (tcacheUriKey lib uri r) := by
  unfold tcacheRequestKey
  rw [h.contentTypeLookup, h.chain, h.mountListenStream, h.uri_eq]
  rfl

private theorem base_isPrefix {s r : TranslateRequest} {uri base p : Text}
    (hap : s.Apart lib.toUriEscape r uri) (hh : base.head? = some 0x2f)
    (hke : tcacheUriKey lib.toUriEscape base s = p)
    (hpi : p <+: tcacheUriKey lib.toUriEscape uri r) :
    base <+: uri ∧ p = beforeUri lib.toUriEscape r ++ base := by
  have hc : base = [0x2f] ++ base.tail := by
    cases base with
    | nil => cases hh
    | cons c rest =>
      cases hh
      rfl
  have hsp : tcacheUriKey lib.toUriEscape base s =
      beforeUri lib.toUriEscape s ++ base := rfl
  have hsa : beforeUri lib.toUriEscape s = beforeUri lib.toUriEscape r := by
    apply hap
    rw [← hke, hsp, hc, ← append_assoc] at hpi
    exact (prefix_append _ _).trans hpi
  rw [hsp, hsa] at hke
  refine ⟨?_, hke.symm⟩
  rw [← hke] at hpi
  exact (prefix_append_right_inj (beforeUri lib.toUriEscape r)).mp hpi

theorem isSome_base_of_match {request : TranslateRequest} {item : Item}
    (h : tcacheItemMatch lib request true item = true) :
    item.data.response.base.isSome = true := by
  unfold tcacheItemMatch at h
  simp only at h
  split at h
  · cases h
  next hba =>
    cases hb : item.data.response.base with
    | none =>
      rw [hb] at hba
      exact absurd rfl hba
    | some base => rfl

theorem match_of_match_base {request : TranslateRequest} {item : Item}
    (h : tcacheItemMatch lib request true item = true) :
    tcacheItemMatch lib request false item = true := by
  unfold tcacheItemMatch at h ⊢
  simp only at h ⊢
  split at h
  · cases h
  · rw [if_neg (by simp)]
    exact h

/-- The item was stored with this `BASE` for a request that differs only in its URI. It is in the
cache and valid, and the request passes its checks. -/
structure Tcache.Candidate (lib : TranslationLib) (events : List Event) (now : Nat)
    (statx : Text → Statx) (r : TranslateRequest) (uri : Text) (t : Tcache) (id : Nat)
    (base : Text) : Prop where
  mem : id ∈ t.cache.items
  valid : (t.cache.store id).validate now (tcacheValidateMtime statx) = true
  matches' : tcacheItemMatch lib r true (t.cache.store id) = true
  isPrefix : base <+: uri
  stored : ∃ e ∈ events, ∃ r', e.Stores lib r' base (t.cache.store id) ∧
    r = { r' with uri := some uri }

variable {events : List Event} {now : Nat} {statx : Text → Statx} {r : TranslateRequest}
  {uri : Text} {t : Tcache}

private theorem Tcache.Candidate.serves (hli : lib.SlashedBases) {base : Text}
    (h : Candidate lib events now statx r uri t id base) :
    Serves lib now statx r t (tcacheUriKey lib.toUriEscape uri r) false id ∨
      ∃ i ∈ slashes (tcacheUriKey lib.toUriEscape uri r),
        Serves lib now statx r t ((tcacheUriKey lib.toUriEscape uri r).take (i + 1)) true id ∧
        i + 1 = (beforeUri lib.toUriEscape r).length + base.length := by
  obtain ⟨e, -, r', ⟨_, _, _, _, response, stored, -, hst, hb, ht⟩, hr⟩ := h.stored
  have hke : (t.cache.store id).key = beforeUri lib.toUriEscape r ++ base := by
    rw [ht, hr]
    show storeKey lib stored r' _ = _
    rw [storeKey, hb]
    rfl
  by_cases hw : base = uri
  · left
    refine ⟨h.mem, ?_, h.valid, match_of_match_base h.matches'⟩
    rw [hke, hw]
    rfl
  right
  have hsl := (hli response r'.uri stored base hst hb).2
  have hla : (beforeUri lib.toUriEscape r ++ base).getLast? = some 0x2f := by
    rw [getLast?_append, hsl]
    rfl
  have hne : beforeUri lib.toUriEscape r ++ base ≠ tcacheUriKey lib.toUriEscape uri r :=
    fun he => hw (append_cancel_left he)
  obtain ⟨i, hi, hpi, hle⟩ := exists_slash
    ((prefix_append_right_inj (beforeUri lib.toUriEscape r)).mpr h.isPrefix) hne hla
  refine ⟨i, hi, ⟨h.mem, ?_, h.valid, h.matches'⟩, ?_⟩
  · rw [hke]
    exact hpi.symm
  · rw [hle, length_append]

private theorem Tcache.Traced.base_isPrefix (ht : t.Traced lib events) (hli : lib.SlashedBases)
    (hap : ∀ e ∈ events, ∀ r' base item, e.Stores lib r' base item →
      r'.Apart lib.toUriEscape r uri) {p : Text} {findBase : Bool} {base : Text}
    (hse : Serves lib now statx r t p findBase id)
    (hpi : p <+: tcacheUriKey lib.toUriEscape uri r)
    (hb : (t.cache.store id).data.response.base = some base) :
    base <+: uri ∧ p = beforeUri lib.toUriEscape r ++ base := by
  obtain ⟨e, he, r', hst⟩ := ht id hse.mem base hb
  have hc := hap e he r' base _ hst
  obtain ⟨_, _, _, _, response, stored, -, hs, hsb, hi⟩ := hst
  have hh := (hli response r'.uri stored base hs hsb).1
  apply Translation.base_isPrefix hc hh _ hpi
  have hke := hse.key_eq
  rw [hi] at hke
  rw [← hke]
  show _ = storeKey lib stored r' _
  rw [storeKey, hsb]

/-- In every run, `tcache_lookup()` finds an item if there is one with a `BASE` that applies: one
under the exact key, or else one with the longest `BASE`. It never finds one with a `BASE` that does
not apply. -/
theorem tcacheLookup_longestBase (hli : lib.SlashedBases) {maxSize : Nat}
    {handshakeCacheable : Bool}
    (h : Run (Tcache.Step lib) (.new maxSize handshakeCacheable) events t) (hr : r.ByUri uri)
    (hap : ∀ e ∈ events, ∀ r' base item, e.Stores lib r' base item →
      r'.Apart lib.toUriEscape r uri) (now : Nat) (statx : Text → Statx) :
    ∃ key, tcacheRequestKey lib.toUriEscape r = some key ∧
      (∀ id base, Tcache.Candidate lib events now statx r uri t id base →
        ∃ found, (t.tcacheLookup lib now statx r key).2 = some found ∧
          ((∃ x, Tcache.Serves lib now statx r t key false x) →
            Tcache.Serves lib now statx r t key false found) ∧
          ((¬∃ x, Tcache.Serves lib now statx r t key false x) →
            ∃ longest, (t.cache.store found).data.response.base = some longest ∧ longest <+: uri ∧
              ∀ id' base', Tcache.Candidate lib events now statx r uri t id' base' →
                base'.length ≤ longest.length)) ∧
      ∀ found base, (t.tcacheLookup lib now statx r key).2 = some found →
        (t.cache.store found).data.response.base = some base → base <+: uri := by
  have ht := Tcache.Traced.run h
  have hfi := @finds_tcacheLookup lib now statx r t (tcacheUriKey lib.toUriEscape uri r)
    (by rw [hr.uri_eq]; rfl)
  refine ⟨_, tcacheRequestKey_of_byUri hr, fun id base hc => ?_, fun found base hfo hba => ?_⟩
  · generalize (t.tcacheLookup lib now statx r _).2 = result at hfi
    cases hfi with
    | exact hse => exact ⟨_, rfl, fun _ => hse, fun hno => absurd ⟨_, hse⟩ hno⟩
    | @base found slash hno hse hlongest =>
      refine ⟨found, rfl, fun hx => hx.elim fun x hx => absurd hx (hno x), fun _ => ?_⟩
      obtain ⟨longest, hb⟩ := isSome_iff_exists.mp (isSome_base_of_match hse.matches')
      obtain ⟨hpr, hpi⟩ := ht.base_isPrefix hli hap hse (List.take_prefix _ _) hb
      refine ⟨longest, hb, hpr, fun id' base' hc' => ?_⟩
      -- a longer one would have been found before
      obtain ⟨i, hi, hs', hle⟩ := (hc'.serves hli).resolve_left (hno id')
      by_contra hlt
      have hsize := congrArg length hpi
      rw [length_take, length_append] at hsize
      by_cases hsl : slash < i
      · exact hlongest i hi hsl id' hs'
      have hto := hpr.length_le
      have hke : (tcacheUriKey lib.toUriEscape uri r).length =
          (beforeUri lib.toUriEscape r).length + uri.length := length_append
      have hsh := hc'.isPrefix.length_le
      omega
    | nothing hno hnobase =>
      rcases hc.serves hli with hse | ⟨i, hi, hse, -⟩
      · exact absurd hse (hno id)
      · exact absurd hse (hnobase i hi id)
  · rw [hfo] at hfi
    cases hfi with
    | exact hse => exact (ht.base_isPrefix hli hap hse (prefix_refl _) hba).1
    | base hno hse hlongest => exact (ht.base_isPrefix hli hap hse (List.take_prefix _ _) hba).1

end

/-- The `BASE` begins and ends with a slash. -/
def isSlashed (base : Text) : Bool := base.head? == some 0x2f && base.getLast? == some 0x2f

/-- A library that forgets a `BASE` without slashes. -/
def slashedLib : TranslationLib :=
  { literalLib with
    cacheStore := fun r _ => some { r with base := r.base.filter isSlashed }
    cacheStore_site := fun h => by rw [← some_inj.mp h]
    cacheStore_vary := fun h => by rw [← some_inj.mp h] }

private theorem slashedBases_slashedLib : slashedLib.SlashedBases := by
  intro response uri stored base hst hb
  have he := some_inj.mp hst
  rw [← he] at hb
  have hsl := (filter_eq_some_iff.mp hb).2
  rw [isSlashed, Bool.and_eq_true, beq_iff_eq, beq_iff_eq] at hsl
  exact hsl

/-- A request, with the value of the header `X` that is checked. -/
def checkedRequest (value uri : String) : TranslateRequest :=
  { uri := some (ascii uri), host := some (ascii "h")
    checkHeader := some (ascii "X:" ++ ascii value) }

/-- A response with `BASE=/a/` for a request without the header `X`. -/
def storeBaseEvent : Event :=
  .response 0 (fun _ => .error) (checkedRequest "" "/a/x") (ascii "|CH=X:h:/a/x") true
    { maxAge := 60, base := some (ascii "/a/") }

/-- The response is found for another file in that directory. -/
theorem tcacheLookup_findsBase :
    ∃ t, Run (Tcache.Step slashedLib) (.new 4 true) [storeBaseEvent] t ∧
      ∃ key found, tcacheRequestKey slashedLib.toUriEscape (checkedRequest "" "/a/y") = some key ∧
        (t.tcacheLookup slashedLib 1 (fun _ => .error) (checkedRequest "" "/a/y") key).2 =
          some found := by
  have hste : ((new 4 true).step slashedLib storeBaseEvent).any (fun t =>
      decide (0 ∈ t.cache.items ∧
        t.cache.store 0 = newItem slashedLib 0 (checkedRequest "" "/a/x")
          (ascii "|CH=X:h:/a/x") { maxAge := 60, base := some (ascii "/a/") }
          { maxAge := 60, base := some (ascii "/a/") })) = true := by
    decide +kernel
  obtain ⟨t, ht, hd⟩ := (any_eq_true _ _).mp hste
  obtain ⟨hme, hi⟩ := of_decide_eq_true hd
  have hru : Run (Tcache.Step slashedLib) (.new 4 true) [storeBaseEvent] t := .snoc .nil ht
  have hsl : ∀ uri, (checkedRequest "" uri).Slashless := by
    intro uri
    refine ⟨fun suffix hs => (by cases hs), not_mem_nil, fun value hv => ?_, fun host hh => ?_⟩
    · cases hv
      decide
    · cases hh
      decide
  have hap : ∀ e ∈ [storeBaseEvent], ∀ r' base item, e.Stores slashedLib r' base item →
      r'.Apart slashedLib.toUriEscape (checkedRequest "" "/a/y") (ascii "/a/y") := by
    intro e he r' base item hst
    rw [mem_singleton.mp he] at hst
    obtain ⟨_, _, _, _, _, _, heq, -⟩ := hst
    cases heq
    exact apart_of_slashless (hsl _) (hsl _) rfl
  obtain ⟨key, hke, hfi, -⟩ := tcacheLookup_longestBase slashedBases_slashedLib hru
    (r := checkedRequest "" "/a/y") ⟨rfl, rfl, rfl, rfl⟩ hap 1 (fun _ => .error)
  obtain ⟨found, hfo, -⟩ := hfi 0 (ascii "/a/")
    { mem := hme
      valid := by rw [hi]; decide +kernel
      matches' := by rw [hi]; decide +kernel
      isPrefix := by decide
      stored := by
        refine ⟨_, mem_cons_self, checkedRequest "" "/a/x", ?_, rfl⟩
        rw [hi]
        exact ⟨_, _, _, _, _, _, rfl, rfl, rfl, rfl⟩ }
  exact ⟨t, hru, key, found, hke, hfo⟩

/-- The header `X: h:/a/b` makes the response appear for a URI outside of its `BASE`. -/
theorem tcacheLookup_strayBase :
    slashedLib.SlashedBases ∧
    ∃ t, Run (Tcache.Step slashedLib) (.new 4 true) [storeBaseEvent] t ∧
      (checkedRequest "h:/a/b" "/c").ByUri (ascii "/c") ∧
      ∃ key found, tcacheRequestKey slashedLib.toUriEscape (checkedRequest "h:/a/b" "/c") =
          some key ∧
        (t.tcacheLookup slashedLib 1 (fun _ => .error) (checkedRequest "h:/a/b" "/c") key).2 =
          some found ∧
        (t.cache.store found).data.response.base = some (ascii "/a/") ∧
        ¬ascii "/a/" <+: ascii "/c" := by
  have hst : ((new 4 true).step slashedLib storeBaseEvent).any (fun t =>
      decide ((t.tcacheLookup slashedLib 1 (fun _ => .error) (checkedRequest "h:/a/b" "/c")
          (ascii "|CH=X:h:/a/bh:/c")).2 = some 0 ∧
        (t.cache.store 0).data.response.base = some (ascii "/a/"))) = true := by
    decide +kernel
  obtain ⟨t, ht, hd⟩ := (any_eq_true _ _).mp hst
  obtain ⟨hfo, hb⟩ := of_decide_eq_true hd
  exact ⟨slashedBases_slashedLib, t, .snoc .nil ht, ⟨rfl, rfl, rfl, rfl⟩, _, 0, by decide +kernel,
    hfo, hb, by decide⟩

end BengProxy.Translation
