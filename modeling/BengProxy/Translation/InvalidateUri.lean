import Mathlib.Data.List.TakeWhile
import BengProxy.Translation.Lookup

/-!
# Invalidating a URI

An item does not know the URI of its request: `tcache_uri_match()` cuts it out of the key, at the
first slash. This says for which requests that finds the URI.
-/

namespace BengProxy.Translation

open Base Text List Option

section

variable (lib : UriEscape) {r : TranslateRequest}

private theorem TranslateRequest.Slashless.of_beforeUri (h : 0x2f ∉ beforeUri lib r) :
    r.Slashless := by
  have hpa {part : Text} (hme : part ∈ keyParts lib r) : 0x2f ∉ part :=
    fun hsl => h (mem_flatten.mpr ⟨part, hme, hsl⟩)
  have hpr : 0x2f ∉ probePart lib r := hpa (by simp [keyParts])
  have hla : 0x2f ∉ layoutPart lib r := hpa (by simp [keyParts])
  have hc : 0x2f ∉ checkHeaderPart r.checkHeader := hpa (by simp [keyParts])
  have hh : 0x2f ∉ hostPart r.host := hpa (by simp [keyParts])
  refine ⟨fun suffix hsu hsl => ?_, fun hsl => ?_, fun value hv hsl => ?_, fun host hh' hsl => ?_⟩
  · -- there is no suffix without the list
    cases hli : r.probePathSuffixes with
    | none =>
      rw [r.probeSuffix_none hli] at hsu
      cases hsu
    | some value =>
      apply hpr
      rw [probePart, hli, mem_def.mp hsu]
      simp [hsl]
  · -- there is no item without a layout
    cases hl' : r.layout with
    | none =>
      rw [r.layoutItem_none hl'] at hsl
      cases hsl
    | some value =>
      apply hla
      rw [layoutPart, hl']
      simp [hsl]
  · apply hc
    rw [checkHeaderPart, mem_def.mp hv]
    simp [hsl]
  · apply hh
    rw [hostPart, mem_def.mp hh']
    simp [hsl]

private theorem dropWhile_tcacheUriKey_iff (uri : Text) :
    (tcacheUriKey lib uri r).dropWhile (· != 0x2f) = uri ∧ uri ≠ [] ↔
      r.Slashless ∧ uri.head? = some 0x2f := by
  show (beforeUri lib r ++ uri).dropWhile (· != 0x2f) = uri ∧ uri ≠ [] ↔ _
  constructor
  · rintro ⟨hd, hne⟩
    obtain ⟨c, rest, rfl⟩ := exists_cons_of_ne_nil hne
    have hc : (c != 0x2f) = false := by
      have hh := head?_dropWhile_not (· != 0x2f) (beforeUri lib r ++ c :: rest)
      rw [hd] at hh
      simpa using hh
    have hb : ∀ x ∈ beforeUri lib r, (x != 0x2f) = true := by
      intro x hx
      by_contra hs
      -- the cut would be before what it leaves
      have hle := congrArg List.length hd
      rw [dropWhile_append, if_neg, length_append, Nat.add_eq_right,
        length_eq_zero_iff, dropWhile_eq_nil_iff] at hle
      · exact hs (hle x hx)
      · rw [List.isEmpty_iff, dropWhile_eq_nil_iff]
        exact fun hal => hs (hal x hx)
    refine ⟨TranslateRequest.Slashless.of_beforeUri lib fun hme => ?_, ?_⟩
    · exact absurd (hb 0x2f hme) (by decide)
    · rw [head?_cons, some_inj]
      simpa using hc
  · rintro ⟨hsl, hh⟩
    cases uri with
    | nil => cases hh
    | cons c rest =>
      cases hh
      refine ⟨dropWhile_append_cons (fun x hx => ?_) (by decide), cons_ne_nil _ _⟩
      rw [bne_iff_ne]
      rintro rfl
      exact slash_not_mem_beforeUri hsl hx

private theorem tcacheUriMatch_iff {key : Text} {b : Option Text} {s : Bool} :
    tcacheUriMatch key b s = true ↔
      (∃ uri, b = some uri ∧ key.dropWhile (· != 0x2f) = uri ∧ uri ≠ []) ∨
        b = none ∧ s = false := by
  cases b with
  | none => simp [tcacheUriMatch]
  | some b =>
    rw [tcacheUriMatch]
    cases hc : key.dropWhile (· != 0x2f) with
    | nil =>
      simp only [Bool.false_eq_true, some.injEq, reduceCtorEq, false_and, or_false, false_iff]
      rintro ⟨uri, -, rfl, hne⟩
      exact hne rfl
    | cons c rest =>
      simp only [beq_iff_eq, some.injEq, reduceCtorEq, false_and, or_false]
      constructor
      · rintro rfl
        exact ⟨_, rfl, rfl, cons_ne_nil c rest⟩
      · rintro ⟨uri, rfl, rfl, -⟩
        rfl

end

/-- An item that has been stored for a request without `BASE` matches exactly the requests with the
same URI, and `INVALIDATE=URI` removes it, exactly if the components of the key that are not escaped
have no slash and the URI begins with one. -/
theorem invalidate_uri_iff (lib : TranslationLib) (r : TranslateRequest) (uri : Text)
    (hur : r.uri = some uri) :
    ((∀ item : Item, item.key = tcacheUriKey lib.toUriEscape uri r → ∀ r2 strict,
        (varyMatchCommand item r2 .uri strict = true ↔
          r2.uri = r.uri ∨ r2.uri = none ∧ strict = false)) ∧
      ∀ maxSize handshakeCacheable events t,
        Run (Tcache.Step lib) (.new maxSize handshakeCacheable) events t →
        ∀ id ∈ t.cache.items, (t.cache.store id).key = tcacheUriKey lib.toUriEscape uri r →
        ∀ r2, r2.uri = r.uri → id ∉ (t.invalidate r2 [.uri] none).cache.items) ↔
      r.Slashless ∧ uri.head? = some 0x2f := by
  constructor
  · rintro ⟨hma, -⟩
    -- the request itself has to match
    have hse := (hma ⟨tcacheUriKey lib.toUriEscape uri r, 1, 0, ⟨{}, {}, none, none⟩⟩ rfl r
      true).mpr (.inl rfl)
    rw [varyMatchCommand, tcacheUriMatch_iff] at hse
    rcases hse with ⟨uri', hu', hc⟩ | ⟨hnon, -⟩
    · rw [hur] at hu'
      cases hu'
      exact (dropWhile_tcacheUriKey_iff _ uri).mp hc
    · rw [hur] at hnon
      cases hnon
  · intro hsl
    have hc := (dropWhile_tcacheUriKey_iff lib.toUriEscape uri).mpr hsl
    have hma (item : Item) (hke : item.key = tcacheUriKey lib.toUriEscape uri r)
        (r2 : TranslateRequest) (strict : Bool) : varyMatchCommand item r2 .uri strict = true ↔
          r2.uri = r.uri ∨ r2.uri = none ∧ strict = false := by
      rw [varyMatchCommand, tcacheUriMatch_iff, hke, hc.1, hur]
      apply or_congr_left
      constructor
      · rintro ⟨_, hu, rfl, -⟩
        exact hu
      · exact fun hu => ⟨uri, hu, rfl, hc.2⟩
    refine ⟨hma, fun maxSize handshakeCacheable events t hru id hid hke r2 hu hleft => ?_⟩
    have hno := (((Tcache.Inv.run hru).invalidate r2 [.uri] none).2.2 id).mp hleft
    have hy := (hma (t.cache.store id) hke r2 true).mpr (.inl hu)
    have hi : invalidateMatch (t.cache.store id) [.uri] r2 none = true := by
      simp [invalidateMatch, invalidateMatchVary, varyMatch, hy]
    rw [hi] at hno
    exact absurd hno.2 (by decide)

/-- A response for a request with a header that is checked is removed by another one without. -/
theorem invalidate_uri_checked :
    varyMatchCommand (Tcache.newItem literalLib 0 (checkedRequest "" "/a/x")
        (ascii "|CH=X:h:/a/x") { maxAge := 60 } { maxAge := 60 })
      { uri := some (ascii "/a/x") } .uri true = true := by
  have hsl : (checkedRequest "" "/a/x").Slashless := by
    refine ⟨fun suffix hs => (by cases hs), not_mem_nil, fun value hv => ?_, fun host hh => ?_⟩
    · cases hv
      decide
    · cases hh
      decide
  have hb := (invalidate_uri_iff literalLib (checkedRequest "" "/a/x") (ascii "/a/x") rfl).mpr
    ⟨hsl, rfl⟩
  exact (hb.1 _ (by decide) _ true).mpr (.inl rfl)

/-- A request with a layout; the item that has been chosen is a `BASE`. -/
def layoutRequest : TranslateRequest :=
  { uri := some (ascii "/foo/bar"), layout := some (ascii "l")
    layoutItem := some (.base (ascii "/foo/")) }

/-- The response for this request is stored. -/
def storeLayoutEvent : Event :=
  .response 0 (fun _ => .error) layoutRequest (ascii "l--/foo/=L|/foo/bar") true { maxAge := 60 }

/-- The response stays in the cache, even if the same request invalidates its URI. -/
theorem invalidate_uri_layout :
    tcacheRequestKey literalLib.toUriEscape layoutRequest = some (ascii "l--/foo/=L|/foo/bar") ∧
    ∃ t, Run (Tcache.Step literalLib) (.new 4 true) [storeLayoutEvent] t ∧
      (t.cache.store 0).key = tcacheUriKey literalLib.toUriEscape (ascii "/foo/bar") layoutRequest ∧
      varyMatchCommand (t.cache.store 0) layoutRequest .uri true = false ∧
      0 ∈ (t.invalidate layoutRequest [.uri] none).cache.items := by
  have hst : ((Tcache.new 4 true).step literalLib storeLayoutEvent).any (fun t =>
      decide ((t.cache.store 0).key =
          tcacheUriKey literalLib.toUriEscape (ascii "/foo/bar") layoutRequest ∧
        varyMatchCommand (t.cache.store 0) layoutRequest .uri true = false ∧
        0 ∈ (t.invalidate layoutRequest [.uri] none).cache.items)) = true := by
    decide +kernel
  obtain ⟨t, ht, hd⟩ := (any_eq_true _ _).mp hst
  exact ⟨by decide +kernel, t, .snoc .nil ht, of_decide_eq_true hd⟩

end BengProxy.Translation
