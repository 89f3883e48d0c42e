import BengProxy.Address.Resource
import BengProxy.Base.Escape
import BengProxy.StringMap

/-!
# Keys of the filter cache

Models `filter_cache_request_evaluate()` in `src/http/cache/FilterCache.cxx`. A response of a filter
is stored under a key that consists of the id of what was filtered, the user and the id of the
filter, with a bar between them. A bar in one of the three strings is not escaped. The hash of the
key is the exclusive or of the three hashes, and so it does not depend on their order.
-/

namespace BengProxy.HttpCaching

open Base Text Address Option

/-- What a call of `FilterCache::Get` refers to, `FilterCache.cxx:788-799`. -/
structure FilterRequest where
  tag : Option Text := none
  address : ResourceAddress
  sourceId : Option StringWithHash
  headers : StringMap

/-- `FilterCacheInfo`, `FilterCache.cxx:62-83`, when it is new. -/
structure FilterCacheInfo where
  tag : Option Text
  key : StringWithHash
  deriving DecidableEq, Repr

section Key

variable (lib : HashLibrary) (l : Lookup)

/-- The `X-CM4all-BENG-User` header, `FilterCache.cxx:375-377`. -/
def FilterRequest.user (r : FilterRequest) : Text :=
  (r.headers.get l (ascii "x-cm4all-beng-user")).getD []

/-- The key of a request, `FilterCache.cxx:382-385`. -/
def filterKey (sourceId userId addressId : StringWithHash) : StringWithHash where
  value := sourceId.value ++ ascii "|" ++ userId.value ++ ascii "|" ++ addressId.value
  hash := sourceId.hash ^^^ userId.hash ^^^ addressId.hash

/-- `filter_cache_request_evaluate`, `FilterCache.cxx:363-388`; missing if the
response cannot be cached. -/
def filterCacheRequestEvaluate (r : FilterRequest) : Option FilterCacheInfo :=
  match r.sourceId with
  | none => none
  | some sourceId =>
    some
      { tag := r.tag
        key := filterKey sourceId (.of lib (r.user l)) (r.address.getId lib) }

end Key

/-- The number of bars in a string. -/
def bars (s : Text) : Nat := s.count 0x7c

/-- The three strings of a request. -/
def FilterRequest.parts (lib : HashLibrary) (l : Lookup) (r : FilterRequest) :
    Option Text × Text × Text :=
  (r.sourceId.map (·.value), r.user l, (r.address.getId lib).value)

private theorem value_filterKey (s u a : StringWithHash) :
    (filterKey s u a).value = s.value ++ 0x7c :: (u.value ++ 0x7c :: a.value) := by
  have hb : ascii "|" = [0x7c] := by decide
  simp [filterKey, hb]

private theorem filterKey_inj {s u a s' u' a' : StringWithHash}
    (h : filterKey s u a = filterKey s' u' a')
    (hs : bars s.value = bars s'.value) (hu : bars u.value = bars u'.value) :
    s.value = s'.value ∧ u.value = u'.value ∧ a.value = a'.value := by
  have hv := congrArg StringWithHash.value h
  rw [value_filterKey, value_filterKey] at hv
  have hfi := append_delimiter_inj hs hv
  exact ⟨hfi.1, append_delimiter_inj hu hfi.2⟩

/-- **The filter cache and its users.** Two requests with the same key have the same source, user
and filter if and only if the sources have the same number of bars, and the users, too. -/
theorem filterCache_same_parts_iff {lib : HashLibrary} {l : Lookup} {r r' : FilterRequest}
    {info info' : FilterCacheInfo} (h : filterCacheRequestEvaluate lib l r = some info)
    (h' : filterCacheRequestEvaluate lib l r' = some info') (hke : info.key = info'.key) :
    r.parts lib l = r'.parts lib l ↔
      r.sourceId.map (bars ·.value) = r'.sourceId.map (bars ·.value) ∧
        bars (r.user l) = bars (r'.user l) := by
  constructor
  · intro hpa
    have hso := congrArg (fun p : Option Text × Text × Text => p.1.map bars) hpa
    have hu := congrArg (fun p : Option Text × Text × Text => bars p.2.1) hpa
    simp only [FilterRequest.parts, map_map] at hso hu
    exact ⟨hso, hu⟩
  · intro hb
    obtain ⟨tag, address, sourceId, headers⟩ := r
    obtain ⟨tag', address', sourceId', headers'⟩ := r'
    cases sourceId with
    | none => cases h
    | some s =>
      cases sourceId' with
      | none => cases h'
      | some s' =>
        rw [← some.inj h, ← some.inj h'] at hke
        have hag := filterKey_inj hke (some.inj hb.1) hb.2
        show (some s.value, _, _) = (some s'.value, _, _)
        rw [hag.1, hag.2.2]
        exact congrArg (fun u => (some s'.value, u, _)) hag.2.1

/-- A request for a user, with the filter `/f`. -/
def filterRequest (lib : HashLibrary) (source user : String) : FilterRequest where
  address := .pipe { path := ascii "/f" }
  sourceId := some (.of lib (ascii source))
  headers := [(ascii "x-cm4all-beng-user", ascii user)]

/-- Two requests of one user for one source, with and without a tag. -/
theorem filterCache_same_parts_one_user :
    (filterRequest djbHash "a" "b").parts djbHash .first =
      { filterRequest djbHash "a" "b" with tag := some (ascii "t") }.parts djbHash .first := by
  have h : filterCacheRequestEvaluate djbHash .first (filterRequest djbHash "a" "b") =
      some ⟨none, ⟨ascii "a|b|/f", 1652⟩⟩ := by decide +kernel
  have h' : filterCacheRequestEvaluate djbHash .first
      { filterRequest djbHash "a" "b" with tag := some (ascii "t") } =
      some ⟨some (ascii "t"), ⟨ascii "a|b|/f", 1652⟩⟩ := by decide +kernel
  exact (filterCache_same_parts_iff h h' rfl).mpr ⟨rfl, rfl⟩

private theorem filterKey_exchanged (lib : HashLibrary) :
    filterCacheRequestEvaluate lib .first (filterRequest lib "a" "a|a") =
      filterCacheRequestEvaluate lib .first (filterRequest lib "a|a" "a") := by
  have hu (source user) : (filterRequest lib source user).user .first = ascii user := rfl
  show some (FilterCacheInfo.mk none (filterKey _ _ _)) = some (.mk none (filterKey _ _ _))
  rw [hu, hu, filterKey, filterKey, UInt64.xor_comm (StringWithHash.of lib (ascii "a")).hash]
  rfl

/-- The user `a|a` of the source `a` is taken for the user `a` of the source `a|a`. -/
theorem filterCache_confuses_users :
    filterCacheRequestEvaluate djbHash .first (filterRequest djbHash "a" "a|a") =
        filterCacheRequestEvaluate djbHash .first (filterRequest djbHash "a|a" "a") ∧
      (filterRequest djbHash "a" "a|a").user .first = ascii "a|a" ∧
      (filterRequest djbHash "a|a" "a").user .first = ascii "a" :=
  ⟨filterKey_exchanged djbHash, rfl, rfl⟩

end BengProxy.HttpCaching
