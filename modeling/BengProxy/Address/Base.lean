import BengProxy.Address.Resource
import BengProxy.Uri.Compare
import BengProxy.Uri.Normalize

/-!
# Addresses below a base

Models how an address is stored without the part of the URI that is after the base, and how this
part of another URI is appended when the address is loaded: `src/ResourceAddress.cxx`, the kinds of
addresses and `src/uri/Base.cxx`. `UriUnescape()` is percent-decoding, and the path check
`uri_path_verify_paranoid()` is a parameter.
-/

namespace BengProxy.Address

open Base Text Uri ResourceAddress List Option

variable {a b : FileAddress} {tail : Text}

/-- `is_base`, `Base.cxx:47-51`. -/
def isBase (uri : Text) : Bool := uri.getLast? == some slash

/-- `base_tail`, `Base.cxx:10-20`. -/
def baseTail (uri base : Text) : Option Text :=
  if isBase base && base.isPrefixOf uri then some (uri.drop base.length) else .none

/-- `base_string`, `Base.cxx:32-45`. -/
def baseString (uri tail : Text) : Option Nat :=
  if uri.length = tail.length then
    if uri = tail then some 0 else .none
  else if tail.isSuffixOf uri && isBase (uri.take (uri.length - tail.length)) then
    some (uri.length - tail.length)
  else .none

/-- `FileAddress::SaveBase`, `src/file/Address.cxx:60-85`. -/
def FileAddress.saveBase (a : FileAddress) (suffix : Text) : Option FileAddress :=
  if a.base.isSome ∧ suffix = [] then if a.path = dot then some a else .none
  else
    match uriFindUnescapedSuffix a.path suffix with
    | .none => .none
    | some stop =>
      if a.base.isSome ∧ stop = 0 then some { a with path := dot }
      -- a base that the address has already is lost
      else some { a with path := dot, base := some (a.path.take stop), gzipped := .none }

/-- `FileAddress::LoadBase`, `src/file/Address.cxx:87-121`. -/
def FileAddress.loadBase (a : FileAddress) (suffix : Text) : Option FileAddress :=
  (unescaped suffix).map fun newPath =>
    let newPath := newPath.dropWhile (· = slash)
    { a with
      path := if newPath = [] then dot else newPath
      base := some (a.base.getD a.path) }

/-- `HttpAddress::SaveBase`, `src/http/Address.cxx:192-202`. -/
def HttpAddress.saveBase (a : HttpAddress) (suffix : Text) : Option HttpAddress :=
  (baseString a.path suffix).map fun length =>
    { a with path := a.path.take length, expandPath := false }

/-- `HttpAddress::LoadBase`, `src/http/Address.cxx:204-214`. -/
def HttpAddress.loadBase (a : HttpAddress) (suffix : Text) : HttpAddress :=
  { a with path := a.path ++ suffix, expandPath := false }

/-- `LhttpAddress::SaveBase`, `src/http/local/Address.cxx:137-145`. -/
def LhttpAddress.saveBase (a : LhttpAddress) (suffix : Text) : Option LhttpAddress :=
  (baseString a.uri suffix).map fun length => { a with uri := a.uri.take length }

/-- `LhttpAddress::LoadBase`, `src/http/local/Address.cxx:147-155`. -/
def LhttpAddress.loadBase (a : LhttpAddress) (suffix : Text) : LhttpAddress :=
  { a with uri := a.uri ++ suffix }

/-- `CgiAddress::GetPathInfo`, `src/cgi/Address.hxx:129-134`. -/
def CgiAddress.getPathInfo (a : CgiAddress) : Text := a.pathInfo.getD []

/-- `CgiAddress::SaveBase`, `src/cgi/Address.cxx:322-345`. -/
def CgiAddress.saveBase (a : CgiAddress) (suffix : Text) : Option CgiAddress := do
  let uriLength ← a.uri.elim (some 0) (uriFindUnescapedSuffix · suffix)
  let newPathInfoEnd ← uriFindUnescapedSuffix a.getPathInfo suffix
  return { a with
    uri := a.uri.map (·.take uriLength)
    pathInfo := some (a.getPathInfo.take newPathInfoEnd) }

/-- `CgiAddress::LoadBase`, `src/cgi/Address.cxx:347-362`. -/
def CgiAddress.loadBase (a : CgiAddress) (suffix : Text) : Option CgiAddress :=
  (unescaped suffix).map fun decoded =>
    { a with
      uri := a.uri.map (· ++ decoded)
      pathInfo := some (a.getPathInfo ++ decoded) }

variable (lib : HashLibrary)

/-- `CgiAddress::PostCacheStore`, `src/cgi/Address.cxx:54-62`, with `IsChildExpandable()`. -/
def CgiAddress.postCacheStore (a : CgiAddress) : CgiAddress :=
  if (a.action.isSome || !a.expandPath) && !(a.options.isExpandable || a.args.isExpandable) then
    { a with cachedChildId := some (a.getChildId lib) }
  else a

/-- `ResourceAddress::SaveBase`, `ResourceAddress.cxx:198-235`. -/
def ResourceAddress.saveBase (a : ResourceAddress) (suffix : Text) : Option ResourceAddress :=
  match a with
  | .none => .none
  | .pipe _ => .none
  | .cgi type a => (a.saveBase suffix).map (.cgi type)
  | .file a => (a.saveBase suffix).map .file
  | .http a => (a.saveBase suffix).map .http
  | .lhttp a => (a.saveBase suffix).map .lhttp

/-- `ResourceAddress::PostCacheStore`, `ResourceAddress.cxx:237-256`. -/
def ResourceAddress.postCacheStore (lib : HashLibrary) : ResourceAddress → ResourceAddress
  | .cgi type a => .cgi type (a.postCacheStore lib)
  | a => a

/-- `ResourceAddress::LoadBase`, `ResourceAddress.cxx:301-338`. It must not be called for the
types that cannot be stored below a base. -/
def ResourceAddress.loadBase (a : ResourceAddress) (suffix : Text) : Option ResourceAddress :=
  match a with
  | .none => .none
  | .pipe _ => .none
  | .cgi type a => (a.loadBase suffix).map (.cgi type)
  | .file a => (a.loadBase suffix).map .file
  | .http a => some (.http (a.loadBase suffix))
  | .lhttp a => some (.lhttp (a.loadBase suffix))

/-- `HttpMessageResponse`. -/
structure HttpMessageResponse where
  status : Nat
  message : String
  deriving DecidableEq, Repr

/-- `ResourceAddress::CacheStore`, `ResourceAddress.cxx:258-299`. -/
def cacheStore (src : ResourceAddress) (uri : Text) (base : Option Text)
    (easyBase expandable : Bool) : Except HttpMessageResponse ResourceAddress :=
  match base with
  | .none => .ok (src.postCacheStore lib)
  | some base =>
    match baseTail uri base with
    | .none => .error ⟨502, "Base mismatch"⟩
    | some tail =>
      if easyBase || expandable then .ok (src.postCacheStore lib)
      else if src = .none then .ok .none
      else
        match src.saveBase tail with
        | some a => .ok (a.postCacheStore lib)
        | .none => .error ⟨502, "Base mismatch"⟩

/-- `ResourceAddress::CacheLoad`, `ResourceAddress.cxx:340-364`. If the check would read outside
of the string, nothing is accepted. -/
def cacheLoad (verifyParanoid : Text → Bool) (src : ResourceAddress) (uri : Text)
    (base : Option Text) (unsafeBase expandable : Bool) :
    Except HttpMessageResponse ResourceAddress :=
  match base with
  | .none => .ok src
  | some base =>
    if expandable then .ok src
    else if !unsafeBase && !(cacheLoadVerified uri base).any verifyParanoid then
      .error ⟨400, "Malformed URI"⟩
    else if src = .none then .ok .none
    -- if the tail cannot be unescaped, it is ignored
    else .ok ((src.loadBase (normalized (uri.drop base.length))).getD src)

/-- The file that is named by an address: the base is put before the path,
`src/bp/FileHandler.cxx:432-433`, where `"."` is the base itself. -/
def FileAddress.location (a : FileAddress) : Text :=
  match a.base with
  | .none => a.path
  | some base => if a.path = dot then base else base ++ a.path

/-- The path, the URI and the path info of an address. -/
def ResourceAddress.names : ResourceAddress → Text × Option Text × Text
  | .none => ([], .none, [])
  | .file a => (a.location, .none, [])
  | .http a => (a.path, .none, [])
  | .lhttp a => (a.path, some a.uri, [])
  | .pipe a => (a.path, a.uri, a.getPathInfo)
  | .cgi _ a => (a.path, a.uri, a.getPathInfo)

/-- A stored address with a tail appended; missing if the tail must be unescaped and cannot be. -/
def ResourceAddress.appended (a : ResourceAddress) (tail : Text) : Option ResourceAddress :=
  match a with
  | .none => .none
  | .pipe _ => .none
  | .file a => (unescaped tail).map fun decoded =>
    .file { a with path := if decoded = [] then dot else decoded }
  | .http a => some (.http { a with path := a.path ++ tail })
  | .lhttp a => some (.lhttp { a with uri := a.uri ++ tail })
  | .cgi type a => (unescaped tail).map fun decoded =>
    .cgi type { a with
      uri := a.uri.map (· ++ decoded)
      pathInfo := some (a.getPathInfo ++ decoded) }

/-- A file address keeps its file: the tail is relative, and there is no base that is lost. -/
def FileAddress.Keeps (a : FileAddress) (tail : Text) : Prop :=
  ∃ decoded, unescaped tail = some decoded ∧ decoded.head? ≠ some slash ∧
    (tail = [] ∨ a.base.isSome = true ∧ a.path = decoded ∨ a.base.getD [] = [] ∧ decoded ≠ dot)

/-- The address survives being stored with this tail, and another tail can be appended. -/
def ResourceAddress.Survives (src : ResourceAddress) (tail t : Text) : Prop :=
  match src with
  | .file a => a.Keeps tail ∧ ∃ decoded, unescaped t = some decoded ∧ decoded.head? ≠ some slash
  | .cgi _ _ => (unescaped t).isSome = true
  | _ => True

variable (decoded : Text)

/-- What is put behind the base when a decoded tail is loaded. -/
def shown : Text :=
  let path := decoded.dropWhile (· = slash)
  if path = dot then [] else path

private theorem dropWhile_slash_eq_iff :
    decoded.dropWhile (· = slash) = decoded ↔ decoded.head? ≠ some slash := by
  cases decoded with
  | nil => simp
  | cons c decoded =>
    rw [head?_cons, Ne, some.injEq]
    by_cases hc : c = slash
    · rw [dropWhile_cons_of_pos (by simpa using hc)]
      refine ⟨fun h => ?_, fun h => absurd hc h⟩
      have hle := (dropWhile_suffix (p := (· = slash)) (l := decoded)).length_le
      rw [h, length_cons] at hle
      omega
    · rw [dropWhile_cons_of_neg (by simpa using hc)]
      exact ⟨fun _ => hc, fun _ => rfl⟩

private theorem length_shown_le : (shown decoded).length ≤ decoded.length := by
  rw [shown]
  split
  · exact Nat.zero_le _
  · exact (dropWhile_suffix _).length_le

private theorem shown_eq_iff :
    shown decoded = decoded ↔ decoded.head? ≠ some slash ∧ decoded ≠ dot := by
  rw [← dropWhile_slash_eq_iff, shown]
  by_cases hdo : decoded.dropWhile (· = slash) = dot
  · rw [hdo]
    refine ⟨fun h => ?_, fun h => absurd h.1.symm h.2⟩
    rw [← h] at hdo
    cases hdo
  · rw [if_neg hdo]
    exact ⟨fun h => ⟨h, fun hd => hdo (h.trans hd)⟩, And.left⟩

private theorem FileAddress.location_loadBase {base decoded : Text}
    (hb : a.base = some base) (hd : unescaped tail = some decoded) :
    ∃ b, a.loadBase tail = some b ∧ b.location = base ++ shown decoded := by
  rw [loadBase, hd, hb]
  refine ⟨_, rfl, ?_⟩
  simp only [location, getD_some, shown]
  by_cases hni : decoded.dropWhile (· = slash) = []
  · rw [if_pos hni, if_pos rfl, hni, if_neg (by decide), append_nil]
  · rw [if_neg hni]
    by_cases hdo : decoded.dropWhile (· = slash) = dot
    · rw [if_pos hdo, if_pos hdo, append_nil]
    · rw [if_neg hdo, if_neg hdo]

private theorem eq_nil_of_unescaped (h : unescaped tail = some []) : tail = [] := by
  cases hfi : uriFindUnescapedSuffix [] tail with
  | none =>
    have hz := (uriFindUnescapedSuffix_eq_some_iff [] tail 0).mpr ⟨[], [], h, rfl, rfl⟩
    rw [hfi] at hz
    cases hz
  | some k =>
    rw [uriFindUnescapedSuffix] at hfi
    cases hre : tail.reverse with
    | nil => exact reverse_eq_nil_iff.mp hre
    | cons c rest =>
      rw [hre] at hfi
      cases hfi

private theorem FileAddress.saveBase_cases (h : a.saveBase tail = some b) :
    (∃ base, a.base = some base ∧ tail = [] ∧ a.path = dot ∧ b = a) ∨
      (∃ base, a.base = some base ∧ unescaped tail = some a.path ∧ b = { a with path := dot }) ∨
      ∃ front decoded, unescaped tail = some decoded ∧ a.path = front ++ decoded ∧
        (a.base.isSome = true → front ≠ [] ∧ decoded ≠ []) ∧
        b = { a with path := dot, base := some front, gzipped := .none } := by
  rw [saveBase] at h
  split at h
  next he =>
    obtain ⟨base, hb⟩ := isSome_iff_exists.mp he.1
    split at h
    next hdo =>
      cases h
      exact .inl ⟨base, hb, he.2, hdo, rfl⟩
    · cases h
  next hne =>
    cases hfi : uriFindUnescapedSuffix a.path tail with
    | none =>
      rw [hfi] at h
      cases h
    | some stop =>
      simp only [hfi] at h
      obtain ⟨front, decoded, hd, hpa, rfl⟩ := (uriFindUnescapedSuffix_eq_some_iff _ _ _).mp hfi
      split at h
      next hz =>
        obtain ⟨base, hb⟩ := isSome_iff_exists.mp hz.1
        cases h
        rw [eq_nil_of_length_eq_zero hz.2] at hpa
        exact .inr (.inl ⟨base, hb, hpa ▸ hd, rfl⟩)
      next hn =>
        cases h
        refine .inr (.inr ⟨front, decoded, hd, hpa, fun hso => ⟨?_, ?_⟩, ?_⟩)
        · rintro rfl
          exact hn ⟨hso, rfl⟩
        · rintro rfl
          exact hne ⟨hso, eq_nil_of_unescaped hd⟩
        · rw [hpa, take_left]

private theorem FileAddress.location_eq_iff (h : a.saveBase tail = some b) :
    (∃ c, b.loadBase tail = some c ∧ c.location = a.location) ↔ a.Keeps tail := by
  have hlo {base decoded : Text} (hb : b.base = some base) (hde : unescaped tail = some decoded) :
      (∃ c, b.loadBase tail = some c ∧ c.location = a.location) ↔
        base ++ shown decoded = a.location := by
    obtain ⟨c, hc, hl⟩ := location_loadBase hb hde
    rw [hc, ← hl]
    simp only [some.injEq, exists_eq_left']
  have hke {decoded : Text} (hde : unescaped tail = some decoded) :
      a.Keeps tail ↔ decoded.head? ≠ some slash ∧
        (tail = [] ∨ a.base.isSome = true ∧ a.path = decoded ∨
          a.base.getD [] = [] ∧ decoded ≠ dot) := by
    rw [Keeps, hde]
    simp only [some.injEq, exists_eq_left']
  rcases saveBase_cases h with ⟨base, hb, rfl, hd, rfl⟩ | ⟨base, hb, hde, rfl⟩ |
    ⟨front, decoded, hde, hpa, hso, rfl⟩
  · have hni : unescaped [] = some [] := rfl
    rw [hlo hb hni, hke hni]
    simp [location, hb, hd, shown]
  · rw [hlo hb hde, hke hde, location]
    simp only [hb, isSome_some, true_or, or_true, and_true]
    by_cases hd : a.path = dot
    · rw [hd]
      exact ⟨fun _ => by decide, fun _ => append_nil base⟩
    · rw [if_neg hd, append_cancel_left_eq, shown_eq_iff]
      exact and_iff_left hd
  · rw [hlo rfl hde, hke hde]
    cases hb : a.base with
    | none =>
      have hd (ht : tail = []) : decoded ≠ dot := by
        subst ht
        cases hde
        decide
      rw [location, hb]
      simp only [hpa, append_cancel_left_eq, shown_eq_iff]
      constructor
      · exact fun hsh => ⟨hsh.1, .inr (.inr ⟨rfl, hsh.2⟩)⟩
      · rintro ⟨hh, ht | ⟨hn, -⟩ | ⟨-, hne⟩⟩
        · exact ⟨hh, hd ht⟩
        · cases hn
        · exact ⟨hh, hne⟩
    | some base =>
      obtain ⟨hfr, hne⟩ := hso (by rw [hb]; rfl)
      have hln : front.length ≠ 0 := fun hz => hfr (eq_nil_of_length_eq_zero hz)
      have hl' : decoded.length ≠ 0 := fun hz => hne (eq_nil_of_length_eq_zero hz)
      have hd : front ++ decoded ≠ dot := by
        intro hd
        have ho := congrArg List.length hd
        rw [length_append] at ho
        have : dot.length = 1 := rfl
        omega
      rw [location, hb]
      simp only [hpa, if_neg hd]
      constructor
      · intro he
        have hle := length_shown_le decoded
        have hlen := congrArg List.length he
        simp only [length_append] at hlen
        have hb' : base = [] := eq_nil_of_length_eq_zero (by omega)
        rw [hb', nil_append, append_cancel_left_eq, shown_eq_iff] at he
        exact ⟨he.1, .inr (.inr ⟨hb', he.2⟩)⟩
      · rintro ⟨hh, rfl | ⟨-, hse⟩ | ⟨rfl, hd'⟩⟩
        · cases hde
          exact absurd rfl hne
        · exact absurd (append_left_eq_self.mp hse) hfr
        · rw [nil_append, (shown_eq_iff decoded).mpr ⟨hh, hd'⟩]

private theorem FileAddress.loadBase_eq_iff {base t decoded : Text}
    (hb : b.base = some base) (hd : unescaped t = some decoded) :
    b.loadBase t = some { b with path := if decoded = [] then dot else decoded } ↔
      decoded.head? ≠ some slash := by
  have hlo : b.loadBase t = some { b with
      path := if decoded.dropWhile (· = slash) = [] then dot
        else decoded.dropWhile (· = slash) } := by
    have hsa : some (b.base.getD b.path) = b.base := by rw [hb, getD_some]
    rw [loadBase, hd, map_some, hsa]
  rw [hlo, some.injEq, FileAddress.mk.injEq, ← dropWhile_slash_eq_iff]
  simp only [and_true]
  constructor
  · intro h
    by_contra hne
    have hni : decoded ≠ [] := by
      rintro rfl
      exact hne rfl
    split at h
    · exact hne (by rw [← h]; rfl)
    · exact hne h
  · intro h
    rw [h]

private theorem take_of_baseString {uri : Text} {k : Nat} (h : baseString uri tail = some k) :
    uri.take k ++ tail = uri := by
  rw [baseString] at h
  split at h
  · split at h
    next he =>
      cases h
      rw [he, take_zero, nil_append]
    · cases h
  split at h
  next hsu =>
    cases h
    rw [Bool.and_eq_true, isSuffixOf_iff_suffix] at hsu
    obtain ⟨front, rfl⟩ := hsu.1
    rw [length_append, Nat.add_sub_cancel, take_left]
  · cases h

private theorem CgiAddress.loadBase_of_saveBase {a b : CgiAddress} (h : a.saveBase tail = some b) :
    ∃ decoded, unescaped tail = some decoded ∧ b.path = a.path ∧
      b.uri.map (· ++ decoded) = a.uri ∧ b.getPathInfo ++ decoded = a.getPathInfo := by
  rw [saveBase, bind_eq_bind, bind_eq_some_iff] at h
  obtain ⟨uriLength, hu, h⟩ := h
  rw [bind_eq_some_iff] at h
  obtain ⟨stop, hi, h⟩ := h
  cases h
  obtain ⟨front, decoded, hd, hpa, rfl⟩ := (uriFindUnescapedSuffix_eq_some_iff _ _ _).mp hi
  refine ⟨decoded, hd, rfl, ?_, ?_⟩
  · cases ha : a.uri with
    | none => rfl
    | some uri =>
      rw [ha] at hu
      obtain ⟨front', decoded', hd', rfl, rfl⟩ := (uriFindUnescapedSuffix_eq_some_iff _ _ _).mp hu
      cases hd.symm.trans hd'
      rw [map_some, map_some, take_left]
  · rw [getPathInfo, getD_some, hpa, take_left]

private theorem saveBase_of_cacheStore {lib : HashLibrary} {src s : ResourceAddress}
    {base : Text} (hsr : src ≠ .none)
    (h : cacheStore lib src (base ++ tail) (some base) false false = .ok s) :
    ∃ a, src.saveBase tail = some a ∧ s = a.postCacheStore lib := by
  rw [cacheStore, baseTail] at h
  simp only [Bool.or_self, Bool.false_eq_true, if_false, if_neg hsr, drop_left] at h
  split at h
  · cases h
  next tail' ht =>
    split at ht
    · cases ht
      split at h
      next a ha =>
        cases h
        exact ⟨a, ha, rfl⟩
      · cases h
    · cases ht

private theorem postCacheStore_ne_none {src a : ResourceAddress}
    (h : src.saveBase tail = some a) : a.postCacheStore lib ≠ .none := by
  intro hn
  cases a with
  | none => cases src <;> simp [saveBase] at h
  | file | http | lhttp | pipe | cgi => cases hn

private theorem cacheLoad_eq {v : Text → Bool} {s : ResourceAddress}
    {base : Text} {u : Bool} (hst : s ≠ .none)
    (ht : normalized tail = tail)
    (hac : (cacheLoadVerified (base ++ tail) base).any v = true) :
    cacheLoad v s (base ++ tail) (some base) u false =
      .ok ((s.loadBase tail).getD s) := by
  rw [cacheLoad]
  simp only [hac, Bool.not_true, Bool.and_false, Bool.false_eq_true, if_false,
    if_neg hst, drop_left, ht]

private theorem file_iff (t : Text) (h : a.saveBase tail = some b) :
    ((∃ c, (loadBase (.file b) tail).getD (.file b) = c ∧ c.names = (file a).names) ∧
      ∃ c, (loadBase (.file b) t).getD (.file b) = c ∧ (file b).appended t = some c) ↔
      ResourceAddress.Survives (.file a) tail t := by
  obtain ⟨base, hb⟩ : ∃ base, b.base = some base := by
    rcases FileAddress.saveBase_cases h with ⟨base, hb, -, -, rfl⟩ | ⟨base, hb, -, rfl⟩ |
      ⟨front, -, -, -, -, rfl⟩
    · exact ⟨base, hb⟩
    · exact ⟨base, hb⟩
    · exact ⟨front, rfl⟩
  obtain ⟨decoded, hd⟩ : ∃ decoded, unescaped tail = some decoded := by
    rcases FileAddress.saveBase_cases h with ⟨-, -, rfl, -⟩ | ⟨-, -, hd, -⟩ |
      ⟨-, decoded, hd, -⟩
    · exact ⟨[], rfl⟩
    · exact ⟨a.path, hd⟩
    · exact ⟨decoded, hd⟩
  apply and_congr
  · rw [← FileAddress.location_eq_iff h]
    obtain ⟨c, hc, -⟩ := FileAddress.location_loadBase hb hd
    simp [loadBase, hc, names]
  · cases hd' : unescaped t with
    | none => simp [appended, hd']
    | some decoded' =>
      simp only [appended, hd', some.injEq, exists_eq_left']
      rw [← FileAddress.loadBase_eq_iff hb hd']
      obtain ⟨c, hc, -⟩ := FileAddress.location_loadBase hb hd'
      simp only [loadBase, hc, map_some, getD_some, file.injEq, some.injEq]
      exact eq_comm

private theorem http_iff {a b : HttpAddress} (t : Text) (h : a.saveBase tail = some b) :
    (∃ c, (loadBase (.http b) tail).getD (.http b) = c ∧ c.names = (http a).names) ∧
      ∃ c, (loadBase (.http b) t).getD (.http b) = c ∧ (http b).appended t = some c := by
  obtain ⟨k, hk, rfl⟩ := map_eq_some_iff.mp h
  simp [loadBase, HttpAddress.loadBase, names, appended, take_of_baseString hk]

private theorem lhttp_iff {a b : LhttpAddress} (t : Text) (h : a.saveBase tail = some b) :
    (∃ c, (loadBase (.lhttp b) tail).getD (.lhttp b) = c ∧ c.names = (lhttp a).names) ∧
      ∃ c, (loadBase (.lhttp b) t).getD (.lhttp b) = c ∧ (lhttp b).appended t = some c := by
  obtain ⟨k, hk, rfl⟩ := map_eq_some_iff.mp h
  simp [loadBase, LhttpAddress.loadBase, appended, take_of_baseString hk]

private theorem cgi_iff {a b : CgiAddress} {type : CgiType} (lib : HashLibrary)
    (t : Text) (h : a.saveBase tail = some b) :
    ((∃ c, (loadBase (.cgi type (b.postCacheStore lib)) tail).getD
          (.cgi type (b.postCacheStore lib)) = c ∧
        c.names = (cgi type a).names) ∧
      ∃ c, (loadBase (.cgi type (b.postCacheStore lib)) t).getD
          (.cgi type (b.postCacheStore lib)) = c ∧
        (cgi type (b.postCacheStore lib)).appended t = some c) ↔
      (unescaped t).isSome = true := by
  obtain ⟨decoded, hd, hpa, hu, hi⟩ := CgiAddress.loadBase_of_saveBase h
  have hpo : (b.postCacheStore lib).path = b.path ∧ (b.postCacheStore lib).uri = b.uri ∧
      (b.postCacheStore lib).getPathInfo = b.getPathInfo := by
    rw [CgiAddress.postCacheStore]
    split
    all_goals exact ⟨rfl, rfl, rfl⟩
  constructor
  · rintro ⟨-, c, -, hap⟩
    rw [appended, map_eq_some_iff] at hap
    obtain ⟨decoded', hd', -⟩ := hap
    rw [hd', isSome_some]
  · intro hso
    obtain ⟨decoded', hd'⟩ := isSome_iff_exists.mp hso
    refine ⟨⟨_, rfl, ?_⟩, _, rfl, ?_⟩
    · simp only [loadBase, CgiAddress.loadBase, hd, map_some, getD_some, names, hpo, hpa, hu, hi]
      rw [CgiAddress.getPathInfo, getD_some]
    · simp only [loadBase, CgiAddress.loadBase, hd', map_some, getD_some, appended]

/-- An address that is stored with one tail is the same one after loading it with this tail, and
another tail is appended to it, exactly if nothing about the tails is lost in a file name, and the
other tail can be unescaped where this is necessary. -/
theorem cacheLoad_cacheStore_iff (verifyParanoid : Text → Bool)
    (unsafeBase : Bool) {src stored : ResourceAddress} {base tail t : Text} (hsr : src ≠ .none)
    (hsto : cacheStore lib src (base ++ tail) (some base) false false = .ok stored)
    (hta : normalized tail = tail)
    (hac : (cacheLoadVerified (base ++ tail) base).any verifyParanoid = true)
    (ht : normalized t = t)
    (ha' : (cacheLoadVerified (base ++ t) base).any verifyParanoid = true) :
    ((∃ loaded, cacheLoad verifyParanoid stored (base ++ tail) (some base) unsafeBase false =
          .ok loaded ∧ loaded.names = src.names) ∧
      ∃ loaded, cacheLoad verifyParanoid stored (base ++ t) (some base) unsafeBase false =
          .ok loaded ∧ stored.appended t = some loaded) ↔
      src.Survives tail t := by
  obtain ⟨a, ha, rfl⟩ := saveBase_of_cacheStore hsr hsto
  have hst := postCacheStore_ne_none lib ha
  rw [cacheLoad_eq hst hta hac, cacheLoad_eq hst ht ha']
  simp only [Except.ok.injEq]
  cases src with
  | none => exact absurd rfl hsr
  | pipe => cases ha
  | file src =>
    obtain ⟨b, hb, rfl⟩ := map_eq_some_iff.mp ha
    exact file_iff t hb
  | http src =>
    obtain ⟨b, hb, rfl⟩ := map_eq_some_iff.mp ha
    exact iff_true_intro (http_iff t hb)
  | lhttp src =>
    obtain ⟨b, hb, rfl⟩ := map_eq_some_iff.mp ha
    exact iff_true_intro (lhttp_iff t hb)
  | cgi type src =>
    obtain ⟨b, hb, rfl⟩ := map_eq_some_iff.mp ha
    exact cgi_iff lib t hb

/-- The file is found again below its directory, and so is another one. -/
theorem cacheLoad_cacheStore_bar : (∃ loaded, cacheLoad (fun _ => true)
          (.file { path := dot, base := some (ascii "/var/www/foo/") })
          (ascii "/x/" ++ ascii "bar.html") (some (ascii "/x/")) false false = .ok loaded ∧
        loaded.names = (file { path := ascii "/var/www/foo/bar.html" }).names) ∧
      ∃ loaded, cacheLoad (fun _ => true)
          (.file { path := dot, base := some (ascii "/var/www/foo/") })
          (ascii "/x/" ++ ascii "a%2eb") (some (ascii "/x/")) false false = .ok loaded ∧
        appended (.file { path := dot, base := some (ascii "/var/www/foo/") })
          (ascii "a%2eb") = some loaded := by
  have hsr : file { path := ascii "/var/www/foo/bar.html" } ≠ .none := by decide
  apply (cacheLoad_cacheStore_iff ⟨fun _ => 0, fun _ => id⟩ (fun _ => true) false hsr
    (by decide +kernel) (by decide +kernel) (by decide +kernel) (by decide +kernel)
    (by decide +kernel)).mpr
  have hb : unescaped (ascii "bar.html") = some (ascii "bar.html") := by decide +kernel
  have ho : unescaped (ascii "a%2eb") = some (ascii "a.b") := by decide +kernel
  exact ⟨⟨_, hb, by decide, .inr (.inr ⟨rfl, by decide⟩)⟩, _, ho, by decide⟩

/-- The address has a base and the tail is not all of its path: the base is lost. -/
theorem base_is_lost :
    cacheStore ⟨fun _ => 0, fun _ hash => hash⟩
        (.file { path := ascii "foo/bar.html", base := some (ascii "/var/www/") })
        (ascii "/x/bar.html") (some (ascii "/x/")) false false =
      .ok (.file { path := dot, base := some (ascii "foo/") }) ∧
    cacheLoad (fun _ => true) (.file { path := dot, base := some (ascii "foo/") })
        (ascii "/x/bar.html") (some (ascii "/x/")) false false =
      .ok (.file { path := ascii "bar.html", base := some (ascii "foo/") }) ∧
    (file { path := ascii "bar.html", base := some (ascii "foo/") }).names ≠
      (file
        { path := ascii "foo/bar.html", base := some (ascii "/var/www/") }).names :=
  ⟨by decide +kernel, by decide +kernel, by decide +kernel⟩

end BengProxy.Address
