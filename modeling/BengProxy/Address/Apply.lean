import BengProxy.Address.Resource
import BengProxy.Uri.Edit

/-!
# Relative addresses

Models how a relative URI is applied to an address, and how an address is expressed relative to
another one: `src/ResourceAddress.cxx`, `src/http/Address.cxx`, `src/http/local/Address.cxx` and
`src/cgi/Address.cxx`. A call that must not happen has no result.
-/

namespace BengProxy.Address

open Base Text Uri

variable (lib : UriLib)

/-- `http_address_parse2`, `src/http/Address.cxx:73-93`. -/
def httpAddressParse2 (ssl : Bool) (uri : Text) : Option HttpAddress :=
  match cut 0x2f uri with
  | some (host, rest) =>
    if host = [] ∨ lib.pathVerifyQuick (ascii "/" ++ rest) = false then .none
    else some { ssl := ssl, hostAndPort := some host, path := ascii "/" ++ rest }
  | .none => some { ssl := ssl, hostAndPort := some uri, path := ascii "/" }

/-- `http_address_parse`, `src/http/Address.cxx:95-108`. -/
def httpAddressParse (uri : Text) : Option HttpAddress :=
  if (ascii "http://").isPrefixOf uri then httpAddressParse2 lib false (uri.drop 7)
  else if (ascii "https://").isPrefixOf uri then httpAddressParse2 lib true (uri.drop 8)
  else if (ascii "unix:/").isPrefixOf uri then some { path := uri.drop 5 }
  else .none

/-- `HttpAddress::Apply`, `src/http/Address.cxx:216-246`. -/
def HttpAddress.apply (a : HttpAddress) (relative : Text) : Option HttpAddress :=
  if lib.hasScheme relative then
    match httpAddressParse lib relative with
    | .none => .none
    | some other =>
      -- the address list cannot be applied to a different host
      if a.hostAndPort.getD [] ≠ other.hostAndPort.getD [] then .none
      else some { other with addresses := a.addresses }
  else some { a with path := uriAbsolute lib a.path relative }

/-- `HttpAddress::RelativeTo`, `src/http/Address.cxx:248-260`. -/
def HttpAddress.relativeTo (a base : HttpAddress) : Option Text :=
  if a.hostAndPort.getD [] ≠ base.hostAndPort.getD [] then .none
  else uriRelative lib base.path a.path

/-- `ApplyUri`, `src/http/local/Address.cxx:157-169`. -/
def applyUri (baseUri relative : Text) : Option Text :=
  if relative = [] then some baseUri
  else if lib.hasAuthority relative then .none
  else some (uriAbsolute lib baseUri relative)

/-- `LhttpAddress::Apply`, `src/http/local/Address.cxx:171-179`. -/
def LhttpAddress.apply (a : LhttpAddress) (relative : Text) : Option LhttpAddress :=
  (applyUri lib a.uri relative).map fun uri => { a with uri := uri }

/-- `LhttpAddress::RelativeTo`, `src/http/local/Address.cxx:181-188`. -/
def LhttpAddress.relativeTo (a base : LhttpAddress) : Option Text :=
  if a.path ≠ base.path then .none else uriRelative lib base.uri a.uri

/-- `LhttpAddress::RelativeToApplied`, `src/http/local/Address.cxx:190-203`: the applied URI is
returned as it is. -/
def LhttpAddress.relativeToApplied (a applyBase : LhttpAddress) (relative : Text) : Option Text :=
  if a.path ≠ applyBase.path then .none else applyUri lib applyBase.uri relative

/-- `UnescapeApplyPathInfo`, `src/cgi/Address.cxx:364-389`. -/
def unescapeApplyPathInfo (basePathInfo : Option Text) (relativeEscaped : Text) : Option Text :=
  let basePathInfo := basePathInfo.getD []
  if relativeEscaped = [] then some basePathInfo
  else if lib.hasAuthority relativeEscaped then .none
  else (lib.unescape relativeEscaped).map (uriAbsolute lib basePathInfo)

/-- `CgiAddress::Apply`, `src/cgi/Address.cxx:391-403`. -/
def CgiAddress.apply (a : CgiAddress) (relative : Text) : Option CgiAddress :=
  (unescapeApplyPathInfo lib a.pathInfo relative).map fun info => { a with pathInfo := some info }

/-- `CgiAddress::RelativeTo`, `src/cgi/Address.cxx:405-415`. -/
def CgiAddress.relativeTo (a base : CgiAddress) : Option Text :=
  if a.path ≠ base.path then .none
  else
    match base.pathInfo, a.pathInfo with
    | some baseInfo, some info => uriRelative lib baseInfo info
    | _, _ => .none

/-- `CgiAddress::RelativeToApplied`, `src/cgi/Address.cxx:417-434`. -/
def CgiAddress.relativeToApplied (a applyBase : CgiAddress) (relative : Text) : Option Text :=
  if a.path ≠ applyBase.path then .none
  else
    match a.pathInfo with
    | .none => .none
    | some info =>
      (unescapeApplyPathInfo lib applyBase.pathInfo relative).bind (uriRelative lib info)

/-- `ResourceAddress::IsHttp`, `src/ResourceAddress.hxx`. -/
def ResourceAddress.isHttp : ResourceAddress → Bool
  | .http _ => true
  | _ => false

/-- `ResourceAddress::WithPath`, `ResourceAddress.cxx:69-89`. It must not be called for other
types. -/
def ResourceAddress.withPath (a : ResourceAddress) (path : Text) : ResourceAddress :=
  match a with
  | .http a => .http { a with path := path, expandPath := false }
  | .lhttp a => .lhttp { a with uri := path }
  | a => a

/-- `ResourceAddress::Apply`, `ResourceAddress.cxx:366-404`. -/
def ResourceAddress.apply (a : ResourceAddress) (relative : Text) : ResourceAddress :=
  if relative = [] then a
  else
    match a with
    | .none => .none
    | .file a => .file a
    | .pipe a => .pipe a
    | .http a => ((a.apply lib relative).map .http).getD .none
    | .lhttp a => ((a.apply lib relative).map .lhttp).getD .none
    | .cgi type a => ((a.apply lib relative).map (.cgi type)).getD .none

/-- `ResourceAddress::RelativeTo`, `ResourceAddress.cxx:406-430`. -/
def ResourceAddress.relativeTo : ResourceAddress → ResourceAddress → Option Text
  | .http a, .http base => a.relativeTo lib base
  | .lhttp a, .lhttp base => a.relativeTo lib base
  | .cgi _ a, .cgi _ base => a.relativeTo lib base
  | _, _ => .none

/-- `ResourceAddress::RelativeToApplied`, `ResourceAddress.cxx:432-460`. -/
def ResourceAddress.relativeToApplied (a applyBase : ResourceAddress) (relative : Text) :
    Option Text :=
  match a, applyBase with
  | .lhttp a, .lhttp base => a.relativeToApplied lib base relative
  | .cgi _ a, .cgi _ base => a.relativeToApplied lib base relative
  | a, applyBase =>
    match applyBase.apply lib relative with
    | .none => .none
    | applied => applied.relativeTo lib a

private theorem length_httpAddressParse2_le {ssl : Bool} {uri : Text} {o : HttpAddress}
    (h : httpAddressParse2 lib ssl uri = some o) : o.path.length ≤ uri.length + 1 := by
  rw [httpAddressParse2] at h
  split at h
  next host rest hc =>
    split at h <;> cases h
    simp [(eq_of_cut hc).1, ascii]
    omega
  · cases h; simp [ascii]

private theorem length_httpAddressParse_le {uri : Text} {o : HttpAddress}
    (h : httpAddressParse lib uri = some o) : o.path.length ≤ uri.length := by
  have hl {s : Text} (hs : s.isPrefixOf uri = true) : s.length ≤ uri.length :=
    (List.isPrefixOf_iff_prefix.mp hs).length_le
  rw [httpAddressParse] at h
  split at h
  next hs =>
    have hle := length_httpAddressParse2_le lib h
    have := hl hs
    simp [ascii] at hle this
    omega
  · split at h
    next hs =>
      have hle := length_httpAddressParse2_le lib h
      have := hl hs
      simp [ascii] at hle this
      omega
    · split at h <;> cases h
      simp

/-- A path is restored by applying the relative URI to the base, exactly if the path begins with the
base and the rest is appended: the strings themselves, the paths of HTTP addresses of the same host,
and those of the same CGI program if the relative URI contains nothing that is escaped. -/
theorem apply_relativeTo_iff {lib : UriLib}
    (hpa : ∀ uri before path, lib.pathQueryFragment uri = some (before, path) →
      before ++ path = uri)
    (hau : ∀ uri, lib.hasAuthority uri = true →
      lib.hasScheme uri = true ∨ (ascii "//").isPrefixOf uri = true)
    (he : lib.hasScheme [] = false) :
    (∀ base uri relative : Text, base.getLast? = some 0x2f →
      uriRelative lib base uri = some relative →
        (uriAbsolute lib base relative = uri ↔
          base <+: uri ∧ isAppended lib base (uri.drop base.length) = true)) ∧
    (∀ (a base : HttpAddress) (relative : Text), base.path.getLast? = some 0x2f →
      a.relativeTo lib base = some relative →
        ((base.apply lib relative).map (·.path) = some a.path ↔
          base.path <+: a.path ∧ isAppended lib base.path (a.path.drop base.path.length) = true)) ∧
    (∀ (a base : CgiAddress) (info baseInfo relative : Text), a.pathInfo = some info →
      base.pathInfo = some baseInfo → baseInfo.getLast? = some 0x2f →
      a.relativeTo lib base = some relative → lib.unescape relative = some relative →
        ((base.apply lib relative).map (·.pathInfo) = some (some info) ↔
          baseInfo <+: info ∧ isAppended lib baseInfo (info.drop baseInfo.length) = true)) := by
  refine ⟨fun base uri relative hsl h => uriAbsolute_eq_iff hsl (hpa base) h, ?_, ?_⟩
  · intro a base relative hsl h
    rw [HttpAddress.relativeTo] at h
    split at h
    · cases h
    rw [← uriAbsolute_eq_iff hsl (hpa base.path) h, HttpAddress.apply]
    by_cases hsc : lib.hasScheme relative
    · have hne : relative ≠ [] := by
        rintro rfl
        rw [he] at hsc
        cases hsc
      obtain ⟨hb, hrest⟩ := eq_append_of_uriRelative h hne
      rw [if_pos hsc, hrest, uriAbsolute_eq_append_iff hsl (hpa base.path)]
      simp only [isAppended, hne, hsc, decide_false, Bool.not_true, Bool.false_and,
        Bool.or_self, Bool.false_eq_true, iff_false]
      cases hpar : httpAddressParse lib relative with
      | none => simp
      | some other =>
        -- the path that is parsed is not longer than the relative URI
        have hle := length_httpAddressParse_le lib hpar
        have hpo := List.length_pos_of_ne_nil hb
        dsimp only
        split
        · simp
        · intro ho
          have hlen := congrArg (Option.map List.length) ho
          simp at hlen
          omega
    · simp [hsc]
  · intro a base info baseInfo relative ha hb hsl h hu
    rw [CgiAddress.relativeTo, ha, hb] at h
    split at h
    · cases h
    rw [← uriAbsolute_eq_iff hsl (hpa baseInfo) h, CgiAddress.apply, unescapeApplyPathInfo, hb, hu]
    by_cases hni : relative = []
    · simp [hni, uriAbsolute]
    by_cases hh : lib.hasAuthority relative
    · obtain ⟨-, hrest⟩ := eq_append_of_uriRelative h hni
      rw [hrest, uriAbsolute_eq_append_iff hsl (hpa baseInfo)]
      rcases hau relative hh with hsc | hslas <;> simp [isAppended, *]
    · simp [hni, hh]

/-- The functions of the library for URIs that are paths. -/
def pathLib : UriLib where
  hasScheme _ := false
  hasAuthority uri := (ascii "//").isPrefixOf uri
  afterScheme _ := none
  hostAndPort _ := none
  pathQueryFragment uri := some ([], uri)
  pathVerifyQuick _ := true
  escape uri := uri
  unescape uri := some uri

/-- A file in the directory that is the base. -/
theorem apply_relativeTo_file :
    uriAbsolute pathLib (ascii "/foo/") (ascii "bar") = ascii "/foo/bar" :=
  ((@apply_relativeTo_iff pathLib (by rintro uri before path ⟨⟩; rfl)
    (fun _ => Or.inr) rfl).1 (ascii "/foo/") (ascii "/foo/bar") (ascii "bar") (by decide)
    (by decide)).mpr (by decide)

/-- After a second slash, the rest is read as a path of its own. -/
theorem apply_relativeTo_slash :
    uriRelative pathLib (ascii "/foo/") (ascii "/foo//bar") = some (ascii "/bar") ∧
      uriAbsolute pathLib (ascii "/foo/") (ascii "/bar") = ascii "/bar" := by
  decide

end BengProxy.Address
