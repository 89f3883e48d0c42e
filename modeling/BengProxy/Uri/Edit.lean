import BengProxy.Base.Separated
import BengProxy.StringMap
import Mathlib.Data.List.TakeWhile

/-!
# Editing URIs

Models the functions that build a URI from another one: `src/uri/PEdit.cxx` for its query string,
`src/uri/PRelative.cxx` and `src/uri/Relative.cxx` for relative URIs, and `src/uri/Args.cxx` for the
arguments after a semicolon. A view that may be null is an option.

The functions of the library that look for a part of a URI are parameters: they return the part with
what is before and after it.
-/

namespace BengProxy.Uri

open Base Text Separated List

/-- The URI functions of the library: `UriHasScheme()`, `UriHasAuthority()`, `UriAfterScheme()`,
`UriHostAndPort()`, `UriPathQueryFragment()`, `uri_path_verify_quick()`, `UriEscape()` with the
escape character of arguments and `UriUnescape()` with the usual one. -/
structure UriLib where
  hasScheme : Text → Bool
  hasAuthority : Text → Bool
  afterScheme : Text → Option Text
  hostAndPort : Text → Option (Text × Text × Text)
  pathQueryFragment : Text → Option (Text × Text)
  pathVerifyQuick : Text → Bool
  escape : Text → Text
  unescape : Text → Option Text

/-- `uri_insert_query_string`, `PEdit.cxx:12-29`. -/
def uriInsertQueryString (uri queryString : Text) : Text :=
  match cut 0x3f uri with
  | some (before, after) => before ++ ascii "?" ++ queryString ++ ascii "&" ++ after
  | none => uri ++ ascii "?" ++ queryString

/-- `uri_append_query_string_n`, `PEdit.cxx:31-40`. -/
def uriAppendQueryString (uri queryString : Text) : Text :=
  uri ++ (if 0x3f ∈ uri then ascii "&" else ascii "?") ++ queryString

/-- `query_string_begins_with`, `PEdit.cxx:42-58`. -/
def queryStringBeginsWith (queryString needle : Text) : Nat :=
  if needle.isPrefixOf queryString then
    match queryString.drop needle.length with
    | [] => needle.length
    | ch :: _ => if ch = 0x26 then needle.length + 1 else 0
  else 0

/-- `uri_delete_query_string`, `PEdit.cxx:60-85`. -/
def uriDeleteQueryString (uri needle : Text) : Text :=
  match cut 0x3f uri with
  | none => uri
  | some (before, after) =>
    let deleteLength := queryStringBeginsWith after needle
    if deleteLength = 0 then uri
    else
      match after.drop deleteLength with
      -- empty query string: the question mark is deleted as well
      | [] => before
      | rest => before ++ ascii "?" ++ rest

/-- The URI has a query string, and it is empty: its only question mark is its last character. -/
def hasEmptyQuery (uri : Text) : Bool := uri.getLast? = some 0x3f && uri.count 0x3f = 1

private theorem hasEmptyQuery_append {before : Text} (h : 0x3f ∉ before) (a : Text) :
    hasEmptyQuery (before ++ 0x3f :: a) = true ↔ a = [] := by
  have hb := count_eq_zero.mpr h
  cases a using List.reverseRecOn with
  | nil => simp [hasEmptyQuery, hb]
  | append_singleton rest c =>
    simp only [hasEmptyQuery, count_append]
    rw [getLast?_append_of_ne_nil _ (by simp), getLast?_cons]
    simp +contextual [hb]

private theorem uriDeleteQueryString_eq {before : Text} (h : 0x3f ∉ before) (a n : Text) :
    uriDeleteQueryString (before ++ 0x3f :: a) n =
      if queryStringBeginsWith a n = 0 then before ++ 0x3f :: a
      else
        match a.drop (queryStringBeginsWith a n) with
        | [] => before
        | rest => before ++ ascii "?" ++ rest := by
  rw [uriDeleteQueryString, cut_append h]

/-- The query string that has been inserted is what is deleted, but for an empty query string: the
question mark is deleted with it. -/
theorem uriDeleteQueryString_insert (uri : Text) {query : Text} (h : query ≠ []) :
    uriDeleteQueryString (uriInsertQueryString uri query) query = uri ↔
      hasEmptyQuery uri = false := by
  have hm : ascii "?" = [0x3f] := rfl
  have ha : ascii "&" = [0x26] := rfl
  rw [uriInsertQueryString]
  cases hc : cut 0x3f uri with
  | none =>
    have hn := not_mem_of_cut_eq_none hc
    have he : hasEmptyQuery uri = false := by simp [hasEmptyQuery, count_eq_zero.mpr hn]
    have hq : queryStringBeginsWith query query = query.length := by simp [queryStringBeginsWith]
    simp only [he, hm, append_assoc, singleton_append, uriDeleteQueryString_eq hn, hq, drop_length,
      length_eq_zero_iff, if_neg h]
  | some parts =>
    obtain ⟨before, after⟩ := parts
    obtain ⟨rfl, hn⟩ := eq_of_cut hc
    have hq : queryStringBeginsWith (query ++ 0x26 :: after) query = query.length + 1 := by
      simp [queryStringBeginsWith]
    rw [← Bool.not_eq_true, hasEmptyQuery_append hn]
    simp only [hm, ha, append_assoc, cons_append, nil_append]
    rw [uriDeleteQueryString_eq hn, hq, ← drop_drop]
    cases after with
    | nil => simp
    | cons c rest => simp [ascii]

/-- A deletion does not delete more than the query string and the two characters around it. -/
theorem length_le_uriDeleteQueryString (uri needle : Text) :
    uri.length ≤ (uriDeleteQueryString uri needle).length + needle.length + 2 := by
  cases hc : cut 0x3f uri with
  | none =>
    simp only [uriDeleteQueryString, hc]
    omega
  | some parts =>
    obtain ⟨rfl, hn⟩ := eq_of_cut hc
    have hl : queryStringBeginsWith parts.2 needle ≤ needle.length + 1 := by
      rw [queryStringBeginsWith]
      repeat' split
      all_goals omega
    have hd := @length_drop _ (queryStringBeginsWith parts.2 needle) parts.2
    rw [uriDeleteQueryString_eq hn]
    split
    · omega
    split
    next he =>
      rw [he, length_nil] at hd
      simp only [length_append, length_cons]
      omega
    · simp only [length_append, length_cons]
      omega

/-- The lengths of URIs with another query string. -/
theorem length_uriInsertQueryString (uri query : Text) :
    (uriInsertQueryString uri query).length = uri.length + query.length + 1 := by
  rw [uriInsertQueryString]
  cases hc : cut 0x3f uri with
  | none =>
    simp [ascii]
    omega
  | some parts =>
    have hl := length_of_cut hc
    simp [ascii]
    omega

@[inherit_doc length_uriInsertQueryString]
theorem length_uriAppendQueryString (uri query : Text) :
    (uriAppendQueryString uri query).length = uri.length + query.length + 1 := by
  rw [uriAppendQueryString]
  split <;> simp [ascii] <;> omega

/-- `uri_after_last_slash`, `PRelative.cxx:108-119`: what is before the pointer that is
returned. -/
def uriAfterLastSlash (lib : UriLib) (uri : Text) : Option Text := do
  let (before, path) ← lib.pathQueryFragment uri
  let (parent, _) ← findLast 0x2f path
  return before ++ parent ++ ascii "/"

/-- `uri_absolute`, `PRelative.cxx:121-161`. -/
def uriAbsolute (lib : UriLib) (base uri : Text) : Text :=
  if uri = [] then base
  else if lib.hasScheme uri then uri
  else if (ascii "//").isPrefixOf uri then
    match find (ascii "://") base with
    | some (scheme, _) => scheme ++ ascii ":" ++ uri
    | none => uri
  else if uri.head? = some 0x2f then
    if (ascii "/").isPrefixOf base ∧ ¬ (ascii "//").isPrefixOf base then uri
    else
      match lib.pathQueryFragment base with
      | some (before, _) => before ++ uri
      | none => base ++ uri
  else if uri.head? = some 0x3f then (base.takeWhile (· ≠ 0x3f)) ++ uri
  else
    match uriAfterLastSlash lib base with
    | some before => before ++ uri
    | none => base ++ ascii "/" ++ uri

/-- `uri_relative`, `Relative.cxx:11-29`. -/
def uriRelative (lib : UriLib) (base uri : Text) : Option Text :=
  if base = [] ∨ uri = [] then none
  else if base.isPrefixOf uri then some (uri.drop base.length)
  else if uri.length = base.length - 1 ∧ uri.isPrefixOf base ∧ base.getLast? = some 0x2f ∧
      (lib.afterScheme uri).any (0x2f ∉ ·) then some []
  else none

/-- A relative URI that is not empty is the rest of a URI that begins with the base. -/
theorem eq_append_of_uriRelative {lib : UriLib} {base uri relative : Text}
    (h : uriRelative lib base uri = some relative) (hne : relative ≠ []) :
    base ≠ [] ∧ uri = base ++ relative := by
  rw [uriRelative] at h
  split at h
  · cases h
  next he =>
    split at h
    next hpr =>
      obtain ⟨rest, rfl⟩ := isPrefixOf_iff_prefix.mp hpr
      cases h
      simpa using fun hb => he (Or.inl hb)
    · split at h <;> cases h; exact absurd rfl hne

/-- What follows a base is applied to this base by appending it: it is not read as a URI of its own,
and what `uri_absolute()` keeps of the base is all of it. -/
def isAppended (lib : UriLib) (base rest : Text) : Bool :=
  rest = [] || !lib.hasScheme rest && !(ascii "//").isPrefixOf rest &&
    if rest.head? = some 0x2f then
      ¬ ((ascii "/").isPrefixOf base ∧ ¬ (ascii "//").isPrefixOf base) &&
        (lib.pathQueryFragment base).all (·.2 = [])
    else if rest.head? = some 0x3f then 0x3f ∉ base
    else (lib.pathQueryFragment base).any (·.2 ≠ [])

section

variable {lib : UriLib} {base : Text} (hslash : base.getLast? = some 0x2f)
  (hpath : ∀ before path, lib.pathQueryFragment base = some (before, path) → before ++ path = base)

include hslash hpath

private theorem uriAfterLastSlash_eq :
    uriAfterLastSlash lib base =
      if (lib.pathQueryFragment base).any (·.2 ≠ []) then some base else none := by
  rw [uriAfterLastSlash]
  cases hli : lib.pathQueryFragment base with
  | none => rfl
  | some parts =>
    obtain ⟨before, path⟩ := parts
    have hb := hpath before path hli
    cases path using List.reverseRecOn with
    | nil => rfl
    | append_singleton parent ch =>
      have hch : ch = 0x2f := by simpa [← hb] using hslash
      subst hch
      simp [findLast_append, ascii, ← hb]

/-- A URI that begins with the base is restored from the rest of it exactly if this is appended. -/
theorem uriAbsolute_eq_append_iff (rest : Text) :
    uriAbsolute lib base rest = base ++ rest ↔ isAppended lib base rest = true := by
  have hne : base ≠ [] := by
    rintro rfl
    cases hslash
  rw [uriAbsolute, isAppended]
  by_cases hni : rest = []
  · simp [hni]
  by_cases hsc : lib.hasScheme rest
  · simp [hni, hsc, hne]
  rw [if_neg hni, if_neg hsc]
  by_cases hau : (ascii "//").isPrefixOf rest
  · rw [if_pos hau]
    have hc (scheme : Text) : scheme ++ ascii ":" ≠ base := by
      rintro rfl
      simp [ascii] at hslash
    cases find (ascii "://") base with
    | none => simp [hni, hau, hne]
    | some parts => simp [-append_assoc, hni, hau, hc parts.1]
  rw [if_neg hau]
  simp only [hni, hsc, hau, decide_false, Bool.false_or, Bool.not_false, Bool.true_and]
  by_cases hro : rest.head? = some 0x2f
  · rw [if_pos hro, if_pos hro]
    by_cases hb : (ascii "/").isPrefixOf base ∧ ¬ (ascii "//").isPrefixOf base
    · rw [if_pos hb, decide_eq_false (not_not.mpr hb)]
      simp [hne]
    rw [if_neg hb, decide_eq_true hb]
    cases hli : lib.pathQueryFragment base with
    | none => simp
    | some parts =>
      have hap := hpath parts.1 parts.2 hli
      have hal : parts.1 = base ↔ parts.2 = [] := by
        rw [← hap]
        simp
      simp [hal]
  rw [if_neg hro, if_neg hro]
  by_cases hq : rest.head? = some 0x3f
  · have hal : base.takeWhile (· ≠ 0x3f) = base ↔ 0x3f ∉ base := by
      simp only [takeWhile_eq_self_iff, decide_eq_true_eq]
      exact ⟨fun h hme => h _ hme rfl, fun h ch hch he => h (he ▸ hch)⟩
    rw [if_pos hq, if_pos hq, append_cancel_right_eq, hal, decide_eq_true_eq]
  · rw [if_neg hq, if_neg hq, uriAfterLastSlash_eq hslash hpath]
    cases (lib.pathQueryFragment base).any (·.2 ≠ []) with
    | false => simp [ascii]
    | true => simp

/-- An address is restored from its relative URI exactly if it begins with the base, and the rest of
it is appended. -/
theorem uriAbsolute_eq_iff {uri relative : Text} (h : uriRelative lib base uri = some relative) :
    uriAbsolute lib base relative = uri ↔
      base <+: uri ∧ isAppended lib base (uri.drop base.length) = true := by
  rw [uriRelative] at h
  split at h
  · cases h
  split at h
  next hpr =>
    obtain ⟨rest, rfl⟩ := isPrefixOf_iff_prefix.mp hpr
    cases h
    simpa using uriAbsolute_eq_append_iff hslash hpath rest
  next hpr =>
    -- without the slash: the base itself is returned
    have hn : ¬ base <+: uri := fun hb => hpr (List.isPrefixOf_iff_prefix.mpr hb)
    split at h <;> cases h
    simp only [hn, false_and, iff_false]
    rintro rfl
    exact hn (prefix_refl _)

end

/-- Write one argument, `Args.cxx:71-78`. -/
def writeArg (lib : UriLib) (p key value : Text) : Text :=
  (if p = [] then p else p ++ ascii "&") ++ key ++ ascii "=" ++ lib.escape value

/-- `args_format_n` without a key to be removed, `Args.cxx:36-114`: the arguments that are
replaced are written after the other ones. -/
def argsFormatN (lib : UriLib) (args : Option StringMap) (replaced : List (Text × Text)) : Text :=
  let kept := (args.getD []).filter fun i => i.1 ∉ replaced.map (·.1)
  (kept ++ replaced).foldl (fun p i => writeArg lib p i.1 i.2) []

end BengProxy.Uri
