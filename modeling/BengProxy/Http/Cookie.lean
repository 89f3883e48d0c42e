import BengProxy.Http.Tokenizer

/-!
# The cookie jar

Models `src/http/CookieClient.cxx`, `src/http/CookieJar.cxx` and the part of
`src/http/CookieString.cxx` that they use. A cookie is identified by its domain, path and name.
`CookieJar::MoveFrom` replaces a cookie with the same identity only; `cookie_jar_set_cookie2`
deletes all those that match the new one, the same way as if it were a request.

The jar is the list of its cookies. A path is optional; a domain is not, once the cookie is in the
jar.
-/

namespace BengProxy.Http

open Base Text

/-- The library functions that the parser calls: what `StripLeft` takes for white space, and
`ParseInteger<unsigned>`. -/
structure Util where
  isWhitespace : UInt8 → Bool
  parseInteger : Text → Option Nat

/-- `Expiry`: a point in time, or one of the two special values. -/
inductive Expiry where
  | never
  | alreadyExpired
  | until (time : Nat)
  deriving DecidableEq, Repr

/-- `char_is_cookie_octet`, `CookieString.cxx:11-18`. -/
def charIsCookieOctet (ch : UInt8) : Bool :=
  ch == 0x21 || (0x23 ≤ ch && ch ≤ 0x2b) || (0x2d ≤ ch && ch ≤ 0x3a) ||
    (0x3c ≤ ch && ch ≤ 0x5b) || (0x5d ≤ ch && ch ≤ 0x7e)

/-- `cookie_next_unquoted_value`, `CookieString.cxx:20-26`. -/
def cookieNextUnquotedValue (input : Text) : Text × Text := splitWhile input charIsCookieOctet

/-- `cookie_next_value`, `CookieString.cxx:44-51`. -/
def cookieNextValue (input : Text) : Text × Text :=
  if input.head? == some quote then httpNextQuotedStringRaw input
  else cookieNextUnquotedValue input

/-- `CookieData`, `src/http/CookieJar.hxx:11-21`, as `parse_next_cookie` returns it. -/
structure ParsedCookie where
  name : Text
  value : Text
  domain : Option Text := none
  path : Option Text := none
  expires : Expiry := .never
  deriving DecidableEq, Repr

/-- `Cookie`, `src/http/CookieJar.hxx:23-33`, as it is stored: the domain is known. -/
structure Cookie where
  name : Text
  value : Text
  domain : Text
  path : Option Text
  expires : Expiry
  deriving DecidableEq, Repr

section

variable (u : Util) (now : Nat)

/-- `cookie_next_name_value` for `rfc_ignorant = false`, `CookieString.cxx:62-79`. -/
def cookieNextNameValue (input : Text) : (Text × Text) × Text :=
  nextNameValue u.isWhitespace cookieNextValue input

/-- One attribute, `CookieClient.cxx:87-98`. -/
def ParsedCookie.attribute (cookie : ParsedCookie) (name value : Text) : ParsedCookie :=
  if equalIgnoreCase name (ascii "domain") then { cookie with domain := some value }
  else if equalIgnoreCase name (ascii "path") then { cookie with path := some value }
  else if equalIgnoreCase name (ascii "max-age") then
    match u.parseInteger value with
    | none => cookie
    | some 0 => { cookie with expires := .alreadyExpired }
    | some seconds => { cookie with expires := .until (now + seconds) }
  else cookie

theorem length_httpNextNameValue_stripLeft_le (input : Text) :
    (stripLeft u.isWhitespace (httpNextNameValue u.isWhitespace input).2).length ≤ input.length :=
  Nat.le_trans (length_stripLeft_le _ _) (length_httpNextNameValue_le _ _)

/-- The loop of `parse_next_cookie`, `CookieClient.cxx:81-101`. -/
def parseAttributes (cookie : ParsedCookie) (input : Text) : ParsedCookie × Text :=
  match input with
  | [] => (cookie, [])
  | ch :: input =>
    if ch == 0x3b then
      let nv := httpNextNameValue u.isWhitespace input
      parseAttributes (cookie.attribute u now nv.1.1 nv.1.2) (stripLeft u.isWhitespace nv.2)
    else (cookie, ch :: input)
termination_by input.length
decreasing_by
  exact Nat.lt_succ_of_le (length_httpNextNameValue_stripLeft_le u input)

/-- `parse_next_cookie`, `CookieClient.cxx:70-104`. -/
def parseNextCookie (input : Text) : Option (ParsedCookie × Text) :=
  let nv := cookieNextNameValue u input
  if nv.1.1 = [] then none
  else
    some (parseAttributes u now { name := nv.1.1, value := nv.1.2 } (stripLeft u.isWhitespace nv.2))

/-- `domain_matches`, `CookieClient.cxx:28-43`. -/
def domainMatches (domain pattern : Text) : Bool :=
  decide (pattern.length ≤ domain.length) &&
    equalIgnoreCase (domain.drop (domain.length - pattern.length)) pattern &&
    (domain.length == pattern.length || pattern.head? == some 0x2e ||
      (decide (pattern.length < domain.length) &&
        domain[domain.length - pattern.length - 1]? == some 0x2e))

/-- `path_matches`, `CookieClient.cxx:45-50`. -/
def pathMatches (path : Text) : Option Text → Bool
  | none => true
  | some pattern => pattern.isPrefixOf path

/-- The cookies that `cookie_list_delete_match` deletes, `CookieClient.cxx:60-65`. -/
def deleteMatches (domain : Text) (path : Option Text) (name : Text) (cookie : Cookie) : Bool :=
  domainMatches domain cookie.domain &&
    (match cookie.path with
      | none => path.isNone
      | some cookiePath => pathMatches cookiePath path) &&
    name == cookie.name

variable (jar : List Cookie)

/-- `cookie_list_delete_match`, `CookieClient.cxx:52-68`. -/
def cookieListDeleteMatch (domain : Text) (path : Option Text) (name : Text) : List Cookie :=
  jar.filter fun cookie => !deleteMatches domain path name cookie

/-- The first half of `apply_next_cookie`, `CookieClient.cxx:112-127`: the next cookie of
the header, unless it is to be discarded. -/
def acceptNextCookie (domain : Text) (path : Option Text) (input : Text) :
    Option (Cookie × Text) :=
  match parseNextCookie u now input with
  | none => none
  | some (cookie, input) =>
    if cookie.domain.any fun d => !domainMatches domain d then none
    else if path.any fun p => cookie.path.isSome && !pathMatches p cookie.path then none
    else
      some ({ name := cookie.name, value := cookie.value,
              domain := cookie.domain.getD domain, path := cookie.path,
              expires := cookie.expires }, input)

/-- The second half of `apply_next_cookie`, `CookieClient.cxx:129-137`. -/
def setCookie (cookie : Cookie) : List Cookie :=
  let jar := cookieListDeleteMatch jar cookie.domain cookie.path cookie.name
  if cookie.value ≠ [] ∧ cookie.expires ≠ .alreadyExpired then cookie :: jar else jar

/-- `apply_next_cookie`, `CookieClient.cxx:106-140`; the result is missing if the function
returns `false`. -/
def applyNextCookie (domain : Text) (path : Option Text) (input : Text) :
    Option (List Cookie × Text) :=
  (acceptNextCookie u now domain path input).map fun (cookie, input) =>
    (setCookie jar cookie, input)

theorem length_cookieNextValue_le (input : Text) :
    (cookieNextValue input).2.length ≤ input.length := by
  unfold cookieNextValue
  split
  · exact length_httpNextQuotedStringRaw_le input
  · exact length_splitWhile_le input charIsCookieOctet

theorem length_parseAttributes_le (cookie : ParsedCookie) (input : Text) :
    (parseAttributes u now cookie input).2.length ≤ input.length := by
  fun_induction parseAttributes u now cookie input with
  | case1 cookie => exact Nat.le_refl _
  | case2 cookie ch input hch nv ih =>
    have h := length_httpNextNameValue_stripLeft_le u input
    exact Nat.le_succ_of_le (Nat.le_trans ih h)
  | case3 cookie ch input hch => exact Nat.le_refl _

theorem length_parseNextCookie_lt {input rest : Text} {cookie : ParsedCookie}
    (h : parseNextCookie u now input = some (cookie, rest)) : rest.length < input.length := by
  unfold parseNextCookie at h
  simp only at h
  split at h
  · cases h
  next hna =>
    rw [cookieNextNameValue, nextNameValue_name] at hna
    have hsh : (cookieNextNameValue u input).2.length < input.length :=
      length_nextNameValue_lt length_cookieNextValue_le hna
    have hat := length_parseAttributes_le u now
      { name := (cookieNextNameValue u input).1.1, value := (cookieNextNameValue u input).1.2 }
      (stripLeft u.isWhitespace (cookieNextNameValue u input).2)
    have hst := length_stripLeft_le u.isWhitespace (cookieNextNameValue u input).2
    rw [Option.some.inj h] at hat
    exact Nat.lt_of_le_of_lt (Nat.le_trans hat hst) hsh

theorem length_acceptNextCookie_lt {domain input rest : Text} {path : Option Text}
    {cookie : Cookie} (h : acceptNextCookie u now domain path input = some (cookie, rest)) :
    rest.length < input.length := by
  unfold acceptNextCookie at h
  split at h
  · cases h
  next parsed rest' hpa =>
    split at h
    · cases h
    · split at h
      · cases h
      · cases h
        exact length_parseNextCookie_lt u now hpa

theorem length_applyNextCookie_lt {jar jar' : List Cookie} {domain input rest : Text}
    {path : Option Text} (h : applyNextCookie u now jar domain path input = some (jar', rest)) :
    rest.length < input.length := by
  rw [applyNextCookie, Option.map_eq_some_iff] at h
  obtain ⟨⟨cookie, rest'⟩, hac, he⟩ := h
  cases he
  exact length_acceptNextCookie_lt u now hac

/-- The loop of `cookie_jar_set_cookie2`, `CookieClient.cxx:149-160`. -/
def cookieJarSetCookie2Loop (jar : List Cookie) (domain : Text) (path : Option Text)
    (input : Text) : List Cookie :=
  match _h : applyNextCookie u now jar domain path input with
  | none => jar
  | some (jar, []) => jar
  | some (jar, ch :: rest) =>
    if ch ≠ 0x2c then jar
    else cookieJarSetCookie2Loop jar domain path (stripLeft u.isWhitespace rest)
termination_by input.length
decreasing_by
  exact Nat.lt_of_le_of_lt (length_stripLeft_le _ _)
    (Nat.lt_of_succ_lt (length_applyNextCookie_lt u now _h))

/-- `cookie_jar_set_cookie2`, `CookieClient.cxx:142-161`. -/
def cookieJarSetCookie2 (value domain : Text) (path : Option Text) : List Cookie :=
  cookieJarSetCookie2Loop u now jar domain path value

/-- The cookies of a header that are applied, in their order. -/
def appliedCookies (domain : Text) (path : Option Text) (input : Text) : List Cookie :=
  match _h : acceptNextCookie u now domain path input with
  | none => []
  | some (cookie, []) => [cookie]
  | some (cookie, ch :: rest) =>
    if ch ≠ 0x2c then [cookie]
    else cookie :: appliedCookies domain path (stripLeft u.isWhitespace rest)
termination_by input.length
decreasing_by
  exact Nat.lt_of_le_of_lt (length_stripLeft_le _ _)
    (Nat.lt_of_succ_lt (length_acceptNextCookie_lt u now _h))

end

end BengProxy.Http
