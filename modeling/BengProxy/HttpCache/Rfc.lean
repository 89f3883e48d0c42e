import BengProxy.Base.Number
import BengProxy.StringMap

/-!
# What may be cached

Models `src/http/cache/RFC.cxx`, `src/http/cache/Age.cxx` and `http_list_split()`,
`src/http/PList.cxx`: which requests may be answered from the cache, which responses may be stored
and for how long, and which request headers a stored response depends on.

Points in time are seconds. `-1` stands for a time that is not known, as
`std::chrono::system_clock::from_time_t(-1)` does in the source.
-/

namespace BengProxy.HttpCaching

open Base Text

/-- The library functions that are called: the lookup in header maps, what is white space, how
dates and numbers are read, `http_list_contains()`, and the hash of the document root as text. -/
structure CacheLib extends Lookup where
  isWhitespace : UInt8 → Bool
  httpDateParse : Text → Int
  atoi : Text → Int
  listContains : Text → Text → Bool
  isSafeMethod : Nat → Bool
  statusIsError : Nat → Bool
  docrootBase32 : Text → Text

/-- `HttpMethod`: the ones that are told apart here, and all others. -/
inductive HttpMethod where
  | get
  | post
  | put
  | delete
  | other (n : Nat)
  deriving DecidableEq, Repr

/-- `HttpCacheRequestInfo`, `src/http/cache/Info.hxx:11-40`. -/
structure RequestInfo where
  ifMatch : Option Text
  ifNoneMatch : Option Text
  ifModifiedSince : Option Text
  ifUnmodifiedSince : Option Text
  isRemote : Bool
  noCache : Bool
  onlyIfCached : Bool
  hasQueryString : Bool
  deriving DecidableEq, Repr

/-- `HttpCacheResponseInfo`, `src/http/cache/Info.hxx:42-62`. -/
structure ResponseInfo where
  expires : Int
  lastModified : Option Text
  etag : Option Text
  vary : Option Text
  deriving DecidableEq, Repr

/-- A request as `http_cache_request_evaluate()` sees it. -/
structure Request where
  method : HttpMethod
  isRemote : Bool
  hasQueryString : Bool
  headers : StringMap
  hasBody : Bool
  deriving DecidableEq, Repr

section

variable (lib : CacheLib)

/-- Drop the white space at both ends. -/
def strip (s : Text) : Text :=
  ((s.dropWhile lib.isWhitespace).reverse.dropWhile lib.isWhitespace).reverse

/-- The members of a header, as `IterableSplitString` and `Strip()` find them. -/
def members (value : Text) : List Text := (value.splitOn 0x2c).map (strip lib)

/-- The loop over `Cache-Control`, `RFC.cxx:51-62`: the flags `no_cache` and
`only_if_cached`, or nothing for `no-store`. -/
def requestCacheControl (obeyNoCache : Bool) : List Text → Bool × Bool → Option (Bool × Bool)
  | [], flags => some flags
  | s :: rest, (noCache, onlyIfCached) =>
    if s = ascii "only-if-cached" then requestCacheControl obeyNoCache rest (noCache, true)
    else if obeyNoCache then
      if s = ascii "no-cache" then requestCacheControl obeyNoCache rest (true, onlyIfCached)
      else if s = ascii "no-store" then none
      else requestCacheControl obeyNoCache rest (noCache, onlyIfCached)
    else requestCacheControl obeyNoCache rest (noCache, onlyIfCached)

/-- The flags of a request, `RFC.cxx:48-67`. -/
def requestFlags (headers : StringMap) (obeyNoCache : Bool) : Option (Bool × Bool) :=
  match headers.get lib.toLookup (ascii "cache-control") with
  | some cacheControl => requestCacheControl obeyNoCache (members lib cacheControl) (false, false)
  | none =>
    if obeyNoCache ∧ headers.get lib.toLookup (ascii "pragma") = some (ascii "no-cache") then none
    else some (false, false)

/-- `http_cache_request_evaluate`, `RFC.cxx:26-81`. -/
def httpCacheRequestEvaluate (r : Request) (obeyNoCache : Bool) : Option RequestInfo :=
  if r.method ≠ .get ∨ r.hasBody then none
  else if r.headers.contains lib.toLookup (ascii "range") then none
  else if r.headers.contains lib.toLookup (ascii "authorization") then none
  else
    (requestFlags lib r.headers obeyNoCache).map fun (noCache, onlyIfCached) =>
      { ifMatch := r.headers.get lib.toLookup (ascii "if-match")
        ifNoneMatch := r.headers.get lib.toLookup (ascii "if-none-match")
        ifModifiedSince := r.headers.get lib.toLookup (ascii "if-modified-since")
        ifUnmodifiedSince := r.headers.get lib.toLookup (ascii "if-unmodified-since")
        isRemote := r.isRemote
        noCache
        onlyIfCached
        hasQueryString := r.hasQueryString }

/-- `http_cache_request_invalidate`, `RFC.cxx:105-111`. -/
def httpCacheRequestInvalidate (method : HttpMethod) : Bool :=
  method = .put ∨ method = .delete ∨ method = .post

/-- `http_status_cacheable`, `RFC.cxx:128-140`. -/
def httpStatusCacheable (status : Nat) : Bool :=
  status = 200 ∨ status = 203 ∨ status = 206 ∨ status = 300 ∨ status = 301 ∨ status = 410

/-- `parse_translate_time`, `RFC.cxx:113-126`. -/
def parseTranslateTime (p : Option Text) (offset : Int) : Int :=
  match p with
  | none => -1
  | some p => if lib.httpDateParse p = -1 then -1 else lib.httpDateParse p + offset

/-- `GetServerDateOffset`, `RFC.cxx:142-165`, with `GetServerDate()`,
`src/http/PHeaderUtil.cxx:20-30`. -/
def getServerDateOffset (isRemote : Bool) (now : Int) (headers : StringMap) : Option Int :=
  if !isRemote then some 0
  else
    match headers.get lib.toLookup (ascii "date") with
    | none => none
    | some p => if lib.httpDateParse p = -1 then none else some (now - lib.httpDateParse p)

/-- The loop over `Cache-Control`, `RFC.cxx:184-205`. -/
def responseCacheControl (now : Int) : List Text → Int → Option Int
  | [], expires => some expires
  | s :: rest, expires =>
    if (ascii "private").isPrefixOf s ∨ s = ascii "no-cache" ∨ s = ascii "no-store" then none
    else if (ascii "max-age=").isPrefixOf s then
      let value := s.drop 8
      if 16 ≤ value.length ∨ lib.atoi value ≤ 0 then responseCacheControl now rest expires
      else responseCacheControl now rest (now + lib.atoi value)
    else responseCacheControl now rest expires

/-- The loop over the `Vary` headers, `RFC.cxx:241-260`: they are joined, unless one
of them is `"*"`. -/
def joinVary : List Text → Option Text → Option (Option Text)
  | [], vary => some vary
  | value :: rest, vary =>
    if value = [] then joinVary rest vary
    else if value = ascii "*" then none
    else
      match vary with
      | none => joinVary rest (some value)
      | some vary => joinVary rest (some (vary ++ ascii ", " ++ value))

/-- `cacheable_size_limit`, `src/http/cache/Internal.hxx:11`. -/
def cacheableSizeLimit : Nat := 512 * 1024

/-- The expiry date of a response, or -1, `RFC.cxx:181-239`; missing if the response
must not be stored. -/
def responseExpires (isRemote hasQueryString eagerCache : Bool) (now : Int) (headers : StringMap) :
    Option Int := do
  let expires ←
    match headers.get lib.toLookup (ascii "cache-control") with
    | some cacheControl => responseCacheControl lib now (members lib cacheControl) (-1)
    | none => some (-1)
  let offset ← getServerDateOffset lib isRemote now headers
  let expires :=
    if expires = -1 then
      parseTranslateTime lib (headers.get lib.toLookup (ascii "expires")) offset
    else expires
  if hasQueryString ∧ !eagerCache ∧ expires = -1 then none else some expires

/-- `http_cache_response_evaluate`, `RFC.cxx:167-273`; `available` is the size of
the body if it is known. -/
def httpCacheResponseEvaluate (isRemote hasQueryString eagerCache : Bool) (now : Int)
    (status : Nat) (headers : StringMap) (available : Option Nat) : Option ResponseInfo :=
  if !httpStatusCacheable status then none
  else if available.any (cacheableSizeLimit < ·) then none
  else
    match responseExpires lib isRemote hasQueryString eagerCache now headers with
    | none => none
    | some expires =>
      let lastModified := headers.get lib.toLookup (ascii "last-modified")
      let etag := headers.get lib.toLookup (ascii "etag")
      match joinVary (headers.values (ascii "vary")) none with
      | none => none
      | some vary =>
        if expires = -1 ∧ lastModified = none ∧ etag = none then
          if eagerCache then some { expires := now + 3600, lastModified, etag, vary } else none
        else some { expires, lastModified, etag, vary }

/-- The loop of `http_list_split`, `PList.cxx:17-45`, for at most `n` more items. -/
def httpListSplitLoop : Nat → Text → List Text
  | 0, _ => []
  | n + 1, p =>
    let p := p.dropWhile lib.isWhitespace
    if p = [] then []
    else
      let item := (strip lib (p.takeWhile (· != 0x2c))).map lower
      match p.dropWhile (· != 0x2c) with
      | [] => [item]
      | _ :: rest => item :: httpListSplitLoop n rest

/-- `http_list_split`, `PList.cxx:11-50`, with its limit of `MAX_ITEMS`. -/
def httpListSplit (p : Text) : List Text := httpListSplitLoop lib 64 p

/-- The value of a request header; a missing one counts as empty. -/
def fieldValue (headers : StringMap) (name : Text) : Text :=
  (headers.get lib.toLookup name).getD []

/-- `http_cache_copy_vary`, `RFC.cxx:275-293`. -/
def httpCacheCopyVary (vary : Text) (requestHeaders : StringMap) : StringMap :=
  (httpListSplit lib vary).foldl
    (fun dest name => dest.set lib.toLookup name (fieldValue lib requestHeaders name)) []

/-- `http_cache_vary_fits`, `RFC.cxx:83-97`. -/
def httpCacheVaryFits (vary headers : StringMap) : Bool :=
  vary.all fun i => i.2 == fieldValue lib headers i.1

/-- `http_cache_prefer_cached`, `RFC.cxx:295-307`. -/
def httpCachePreferCached (info : ResponseInfo) (headers : StringMap) : Bool :=
  match info.etag with
  | none => false
  | some etag => headers.get lib.toLookup (ascii "etag") == some etag

/-- `http_cache_age_limit`, `Age.cxx:12-39`. -/
def httpCacheAgeLimit (vary : StringMap) : Nat :=
  if vary = [] then 7 * 24 * 3600
  else if vary.contains lib.toLookup (ascii "x-cm4all-beng-user") ∨
      vary.contains lib.toLookup (ascii "cookie") ∨
      vary.contains lib.toLookup (ascii "cookie2") then 5 * 60
  else if vary.contains lib.toLookup (ascii "x-widgetid") ∨
      vary.contains lib.toLookup (ascii "x-widgethref") then 30 * 60
  else 3600

/-- `http_cache_calc_expires`, `Age.cxx:41-65`. -/
def httpCacheCalcExpires (steadyNow : Nat) (systemNow expires : Int) (vary : StringMap) : Nat :=
  if expires = -1 then steadyNow + min 3600 (httpCacheAgeLimit lib vary)
  else if expires ≤ systemNow then 0
  else steadyNow + min (expires - systemNow).toNat (httpCacheAgeLimit lib vary)

end

end BengProxy.HttpCaching
