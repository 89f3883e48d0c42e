import BengProxy.Cache.Cache
import BengProxy.Translation.Request

/-!
# The translation cache

Models `tcache`, `src/translation/Cache.cxx`: a cache of translation responses, with two indexes
for invalidating the items of one host or of one site. The hooks of an item in the indexes unlink
themselves when the item is destroyed.

A response has only the fields that the cache looks at. Copying it into the cache, the regular
expressions and unescaping are library functions. The clock and the file system come with each
event. Left out are the statistics, the memory pools and what is done with a response that has been
found.
-/

namespace BengProxy.Translation

open Base Text

/-- `TranslateResponse`. -/
structure TranslateResponse where
  maxAge : Int := -1
  wwwAuthenticate : Option Text := none
  authenticationInfo : Option Text := none
  site : Option Text := none
  base : Option Text := none
  regex : Option Text := none
  inverseRegex : Option Text := none
  regexTail : Bool := false
  regexUnescape : Bool := false
  inverseRegexUnescape : Bool := false
  regexOnHostUri : Bool := false
  regexOnUserUri : Bool := false
  vary : List TranslationCommand := []
  invalidate : List TranslationCommand := []
  validateMtime : Option (Text × Nat) := none
  deriving DecidableEq, Repr, Inhabited

/-- `TranslateResponse::VaryContains`. -/
def TranslateResponse.varyContains (r : TranslateResponse) (command : TranslationCommand) : Bool :=
  r.vary.contains command

/-- The library: `UriEscape()`, unescaping, regular expressions, and
`TranslateResponse::CacheStore()`, which may throw, and changes neither the site nor `VARY`. -/
structure TranslationLib extends UriEscape where
  uriUnescape : Text → Option Text
  compiles : Text → Bool
  regexMatch : Text → Text → Bool
  cacheStore : TranslateResponse → Option Text → Option TranslateResponse
  cacheStore_site : ∀ {r uri r'}, cacheStore r uri = some r' → r'.site = r.site
  cacheStore_vary : ∀ {r uri r'}, cacheStore r uri = some r' → r'.vary = r.vary

/-- The request in a cache item, `Cache.cxx:62-82`. -/
structure ItemRequest where
  param : Option Text := none
  session : Option Text := none
  realmSession : Option Text := none
  listenerTag : Option Text := none
  localAddress : Option Text := none
  remoteHost : Option Text := none
  host : Option Text := none
  acceptLanguage : Option Text := none
  userAgent : Option Text := none
  queryString : Option Text := none
  internalRedirect : Option Text := none
  enotdir : Option Text := none
  user : Option Text := none
  deriving DecidableEq, Repr, Inhabited

/-- `TranslateCacheItem`, `Cache.cxx:59-173`. -/
structure TranslateCacheItem where
  request : ItemRequest
  response : TranslateResponse
  regex : Option Text
  inverseRegex : Option Text
  deriving DecidableEq, Repr, Inhabited

/-- An item in the cache. -/
abbrev Item := CacheItem Text TranslateCacheItem

/-- `tcache_string_match`, `Cache.cxx:645-655`; `tcache_buffer_match()` and
`tcache_address_match()`, lines 657-676, do the same. -/
def tcacheStringMatch (a b : Option Text) (strict : Bool) : Bool :=
  match a, b with
  | some a, some b => a == b
  | none, none => !strict
  | _, _ => false

/-- `tcache_uri_match`, `Cache.cxx:678-695`. -/
def tcacheUriMatch (a : Text) (b : Option Text) (strict : Bool) : Bool :=
  match b with
  | none => !strict
  | some b =>
    match a.dropWhile (· != 0x2f) with
    | [] => false
    | a => a == b

/-- `TranslateCacheItem::VaryMatch` of one command, `Cache.cxx:697-768`. -/
def varyMatchCommand (item : Item) (other : TranslateRequest) (command : TranslationCommand)
    (strict : Bool) : Bool :=
  let request := item.data.request
  match command with
  | .uri => tcacheUriMatch item.key other.uri strict
  | .param => tcacheStringMatch request.param other.param strict
  | .session => tcacheStringMatch request.session other.session strict
  | .realmSession => tcacheStringMatch request.realmSession other.realmSession strict
  | .listenerTag => tcacheStringMatch request.listenerTag other.listenerTag strict
  | .localAddress | .localAddressString =>
    tcacheStringMatch request.localAddress other.localAddress strict
  | .remoteHost => tcacheStringMatch request.remoteHost other.remoteHost strict
  | .host => tcacheStringMatch request.host other.host strict
  | .language => tcacheStringMatch request.acceptLanguage other.acceptLanguage strict
  | .userAgent => tcacheStringMatch request.userAgent other.userAgent strict
  | .queryString => tcacheStringMatch request.queryString other.queryString strict
  | .internalRedirect => tcacheStringMatch request.internalRedirect other.internalRedirect strict
  | .enotdir => tcacheStringMatch request.enotdir other.enotdir strict
  | .user => tcacheStringMatch request.user other.user strict
  | .other _ => !strict

/-- `TranslateCacheItem::VaryMatch`, `Cache.cxx:116-124`. -/
def varyMatch (item : Item) (vary : List TranslationCommand) (other : TranslateRequest)
    (strict : Bool) : Bool :=
  vary.all fun command => varyMatchCommand item other command strict

/-- `TranslateCacheItem::MatchSite`, `Cache.cxx:103-109`. -/
def matchSite (item : Item) (site : Text) : Bool := item.data.response.site == some site

/-- `TranslateCacheItem::InvalidateMatch` without a site, `Cache.cxx:131-135`. -/
def invalidateMatchVary (item : Item) (vary : List TranslationCommand) (other : TranslateRequest) :
    Bool :=
  varyMatch item vary other true

/-- `TranslateCacheItem::InvalidateMatch`, `Cache.cxx:137-143`. -/
def invalidateMatch (item : Item) (vary : List TranslationCommand) (other : TranslateRequest)
    (site : Option Text) : Bool :=
  site.all (matchSite item) && invalidateMatchVary item vary other

section

variable (lib : TranslationLib)

/-- `tcache_regex_input`, `Cache.cxx:519-558`, with `require_base_tail()`,
`src/uri/Base.cxx:22-30`. -/
def tcacheRegexInput (request : TranslateRequest) (response : TranslateResponse)
    (inverse : Bool) : Option Text :=
  let uri := request.uri.getD []
  let uri := if response.regexTail then uri.drop (response.base.getD []).length else uri
  let uri :=
    if if inverse then response.inverseRegexUnescape else response.regexUnescape then
      lib.uriUnescape uri
    else some uri
  uri.map fun uri =>
    let uri :=
      if response.regexOnHostUri then
        request.host.getD [] ++ ascii "/" ++ (if uri.head? = some 0x2f then uri.tail else uri)
      else uri
    if response.regexOnUserUri then request.user.getD [] ++ ascii "@" ++ uri else uri

/-- `tcache_item_match`, `Cache.cxx:775-807`. -/
def tcacheItemMatch (request : TranslateRequest) (findBase : Bool) (item : Item) : Bool :=
  let response := item.data.response
  let mismatch (inverse : Bool) (regex : Option Text) : Bool :=
    response.base.isSome && regex.any fun regex =>
      match tcacheRegexInput lib request response inverse with
      | none => true
      | some input => lib.regexMatch regex input == inverse
  if findBase && response.base.isNone then false
  else if mismatch true item.data.inverseRegex then false
  else if mismatch false item.data.regex then false
  else varyMatch item response.vary request false

end

/-- The result of `statx()`. -/
inductive Statx where
  | enoent
  | error
  | file (isRegular : Bool) (mtime : Nat)
  deriving DecidableEq, Repr

/-- `tcache_validate_mtime`, `Cache.cxx:1173-1222`, called by
`TranslateCacheItem::Validate`. -/
def tcacheValidateMtime (statx : Text → Statx) (item : Item) : Bool :=
  match item.data.response.validateMtime with
  | none => true
  | some (path, mtime) =>
    match statx path with
    | .enoent => mtime == 0
    | .error => false
    | .file isRegular t => isRegular && t == mtime

/-- `tcache`, `Cache.cxx:175-253`: the hash sets are the lists of their items. -/
structure Tcache where
  cache : Cache Text TranslateCacheItem
  perHost : List Nat := []
  perSite : List Nat := []
  active : Bool

/-- `TranslateCacheItem::GetHost`, `Cache.cxx:156-163`. -/
def getHost (item : Item) : Text := item.data.request.host.getD []

/-- `TranslateCacheItem::GetSite`, `Cache.cxx:165-172`. -/
def getSite (item : Item) : Text := item.data.response.site.getD []

namespace Tcache

section

variable (t : Tcache)

/-- The cache has changed; the hooks of destroyed items have been unlinked. -/
def withCache (cache : Cache Text TranslateCacheItem) : Tcache :=
  { t with
    cache
    perHost := t.perHost.filter (· ∉ cache.destroyed)
    perSite := t.perSite.filter (· ∉ cache.destroyed) }

/-- Unlink an item from an index and remove it from the cache. -/
def dispose (id : Nat) : Tcache := t.withCache (t.cache.remove id)

/-- `IntrusiveHashSet::remove_and_dispose_key_if()` with the disposer that removes the item from
the cache. -/
def disposeKeyIf (index : List Nat) (p : Item → Bool) : Tcache :=
  (index.filter fun id => p (t.cache.store id)).foldl dispose t

variable (request : TranslateRequest) (vary : List TranslationCommand)

/-- `tcache::InvalidateHost`, `Cache.cxx:875-888`. -/
def invalidateHost : Tcache :=
  let host := request.host.getD []
  t.disposeKeyIf t.perHost fun item => getHost item == host && invalidateMatchVary item vary request

/-- `tcache::InvalidateSite`, `Cache.cxx:890-900`. -/
def invalidateSite (site : Text) : Tcache :=
  t.disposeKeyIf t.perSite fun item => getSite item == site && invalidateMatchVary item vary request

/-- The full scan, `Cache.cxx:914`. -/
def invalidateScan (site : Option Text) : Tcache :=
  t.withCache (t.cache.removeAllMatch fun item => invalidateMatch item vary request site)

/-- `tcache::Invalidate`, `Cache.cxx:902-916`. -/
def invalidate (site : Option Text) : Tcache :=
  match site with
  | some site => t.invalidateSite request vary site
  | none =>
    if .host ∈ vary then t.invalidateHost request vary else t.invalidateScan request vary none

end

section

variable (lib : TranslationLib) (t : Tcache) (now : Nat) (statx : Text → Statx)

variable (request : TranslateRequest)

/-- `tcache_get`, `Cache.cxx:809-817`. -/
def tcacheGet (key : Text) (findBase : Bool) : Tcache × Option Nat :=
  match t.cache.getMatch now (tcacheValidateMtime statx) key
      (tcacheItemMatch lib request findBase) with
  | (cache, found) => (t.withCache cache, found)

/-- The loop of `tcache_lookup`, `Cache.cxx:841-853`, over the positions of
slashes. -/
def tcacheLookupLoop (now : Nat) (statx : Text → Statx) (request : TranslateRequest) (key : Text) :
    List Nat → Tcache → Tcache × Option Nat
  | [], t => (t, none)
  | slash :: slashes, t =>
    match t.tcacheGet lib now statx request (key.take (slash + 1)) true with
    | (t, some id) => (t, some id)
    | (t, none) => tcacheLookupLoop now statx request key slashes t

/-- The positions of slashes in a key, the last one first. One at the end is skipped, but not the
one of `"/"`, where the search starts at the end again. -/
def slashes (key : Text) : List Nat :=
  let all := (List.range key.length).reverse.filter fun i => key[i]? = some 0x2f
  match all with
  | [] => []
  | slash :: rest => if slash + 1 = key.length ∧ slash ≠ 0 then rest else all

/-- `tcache_lookup`, `Cache.cxx:819-856`. -/
def tcacheLookup (key : Text) : Tcache × Option Nat :=
  match t.tcacheGet lib now statx request key false with
  | (t, some id) => (t, some id)
  | (t, none) =>
    if request.uri.isNone then (t, none)
    else tcacheLookupLoop lib now statx request key (slashes key) t

/-- `tcache_vary_copy`, `Cache.cxx:624-643`. -/
def tcacheVaryCopy (p : Option Text) (response : TranslateResponse)
    (command : TranslationCommand) : Option Text :=
  if response.varyContains command then p else none

variable (response : TranslateResponse)

/-- The request of a new item, `Cache.cxx:954-1001`. -/
def itemRequest : ItemRequest where
  param := tcacheVaryCopy request.param response .param
  session := tcacheVaryCopy request.session response .session
  realmSession := tcacheVaryCopy request.realmSession response .realmSession
  listenerTag := tcacheVaryCopy request.listenerTag response .listenerTag
  localAddress :=
    if response.varyContains .localAddress || response.varyContains .localAddressString then
      request.localAddress
    else none
  remoteHost := tcacheVaryCopy request.remoteHost response .remoteHost
  host := tcacheVaryCopy request.host response .host
  acceptLanguage := tcacheVaryCopy request.acceptLanguage response .language
  userAgent := tcacheVaryCopy request.userAgent response .userAgent
  queryString := tcacheVaryCopy request.queryString response .queryString
  internalRedirect := tcacheVaryCopy request.internalRedirect response .internalRedirect
  enotdir := tcacheVaryCopy request.enotdir response .enotdir
  user := tcacheVaryCopy request.user response .user

/-- The time that a response stays in the cache, `Cache.cxx:932-936`. -/
def storeMaxAge : Nat :=
  if response.maxAge < 0 ∨ 24 * 3600 < response.maxAge then 24 * 3600 else response.maxAge.toNat

/-- The key of a new item, `tcache_store_response`, `Cache.cxx:600-622`. -/
def storeKey (stored : TranslateResponse) (request : TranslateRequest) (key : Text) : Text :=
  match stored.base with
  | some base => tcacheUriKey lib.toUriEscape base request
  | none => key

/-- A new item for a response and its copy. -/
def newItem (key : Text) (response stored : TranslateResponse) : Item where
  key := storeKey lib stored request key
  size := 1
  expires := now + storeMaxAge response
  data :=
    { request := itemRequest request response, response := stored, regex := response.regex
      inverseRegex := response.inverseRegex }

/-- The new item is put into the indexes, `Cache.cxx:1030-1034`. -/
def link : Tcache :=
  { t with
    perHost := if response.varyContains .host then t.cache.count :: t.perHost else t.perHost
    perSite := if response.site.isSome then t.cache.count :: t.perSite else t.perSite }

/-- `tcache_store`, `Cache.cxx:926-1040`; missing if it does not return. If
something is thrown, then nothing is stored. -/
def tcacheStore (key : Text) (response : TranslateResponse) : Option Tcache :=
  match lib.cacheStore response request.uri with
  | none => some t
  | some stored =>
    if !response.regex.all lib.compiles || !response.inverseRegex.all lib.compiles then some t
    else
      (t.cache.putMatch now (tcacheValidateMtime statx)
        (newItem lib now request key response stored) (tcacheItemMatch lib request false)).map
          fun (cache, _) => (t.link response).withCache cache

/-- `tcache_response_evaluate`, `Cache.cxx:509-517`. -/
def tcacheResponseEvaluate : Bool :=
  response.maxAge != 0 && response.wwwAuthenticate.isNone && response.authenticationInfo.isNone

/-- `TranslateCacheRequest::OnTranslateResponse`, `Cache.cxx:1068-1086`: what it
does to the cache. -/
def onTranslateResponse (key : Text) (cacheable : Bool) (response : TranslateResponse) :
    Option Tcache :=
  let t := { t with active := true }
  let t := if response.invalidate.isEmpty then t else t.invalidate request response.invalidate none
  if cacheable && tcacheResponseEvaluate response then
    t.tcacheStore lib now statx request key response
  else some t

/-- `TranslationCache::SendRequest`, `Cache.cxx:1296-1318`: what it does to the
cache. -/
def sendRequest : Tcache :=
  if t.active && tcacheRequestEvaluate request then
    match tcacheRequestKey lib.toUriEscape request with
    | some key => (t.tcacheLookup lib now statx request key).1
    | none => t
  else t

end

end Tcache

/-- What happens: requests, responses of the translation server, and the calls that clear the
cache. -/
inductive Event where
  | sendRequest (now : Nat) (statx : Text → Statx) (request : TranslateRequest)
  | response (now : Nat) (statx : Text → Statx) (request : TranslateRequest) (key : Text)
      (cacheable : Bool) (response : TranslateResponse)
  | invalidate (request : TranslateRequest) (vary : List TranslationCommand) (site : Option Text)
  | flush
  | expire (now : Nat)

namespace Tcache

/-- The effect of an event; missing if it does not return. -/
def step (lib : TranslationLib) (t : Tcache) : Event → Option Tcache
  | .sendRequest now statx request => some (t.sendRequest lib now statx request)
  | .response now statx request key cacheable response =>
    t.onTranslateResponse lib now statx request key cacheable response
  | .invalidate request vary site => some (t.invalidate request vary site)
  | .flush => some (t.withCache t.cache.flush)
  | .expire now => some (t.withCache (t.cache.expireCallback now))

/-- One event. -/
def Step (lib : TranslationLib) (t : Tcache) (e : Event) (t' : Tcache) : Prop :=
  t.step lib e = some t'

/-- A new cache, `Cache.cxx:1248-1258`. -/
def new (maxSize : Nat) (handshakeCacheable : Bool) : Tcache :=
  { cache := Cache.new maxSize, active := handshakeCacheable }

end Tcache

end BengProxy.Translation
