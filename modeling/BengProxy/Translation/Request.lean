import BengProxy.Base.Escape

/-!
# Translation requests and their cache keys

Models `TranslateRequest`, `src/translation/Request.hxx`, and the functions of
`src/translation/Cache.cxx` that decide whether a request can be answered from the cache and under
which key. A null pointer, or a span of null, is a missing value. The function `UriEscapeView()` is
a parameter. The hash of a key is left out.
-/

namespace BengProxy.Translation

open Base Text

/-- `TranslationCommand`: the ones that the cache can tell apart, and all others. -/
inductive TranslationCommand where
  | uri
  | param
  | session
  | realmSession
  | listenerTag
  | localAddress
  | localAddressString
  | remoteHost
  | host
  | language
  | userAgent
  | queryString
  | internalRedirect
  | enotdir
  | user
  | other (n : Nat)
  deriving DecidableEq, Repr

/-- `TranslationLayoutItem`, `src/translation/Layout.hxx:16-42`. -/
inductive TranslationLayoutItem where
  | base (value : Text)
  | regex (value : Text)
  deriving DecidableEq, Repr

/-- The assertions of `tcache_uri_key()` hold if both values are missing. -/
theorem assertion_of_none {α β : Type} : (none : Option α) = none → (none : Option β) = none :=
  fun _ => rfl

/-- `TranslateRequest`, `Request.hxx:21-157`: the fields that the cache looks at,
with the assertions of `tcache_uri_key()`. -/
structure TranslateRequest where
  listenerTag : Option Text := none
  localAddress : Option Text := none
  remoteHost : Option Text := none
  host : Option Text := none
  userAgent : Option Text := none
  acceptLanguage : Option Text := none
  authorization : Option Text := none
  uri : Option Text := none
  queryString : Option Text := none
  widgetType : Option Text := none
  session : Option Text := none
  realmSession : Option Text := none
  recoverSession : Option Text := none
  param : Option Text := none
  layout : Option Text := none
  layoutItem : Option TranslationLayoutItem := none
  internalRedirect : Option Text := none
  check : Option Text := none
  checkHeader : Option Text := none
  auth : Option Text := none
  httpAuth : Option Text := none
  tokenAuth : Option Text := none
  wantFullUri : Option Text := none
  chain : Option Text := none
  chainHeader : Option Text := none
  want : List TranslationCommand := []
  fileNotFound : Option Text := none
  contentTypeLookup : Option Text := none
  suffix : Option Text := none
  enotdir : Option Text := none
  directoryIndex : Option Text := none
  mountListenStream : Option Text := none
  probePathSuffixes : Option Text := none
  probeSuffix : Option Text := none
  readFile : Option Text := none
  user : Option Text := none
  status : UInt16 := 0
  pathExists : Bool := false
  layoutItem_none : layout = none → layoutItem = none := by
    first | exact assertion_of_none | (intro h; cases h)
  probeSuffix_none : probePathSuffixes = none → probeSuffix = none := by
    first | exact assertion_of_none | (intro h; cases h)
  deriving DecidableEq, Repr

section

variable (lib : UriEscape)

/-- An escaped component with its mark, `Cache.cxx:305-321`. -/
def markedPart (mark : Text) : Option Text → Text
  | none => []
  | some value => lib.escape value ++ mark

/-- An escaped component after its mark, `Cache.cxx:343-347,372-376`. -/
def introducedPart (mark : Text) : Option Text → Text
  | none => []
  | some value => mark ++ lib.escape value

variable (r : TranslateRequest)

/-- The suffixes to probe for, `Cache.cxx:323-335`. -/
def probePart : Text :=
  match r.probePathSuffixes with
  | none => []
  | some value =>
    lib.escape value ++ ascii "=PPS" ++
      r.probeSuffix.elim [] fun suffix => ascii ":" ++ suffix ++ ascii "]"

/-- A flag, `Cache.cxx:337-341`. -/
def flagPart (mark : Text) (flag : Bool) : Text := if flag then mark else []

/-- The item of a layout, `Cache.cxx:353-365`. -/
def layoutItemPart : Option TranslationLayoutItem → Text
  | none => []
  | some (.base value) => ascii "--" ++ value
  | some (.regex value) => ascii "-~" ++ value

/-- The layout, `Cache.cxx:349-370`. -/
def layoutPart : Text :=
  match r.layout with
  | none => []
  | some value => lib.escape value ++ layoutItemPart r.layoutItem ++ ascii "=L|"

/-- The header to be checked, `Cache.cxx:378-381`. -/
def checkHeaderPart (checkHeader : Option Text) : Text :=
  checkHeader.elim [] fun value => ascii "|CH=" ++ value

/-- The host, `Cache.cxx:383-389`. -/
def hostPart (host : Option Text) : Text := host.elim [] fun host => host ++ ascii ":"

/-- The status, `Cache.cxx:391-393`. -/
def statusPart (status : UInt16) : Text :=
  if status = 0 then [] else ascii "ERR" ++ formatDecimal status.toNat ++ ascii "_"

/-- What stands before the URI, `Cache.cxx:303-393`. -/
def keyParts : List Text :=
  [ markedPart lib (ascii "=RF]") r.readFile, markedPart lib (ascii "=DIR]") r.directoryIndex,
    markedPart lib (ascii "=FNF]") r.fileNotFound,
    probePart lib r,
    flagPart (ascii "|PE_") r.pathExists,
    flagPart (ascii "|W_") (!r.want.isEmpty),
    introducedPart lib (ascii "|WFU=") r.wantFullUri,
    layoutPart lib r,
    introducedPart lib (ascii "|CHECK=") r.check,
    checkHeaderPart r.checkHeader,
    hostPart r.host,
    statusPart r.status ]

/-- `tcache_uri_key`, `Cache.cxx:287-399`; both callers pass the fields of a
request with the URI. -/
def tcacheUriKey (uri : Text) (r : TranslateRequest) : Text := (keyParts lib r).flatten ++ uri

/-- `tcache_is_content_type_lookup`, `Cache.cxx:401-408`. -/
def tcacheIsContentTypeLookup : Bool :=
  r.contentTypeLookup.any (·.length ≤ 256) && r.suffix.isSome

/-- `tcache_content_type_lookup_key`, `Cache.cxx:410-422`. -/
def tcacheContentTypeLookupKey : Text :=
  ascii "CTL|" ++ lib.escape (r.contentTypeLookup.getD []) ++ ascii "|" ++ r.suffix.getD []

/-- `tcache_chain_key`, `Cache.cxx:424-439`. -/
def tcacheChainKey : Text :=
  ascii "CHAIN|" ++ lib.escape (r.chain.getD []) ++ ascii "=" ++
    if r.status = 0 then [] else formatDecimal r.status.toNat

/-- `tcache_mount_listen_stream_key`, `Cache.cxx:441-451`. -/
def tcacheMountListenStreamKey : Text :=
  ascii "MLS|" ++ lib.escape (r.mountListenStream.getD [])

/-- `tcache_request_key`, `Cache.cxx:453-483`. -/
def tcacheRequestKey : Option Text :=
  if tcacheIsContentTypeLookup r then some (tcacheContentTypeLookupKey lib r)
  else if r.chain.isSome then some (tcacheChainKey lib r)
  else if r.mountListenStream.isSome then some (tcacheMountListenStreamKey lib r)
  else
    match r.uri with
    | some uri => some (tcacheUriKey lib uri r)
    | none => r.widgetType

end

/-- `tcache_request_evaluate`, `Cache.cxx:485-507`. -/
def tcacheRequestEvaluate (r : TranslateRequest) : Bool :=
  (r.uri.isSome || r.widgetType.isSome || r.mountListenStream.isSome || r.chain.isSome ||
    tcacheIsContentTypeLookup r) &&
  r.chainHeader.isNone && r.recoverSession.isNone && r.httpAuth.isNone && r.tokenAuth.isNone &&
  r.auth.isNone &&
  r.mountListenStream.all (·.length < 256) && r.check.all (·.length < 256) &&
  r.wantFullUri.all (·.length ≤ 256) && r.probePathSuffixes.all (·.length ≤ 256) &&
  r.fileNotFound.all (·.length ≤ 256) && r.directoryIndex.all (·.length ≤ 256) &&
  r.readFile.all (·.length ≤ 256) &&
  r.authorization.isNone

end BengProxy.Translation
