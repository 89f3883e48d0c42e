import BengProxy.Cache.Cache
import BengProxy.HttpCache.Vary

/-!
# The HTTP cache

Models `src/http/cache/Public.cxx`, `src/http/cache/Heap.cxx`, `src/http/cache/Item.cxx` and
`src/http/cache/Document.cxx`: a request is answered from the cache, sent to the origin server, or
sent there with the validators of a cached document. Each response to a client is recorded, with
what is known about it at that moment.

A request carries the cache key of its address. Requests that are waiting for the origin server and
those whose response body is being stored are known by a number. The times of the two clocks and
the outcome of library functions come with each event. Left out are statistics, logging, the memory
pools and the compression of the heap.
-/

namespace BengProxy.HttpCaching

open Base Text

/-- `HttpCacheDocument`, `src/http/cache/Document.hxx:12-36`, and the fields of `HttpCacheItem`,
`src/http/cache/Item.hxx:15-20`; `request` is the headers of the request it was stored for. -/
structure HttpCacheDocument where
  info : ResponseInfo
  vary : StringMap
  status : Nat
  responseHeaders : StringMap
  tag : Option Text
  body : Option Text
  request : StringMap
  deriving DecidableEq, Repr

instance : Inhabited HttpCacheDocument :=
  ⟨{ info := { expires := -1, lastModified := none, etag := none, vary := none }, vary := [],
     status := 0, responseHeaders := [], tag := none, body := none, request := [] }⟩

/-- The cache in `HttpCacheHeap`, `src/http/cache/Heap.hxx:29-46`. -/
abbrev Heap := Cache Text HttpCacheDocument

/-- A response to a client, or of the origin server. -/
structure Response where
  status : Nat
  headers : StringMap := []
  body : Option Text := none
  deriving DecidableEq, Repr

/-- `HttpCacheRequest`, `Public.cxx:52-109`. -/
structure HttpCacheRequest where
  key : Text
  headers : StringMap
  info : RequestInfo
  document : Option Nat
  eagerCache : Bool
  tag : Option Text
  deriving DecidableEq, Repr

/-- A request that has been sent to the origin server: directly, with an
`AutoFlushHttpCacheRequest`, or with a `HttpCacheRequest`. -/
inductive Waiting where
  | direct
  | autoFlush (tag : Option Text)
  | cached (r : HttpCacheRequest)
  deriving DecidableEq, Repr

/-- A request whose response body is being stored, `Public.cxx:102-105`. -/
structure Storing where
  request : HttpCacheRequest
  info : ResponseInfo
  status : Nat
  headers : StringMap
  deriving DecidableEq, Repr

/-- A response that was sent to a client: the cached document it was derived from, whether the
origin server had been asked, whether the document was fresh, and what the client wanted. -/
structure Sent where
  response : Response
  document : Option Nat
  contacted : Bool
  fresh : Bool
  noCache : Bool
  onlyIfCached : Bool
  deriving DecidableEq, Repr

/-- `HttpCache`, `Public.cxx:254-274`. -/
structure HttpCache where
  heap : Heap
  waiting : List (Nat × Waiting) := []
  storing : List (Nat × Storing) := []
  streams : List Nat := []
  nextRequest : Nat := 0
  obeyNoCache : Bool
  sent : List Sent := []

/-- The arguments of `HttpCache::Start`; `key` is the one of the address, missing if that cannot be
cached, and `lhttp` is true for a Local HTTP address. -/
structure StartParams where
  key : Option Text
  lhttp : Bool
  request : Request
  eagerCache : Bool
  ignoreNoCache : Bool
  autoFlushCache : Bool
  tag : Option Text
  deriving DecidableEq, Repr

section

variable (lib : CacheLib)

/-- `http_cache_item_match`, `Heap.cxx:13-20`. -/
def httpCacheItemMatch (headers : StringMap) (item : CacheItem Text HttpCacheDocument) : Bool :=
  httpCacheVaryFits lib item.data.vary headers

/-- `HttpCacheHeap::Get`, `Heap.cxx:22-28`. -/
def heapGet (heap : Heap) (now : Nat) (key : Text) (headers : StringMap) : Heap × Option Nat :=
  heap.getMatch now (fun _ => true) key (httpCacheItemMatch lib headers)

/-- The constructor of `HttpCacheItem`, `Item.cxx:19-39`, with the one of
`HttpCacheDocument`, `Document.cxx:12-25`. -/
def newItem (now : Nat) (systemNow : Int) (key : Text) (tag : Option Text) (info : ResponseInfo)
    (request : StringMap) (response : Response) (size : Nat) :
    CacheItem Text HttpCacheDocument :=
  let vary := storedVary lib info.vary request
  { key
    size
    expires := httpCacheCalcExpires lib now systemNow info.expires vary
    data :=
      { info, vary, status := response.status, responseHeaders := response.headers, tag
        body := response.body, request } }

/-- `HttpCacheHeap::Put`, `Heap.cxx:30-57`. -/
def heapPut (heap : Heap) (now : Nat) (item : CacheItem Text HttpCacheDocument) : Option Heap :=
  (heap.putMatch now (fun _ => true) item (httpCacheItemMatch lib item.data.request)).map (·.1)

/-- `HttpCacheHeap::FlushTag`, `Heap.cxx:98-104`. -/
def heapFlushTag (heap : Heap) (tag : Text) : Heap :=
  heap.removeAllMatch fun item => item.data.tag == some tag

/-- `UpdateHeader`, `Public.cxx:442-449`. -/
def updateHeader (headers dest : StringMap) (name : Text) : StringMap :=
  match headers.get lib.toLookup name with
  | none => dest
  | some value => dest.secureSet name value

/-- `HttpCacheItem::SetExpires`, `Item.cxx:41-49`, and the two headers,
`Public.cxx:594-604`. -/
def updateDocument (now : Nat) (systemNow : Int) (expires : Int) (headers : StringMap)
    (item : CacheItem Text HttpCacheDocument) : CacheItem Text HttpCacheDocument :=
  { item with
    expires := httpCacheCalcExpires lib now systemNow expires item.data.vary
    data :=
      { item.data with
        info := { item.data.info with expires }
        responseHeaders :=
          updateHeader lib headers
            (updateHeader lib headers item.data.responseHeaders (ascii "expires"))
            (ascii "cache-control") } }

/-- `CheckETagList`, `Public.cxx:897-908`. -/
def checkETagList (list : Text) (headers : StringMap) : Bool :=
  list == ascii "*" ||
    (headers.get lib.toLookup (ascii "etag")).any fun etag => lib.listContains list etag

section

variable (document : HttpCacheDocument)

/-- `DispatchNotModified`, `Public.cxx:910-917`. -/
def dispatchNotModified : Response :=
  { status := 304, headers := document.responseHeaders }

/-- The document has not been modified since that date, `Public.cxx:947-966`. -/
def notModifiedSince (since : Text) : Bool :=
  (document.responseHeaders.get lib.toLookup (ascii "last-modified")).any fun lastModified =>
    since == lastModified ||
      (lib.httpDateParse since != -1 && lib.httpDateParse lastModified != -1 &&
        decide (lib.httpDateParse lastModified ≤ lib.httpDateParse since))

/-- The document has been modified since that date, `Public.cxx:968-981`. -/
def modifiedSince (since : Text) : Bool :=
  (document.responseHeaders.get lib.toLookup (ascii "last-modified")).any fun lastModified =>
    lib.httpDateParse since != -1 && lib.httpDateParse lastModified != -1 &&
      decide (lib.httpDateParse since < lib.httpDateParse lastModified)

/-- `CheckCacheRequest`, `Public.cxx:919-984`: the response that it sends, or nothing
if it returns `true`. -/
def checkCacheRequest (info : RequestInfo) (document : HttpCacheDocument) : Option Response :=
  if info.ifMatch.any fun list => !checkETagList lib list document.responseHeaders then
    some { status := 412 }
  else if info.ifNoneMatch.any fun list => checkETagList lib list document.responseHeaders then
    some (dispatchNotModified document)
  else if info.ifNoneMatch.isNone ∧ info.ifModifiedSince.any (notModifiedSince lib document) then
    some (dispatchNotModified document)
  else if info.ifUnmodifiedSince.any (modifiedSince lib document) then some { status := 412 }
  else none

/-- The document has not expired, `Public.cxx:1074`. -/
def HttpCacheDocument.isFresh (systemNow : Int) : Bool :=
  decide (systemNow ≤ document.info.expires)

end

/-- `http_cache_may_serve`, `Public.cxx:1067-1075`. -/
def httpCacheMayServe (systemNow : Int) (info : RequestInfo) (document : HttpCacheDocument) :
    Bool :=
  info.onlyIfCached || (!info.noCache && document.isFresh systemNow)

namespace HttpCache

variable (s : HttpCache)

/-- A response goes to the client. -/
def send (x : Sent) : HttpCache := { s with sent := s.sent ++ [x] }

/-- A response that was derived from a cached document. -/
def sendDocument (systemNow : Int) (info : RequestInfo) (id : Nat)
    (contacted : Bool) (response : Response) : HttpCache :=
  s.send
    { response, document := some id, contacted
      fresh := (s.heap.store id).data.isFresh systemNow
      noCache := info.noCache, onlyIfCached := info.onlyIfCached }

/-- A response that was not derived from a cached document. -/
def sendOther (contacted : Bool) (response : Response) : HttpCache :=
  s.send
    { response, document := none, contacted, fresh := false, noCache := false
      onlyIfCached := false }

/-- `HttpCache::Serve`, `Public.cxx:986-1008`: the body of the response holds a
lease on the document. -/
def serve (systemNow : Int) (info : RequestInfo) (id : Nat) (contacted : Bool) : HttpCache :=
  let document := (s.heap.store id).data
  let s := s.sendDocument systemNow info id contacted
    { status := document.status, headers := document.responseHeaders, body := document.body }
  if document.body.isSome then
    { s with heap := s.heap.lock id, streams := id :: s.streams }
  else s

/-- A request is sent to the origin server. -/
def forward (w : Waiting) : HttpCache :=
  { s with waiting := (s.nextRequest, w) :: s.waiting, nextRequest := s.nextRequest + 1 }

/-- `HttpCache::Revalidate`, `Public.cxx:1024-1065`. -/
def revalidate (p : StartParams) (key : Text) (info : RequestInfo) (id : Nat) : HttpCache :=
  { s with heap := s.heap.lock id }.forward
    (.cached { key, headers := p.request.headers, info, document := some id
               eagerCache := p.eagerCache, tag := p.tag })

/-- `HttpCache::Miss`, `Public.cxx:853-895`. -/
def miss (p : StartParams) (key : Text) (info : RequestInfo) : HttpCache :=
  if info.onlyIfCached then s.sendOther false { status := 504 }
  else
    s.forward
      (.cached { key, headers := p.request.headers, info, document := none
                 eagerCache := p.eagerCache, tag := p.tag })

/-- `HttpCache::Found`, `Public.cxx:1077-1104`. -/
def found (systemNow : Int) (p : StartParams) (key : Text) (info : RequestInfo)
    (id : Nat) : HttpCache :=
  let document := (s.heap.store id).data
  match if info.noCache then none else checkCacheRequest lib info document with
  | some response => s.sendDocument systemNow info id false response
  | none =>
    if httpCacheMayServe systemNow info document then s.serve systemNow info id false
    else s.revalidate p key info id

variable (now : Nat) (systemNow : Int)

/-- `HttpCache::Use`, `Public.cxx:1106-1130`. -/
def use (p : StartParams) (key : Text) (info : RequestInfo) : HttpCache :=
  match heapGet lib s.heap now key p.request.headers with
  | (heap, none) => { s with heap }.miss p key info
  | (heap, some id) => { s with heap }.found lib systemNow p key info id

/-- `HttpCache::Remove` of a key, `Public.cxx:347-349`, with
`Heap.cxx:67-74`. -/
def removeKey (key : Text) (headers : StringMap) : HttpCache :=
  { s with heap := s.heap.removeKeyIf key (httpCacheItemMatch lib headers) }

/-- `IsModifyingMethod`, `Public.cxx:46-50`. -/
def isModifyingMethod : HttpMethod → Bool
  | .get => false
  | .other n => !lib.isSafeMethod n
  | _ => true

/-- `IsHTTPS`, `Public.cxx:1132-1138`. -/
def isHttps (headers : StringMap) : Bool :=
  headers.get lib.toLookup (ascii "x-cm4all-https") == some (ascii "on")

/-- The cache key of a request, `Public.cxx:1167-1195`: for Local HTTP, two headers
are a part of it. -/
def requestKey (p : StartParams) (key : Text) : Text :=
  if p.lhttp then
    let docroot := p.request.headers.get lib.toLookup (ascii "x-cm4all-docroot")
    (if isHttps lib p.request.headers then ascii "https;" else []) ++
      (docroot.elim [] fun docroot => lib.docrootBase32 docroot ++ ascii "=dr;") ++ key
  else key

/-- `HttpCache::Start`, `Public.cxx:1140-1235`. -/
def start (p : StartParams) : HttpCache :=
  match p.key with
  | none => s.forward .direct
  | some key =>
    if 8192 < key.length then s.forward .direct
    else
      let key := requestKey lib p key
      match httpCacheRequestEvaluate lib p.request (s.obeyNoCache && !p.ignoreNoCache) with
      | some info => s.use lib now systemNow p key info
      | none =>
        if p.autoFlushCache ∧ isModifyingMethod lib p.request.method then
          (s.removeKey lib key p.request.headers).forward (.autoFlush p.tag)
        else if httpCacheRequestInvalidate p.request.method then
          (s.removeKey lib key p.request.headers).forward .direct
        else s.forward .direct

variable (r : HttpCacheRequest)

/-- The request is destroyed and returns its lease. -/
def release : HttpCache :=
  match r.document with
  | none => s
  | some id => { s with heap := s.heap.unlock id }

/-- `HttpCacheRequest::Serve`, `Public.cxx:1015-1022`. -/
def serveRequest (id : Nat) : HttpCache :=
  match checkCacheRequest lib r.info (s.heap.store id).data with
  | some response => s.sendDocument systemNow r.info id true response
  | none => s.serve systemNow r.info id true

/-- The document is still valid; its expiry is updated, `Public.cxx:586-605`. -/
def notModified (id : Nat) (headers : StringMap) : HttpCache :=
  match httpCacheResponseEvaluate lib r.info.isRemote r.info.hasQueryString r.eagerCache systemNow
      200 headers none with
  | none => s
  | some info =>
    if systemNow ≤ info.expires then
      { s with
        heap :=
          { s.heap with
            store := Function.update s.heap.store id
              (updateDocument lib now systemNow info.expires headers (s.heap.store id)) } }
    else s

/-- The document of the request is no longer valid, `Public.cxx:625-628`. -/
def removeDocument : HttpCache :=
  match r.document with
  | none => s
  | some id => { s with heap := s.heap.remove id }

/-- A response of the origin server that replaces the document, if there is one,
`Public.cxx:625-718`; `size` is the size of the new item. -/
def newResponse (n : Nat) (r : HttpCacheRequest)
    (response : Response) (available : Option Nat) (size : Nat) : Option HttpCache :=
  let s := s.removeDocument r
  match httpCacheResponseEvaluate lib r.info.isRemote r.info.hasQueryString r.eagerCache systemNow
      response.status response.headers available with
  | none => some ((s.sendOther true response).release r)
  | some info =>
    match response.body with
    | none =>
      (heapPut lib s.heap now
        (newItem lib now systemNow r.key r.tag info r.headers response size)).map fun heap =>
          ({ s with heap }.sendOther true response).release r
    | some _ =>
      some
        ({ s with
            storing :=
              (n, { request := r, info, status := response.status, headers := response.headers }) ::
                s.storing }.sendOther true response)

/-- `HttpCacheRequest::OnHttpResponse`, `Public.cxx:577-718`. -/
def onHttpResponse (n : Nat) (r : HttpCacheRequest)
    (response : Response) (available : Option Nat) (size : Nat) : Option HttpCache :=
  match r.document with
  | none => s.newResponse lib now systemNow n r response available size
  | some id =>
    if response.status = 304 then
      some (((s.notModified lib now systemNow r id response.headers).serveRequest lib systemNow r
        id).release r)
    else if httpCachePreferCached lib (s.heap.store id).data.info response.headers then
      some ((s.serveRequest lib systemNow r id).release r)
    else s.newResponse lib now systemNow n r response available size

/-- The response to a request that has been sent to the origin server;
`AutoFlushHttpCacheRequest::OnHttpResponse`, `Public.cxx:561-575`. -/
def onResponse (n : Nat) (w : Waiting)
    (response : Response) (available : Option Nat) (size : Nat) : Option HttpCache :=
  match w with
  | .direct => some (s.sendOther true response)
  | .autoFlush tag =>
    match tag with
    | some tag =>
      if lib.statusIsError response.status then some (s.sendOther true response)
      else some ({ s with heap := heapFlushTag s.heap tag }.sendOther true response)
    | none => some (s.sendOther true response)
  | .cached r => s.onHttpResponse lib now systemNow n r response available size

/-- `HttpCacheRequest::RubberDone`, `Public.cxx:513-527`; `digest` is the new
header. -/
def rubberDone (t : Storing) (body digest : Text) (size : Nat) : Option HttpCache :=
  let headers :=
    if t.request.eagerCache ∧ !t.headers.contains lib.toLookup (ascii "digest") then
      t.headers.add (ascii "digest") digest
    else t.headers
  (heapPut lib s.heap now
    (newItem lib now systemNow t.request.key t.request.tag t.info t.request.headers
      { status := t.status, headers, body := some body } size)).map fun heap =>
        { s with heap }.release t.request

end HttpCache

/-- What happens: requests, responses and errors of the origin server, bodies that have been stored
or not, and the calls that clear the cache. -/
inductive Event where
  | start (now : Nat) (systemNow : Int) (p : StartParams)
  | response (now : Nat) (systemNow : Int) (n : Nat) (response : Response)
      (available : Option Nat) (size : Nat)
  | error (n : Nat)
  | stored (now : Nat) (systemNow : Int) (n : Nat) (body digest : Text) (size : Nat)
  | notStored (n : Nat)
  | closeStream (id : Nat)
  | flush
  | flushTag (tag : Text)
  | expire (now : Nat)

namespace HttpCache

/-- A request fails or is canceled, `Public.cxx:720-740`. -/
def onError (s : HttpCache) : Waiting → HttpCache
  | .cached r => s.release r
  | _ => s

/-- The effect of an event; missing if the event cannot happen. -/
def step (s : HttpCache) : Event → Option HttpCache
  | .start now systemNow p => some (s.start lib now systemNow p)
  | .response now systemNow n response available size => do
    let w ← s.waiting.lookup n
    { s with waiting := s.waiting.filter (·.1 ≠ n) }.onResponse lib now systemNow n w response
      available size
  | .error n => do
    let w ← s.waiting.lookup n
    return { s with waiting := s.waiting.filter (·.1 ≠ n) }.onError w
  | .stored now systemNow n body digest size => do
    let t ← s.storing.lookup n
    { s with storing := s.storing.filter (·.1 ≠ n) }.rubberDone lib now systemNow t body digest size
  | .notStored n => do
    let t ← s.storing.lookup n
    return { s with storing := s.storing.filter (·.1 ≠ n) }.release t.request
  | .closeStream id =>
    if id ∈ s.streams then
      some { s with streams := s.streams.erase id, heap := s.heap.unlock id }
    else none
  | .flush => some { s with heap := s.heap.flush }
  | .flushTag tag => some { s with heap := heapFlushTag s.heap tag }
  | .expire now => some { s with heap := s.heap.expireCallback now }

/-- One event. -/
def Step (s : HttpCache) (e : Event) (s' : HttpCache) : Prop := s.step lib e = some s'

/-- A new cache, `Public.cxx:772-787`. -/
def new (maxSize : Nat) (obeyNoCache : Bool) : HttpCache :=
  { heap := Cache.new (maxSize * 7 / 8), obeyNoCache }

end HttpCache

end

end BengProxy.HttpCaching
