import BengProxy.Http.Framing
import BengProxy.Http.HeaderParser

/-!
# Reading the headers of a request

Models how `HttpServerConnection`, `src/http/server/Read.cxx`, reads the request line and the
headers. What has been received and not yet consumed is presented to `FeedHeaders()` again together
with what is received next.

The parser of the method looks at the bytes behind the request line, which may be more than what has
been received. So the memory behind the buffer is an argument. Timers and the callback
`RequestHeadersFinished()` are left out. If the connection is destroyed, then only the reason
remains.
-/

namespace BengProxy.Http.Server

open Base Text List

/-- The library functions. -/
structure ServerLib extends HeaderLineLib, HeaderLib

/-- `HttpMethod`: those that the server understands. -/
inductive HttpMethod where
  | delete
  | get
  | post
  | put
  | patch
  | propfind
  | proppatch
  | report
  | head
  | options
  | trace
  | mkcol
  | move
  | copy
  | lock
  | unlock
  deriving DecidableEq, Repr

/-- How a request line begins for each method, `Read.cxx:42-121`. No one is the
beginning of another one. -/
def methodTexts : List (Text × HttpMethod) :=
  [ (ascii "DELETE ", .delete), (ascii "GET ", .get), (ascii "POST ", .post), (ascii "PUT ", .put),
    (ascii "PATCH ", .patch), (ascii "PROPFIND ", .propfind), (ascii "PROPPATCH ", .proppatch),
    (ascii "REPORT ", .report), (ascii "HEAD ", .head), (ascii "OPTIONS ", .options),
    (ascii "TRACE ", .trace), (ascii "MKCOL ", .mkcol), (ascii "MOVE ", .move),
    (ascii "COPY ", .copy), (ascii "LOCK ", .lock), (ascii "UNLOCK ", .unlock) ]

/-- `ParseHttpMethod`, `Read.cxx:38-124`: the method, and the number of characters
up to the first one after the space. -/
def parseHttpMethod (s : Text) : Option (HttpMethod × Nat) :=
  (methodTexts.find? fun p => p.1.isPrefixOf s).map fun p => (p.2, p.1.length)

/-- `HttpServerConnection::Request::read_state`, `src/http/server/Internal.hxx:174-187`. -/
inductive ReadState where
  | start
  | headers
  | body
  | «end»
  deriving DecidableEq, Repr

/-- `HttpServerRequest`, `src/http/server/Request.hxx`: the fields that are filled here. -/
structure HttpServerRequest where
  method : HttpMethod
  uri : Text
  headers : StringMap := []
  deriving DecidableEq, Repr

/-- `HttpServerConnection::Request`, `src/http/server/Internal.hxx:154-250`, with what
`HeadersFinished()` has found out; `bytes_received` is a field of the connection. -/
structure Request where
  readState : ReadState := .start
  request : Option HttpServerRequest := none
  error : Option (Nat × String) := none
  ignoreHeaders : Bool := false
  finished : Option RequestState := none
  deriving DecidableEq, Repr

/-- `HttpServerConnection`, `src/http/server/Internal.hxx:37`. -/
structure HttpServerConnection where
  request : Request := {}
  bytesReceived : Nat := 0
  deriving DecidableEq, Repr

/-- Why a connection was destroyed: an error, a request that is not HTTP 1.x, which is answered with
a text, or an access to memory that does not exist. -/
inductive Rejection where
  | protocolError (message : String)
  | requiresHttp11
  | outOfBounds
  deriving DecidableEq, Repr

/-- `BufferedResult`: those that `FeedHeaders` returns; the others destroy the connection. -/
inductive BufferedResult where
  | ok
  | more
  deriving DecidableEq, Repr

namespace Request

/-- `Request::SetError`, `src/http/server/Internal.hxx:233-240`. -/
def setError (s : Request) (status : Nat) (message : String) : Request :=
  { s with error := some (s.error.getD (status, message)) }

/-- The part of `ParseRequestLine` after the method has been found,
`Read.cxx:149-175`: `line` is what remains of the line, and `unbounded` if its
length has fallen below zero, so that it extends to the end of the memory. -/
def parseUri (s : Request) (method : HttpMethod) (line : Text) (unbounded : Bool) :
    Except Rejection Request :=
  match splitWhile line (· ≠ 0x20) with
  | (_, []) => .error (if unbounded then .outOfBounds else .requiresHttp11)
  | (uri, _ :: version) =>
    if unbounded ∧ version.length < 5 ∧ version.isPrefixOf (ascii "HTTP/") then .error .outOfBounds
    else if !(ascii "HTTP/").isPrefixOf version then .error .requiresHttp11
    else if 8192 ≤ uri.length then
      .ok { s.setError 414 "Request URI is too long\n" with
        ignoreHeaders := true
        request := some { method, uri := uri.take 1024 }
        readState := .headers }
    else .ok { s with request := some { method, uri }, readState := .headers }

/-- `HttpServerConnection::ParseRequestLine`, `Read.cxx:126-176`, of a line that
stands in the memory. -/
def parseRequestLine (s : Request) (line memory : Text) : Except Rejection Request :=
  if line.length < 5 then .error (.protocolError "malformed request line")
  else
    match parseHttpMethod memory with
    | none => .error (.protocolError "unrecognized request method")
    | some (method, n) =>
      if n ≤ line.length then s.parseUri method (line.drop n) false
      else s.parseUri method (memory.drop n) true

section

variable (lib : ServerLib)

/-- `HttpServerConnection::HeadersFinished`, `Read.cxx:178-273`. -/
def headersFinished (s : Request) : Except Rejection Request :=
  let headers := (s.request.map (·.headers)).getD []
  let found := serverHeadersFinished lib.toHeaderLib headers
  let s := match found.error with
    | none => s
    | some message => s.setError 417 message
  match found.framing with
  | .rejected message => .error (.protocolError message)
  | .noBody | .empty => .ok { s with readState := .end, finished := some found }
  | _ => .ok { s with readState := .body, finished := some found }

/-- A header line, `Read.cxx:287-304`; malformed ones are ignored. -/
def headerLine (s : Request) (line : Text) : Request :=
  if s.ignoreHeaders then s
  else if maxHttpHeaderSize ≤ line.length then
    { s.setError 431 "Request header is too long\n" with ignoreHeaders := true }
  else
    { s with
      request := s.request.map fun r =>
        { r with headers := (headerParseLine lib.toHeaderLineLib r.headers line).getD r.headers } }

/-- `HttpServerConnection::HandleLine`, `Read.cxx:275-312`. -/
def handleLine (s : Request) (line memory : Text) : Except Rejection Request :=
  if s.readState = .start then s.parseRequestLine line memory
  else if line ≠ [] then .ok (s.headerLine lib line)
  else s.headersFinished lib

/-- The loop of `FeedHeaders`, `Read.cxx:339-355`: the rest of the buffer, which
`behind` follows in the memory. -/
def feedLoop (behind : Text) (s : Request) (remaining : Text) : Except Rejection (Request × Text) :=
  match _h : cut 0x0a remaining with
  | none => .ok (s, remaining)
  | some (line, rest) =>
    match s.handleLine lib (stripRight lib.toHeaderLineLib line) (remaining ++ behind) with
    | .error e => .error e
    | .ok s => if s.readState = .headers then feedLoop behind s rest else .ok (s, rest)
termination_by remaining.length
decreasing_by
  have hle := length_of_cut _h
  omega

end

end Request

namespace HttpServerConnection

variable (lib : ServerLib)

/-- `HttpServerConnection::FeedHeaders`, `Read.cxx:314-364`: how much has been
consumed. -/
def feedHeaders (s : HttpServerConnection) (b behind : Text) :
    Except Rejection (HttpServerConnection × Nat × BufferedResult) :=
  if maxTotalHttpHeaderSize ≤ s.bytesReceived then
    match (s.request.setError 431 "Too many request headers\n").headersFinished lib with
    | .error e => .error e
    | .ok request =>
      let finished := request.finished.map fun found => { found with keepAlive := false }
      .ok ({ s with request := { request with finished } }, b.length, .ok)
  else
    match s.request.feedLoop lib behind b with
    | .error e => .error e
    | .ok (request, remaining) =>
      let consumed := b.length - remaining.length
      .ok ({ request, bytesReceived := s.bytesReceived + consumed }, consumed,
        if request.readState = .headers then .more else .ok)

end HttpServerConnection

/-- The connection with the buffer of its socket, or why it was destroyed. -/
inductive Receiver where
  | active (connection : HttpServerConnection) (buffer : Text)
  | destroyed (reason : Rejection)
  deriving DecidableEq, Repr

/-- The headers have not been finished. -/
def Request.reading (s : Request) : Bool := s.readState = .start || s.readState = .headers

/-- Something is received: it is appended to the buffer, which `FeedHeaders` sees as long as the
headers have not been finished, `Read.cxx:399-428`. -/
def Receiver.receive (lib : ServerLib) (r : Receiver) (data behind : Text) : Receiver :=
  match r with
  | .destroyed reason => .destroyed reason
  | .active connection buffer =>
    if connection.request.reading then
      match connection.feedHeaders lib (buffer ++ data) behind with
      | .error reason => .destroyed reason
      | .ok (connection, consumed, _) => .active connection ((buffer ++ data).drop consumed)
    else .active connection (buffer ++ data)

/-- Several pieces are received, each with the memory that is behind the buffer then. -/
def receiveAll (lib : ServerLib) (pieces : List (Text × Text)) : Receiver :=
  pieces.foldl (fun r p => r.receive lib p.1 p.2) (.active {} [])

private theorem methodTexts_word :
    ∀ p ∈ methodTexts, p.1.getLast? = some 0x20 ∧ (∀ ch ∈ p.1.dropLast, 0x20 < ch) ∧
      (0x0a : UInt8) ∉ p.1 := by
  decide +kernel

private theorem methodTexts_unique :
    ∀ p ∈ methodTexts, ∀ q ∈ methodTexts, p.1.isPrefixOf q.1 = true → p = q := by
  decide +kernel

private theorem parseHttpMethod_eq_some_iff {m : Text} {me : HttpMethod} {n : Nat} :
    parseHttpMethod m = some (me, n) ↔
      ∃ p ∈ methodTexts, p.1 <+: m ∧ p.2 = me ∧ p.1.length = n := by
  rw [parseHttpMethod, Option.map_eq_some_iff]
  constructor
  · rintro ⟨p, hp, he⟩
    cases he
    have hme : p.1.isPrefixOf m = true := by simpa using find?_some hp
    exact ⟨p, mem_of_find?_eq_some hp, isPrefixOf_iff_prefix.mp hme, rfl, rfl⟩
  · rintro ⟨p, hp, hme, rfl, rfl⟩
    cases hfi : methodTexts.find? fun p => p.1.isPrefixOf m with
    | none =>
      have hno := find?_eq_none.mp hfi p hp
      exact absurd (List.isPrefixOf_iff_prefix.mpr hme) hno
    | some q =>
      -- both are at the beginning of the memory, so one is the beginning of the other
      have hq := mem_of_find?_eq_some hfi
      have hfo : q.1.isPrefixOf m = true := by simpa using find?_some hfi
      have hm' := isPrefixOf_iff_prefix.mp hfo
      have hsa : q = p := by
        rcases prefix_or_prefix_of_prefix hm' hme with hqp | hpq
        · exact methodTexts_unique q hq p hp (List.isPrefixOf_iff_prefix.mpr hqp)
        · exact (methodTexts_unique p hp q hq (List.isPrefixOf_iff_prefix.mpr hpq)).symm
      exact ⟨q, rfl, by rw [hsa]⟩

/-- What does not contain the end of a line is found within the line. -/
theorem prefix_append_cons_iff {c : UInt8} {w l x : Text} (h : c ∉ w) :
    w <+: l ++ c :: x ↔ w <+: l := by
  constructor
  · intro hw
    rcases prefix_or_prefix_of_prefix hw (prefix_append l (c :: x)) with hwl | ⟨t, rfl⟩
    · exact hwl
    cases t with
    | nil => exact ⟨[], by simp only [append_nil]⟩
    | cons d t =>
      have hc := (prefix_append_right_inj l).mp hw
      rw [cons_prefix_cons] at hc
      rw [hc.1] at h
      exact absurd (mem_append_right l mem_cons_self) h
  · exact fun hw => hw.trans (prefix_append l (c :: x))

private theorem exists_stripped (lib : HeaderLineLib) (line : Text) :
    ∃ white, line = stripRight lib line ++ white ∧ ∀ ch ∈ white, lib.isWhitespace ch = true := by
  refine ⟨(line.reverse.takeWhile lib.isWhitespace).reverse, ?_, fun ch hch => ?_⟩
  · rw [stripRight, ← reverse_append, takeWhile_append_dropWhile, reverse_reverse]
  · exact all_eq_true.mp all_takeWhile ch (mem_reverse.mp hch)

/-- The method that has been recognised ends within the line, exactly if the line is not one of the
longer methods followed by nothing but white space: stripping has removed the space that is looked
for in the memory. -/
theorem parseHttpMethod_within_iff {lib : ServerLib}
    (hwh : ∀ ch, lib.isWhitespace ch = decide (ch ≤ 0x20)) {buffer line rest : Text}
    (hc : cut 0x0a buffer = some (line, rest)) (behind : Text) :
    (5 ≤ (stripRight lib.toHeaderLineLib line).length →
        ∀ method n, parseHttpMethod (buffer ++ behind) = some (method, n) →
          n ≤ (stripRight lib.toHeaderLineLib line).length) ↔
      ¬ ∃ p ∈ methodTexts, 5 ≤ (stripRight lib.toHeaderLineLib line).length ∧
        p.1 = stripRight lib.toHeaderLineLib line ++ [0x20] ∧ p.1 <+: line := by
  obtain ⟨hbuffer, -⟩ := eq_of_cut hc
  obtain ⟨white, hline, hal⟩ := exists_stripped lib.toHeaderLineLib line
  generalize stripRight lib.toHeaderLineLib line = stripped at *
  have hme : buffer ++ behind = line ++ 0x0a :: (rest ++ behind) := by simp [hbuffer]
  rw [hme]
  constructor
  · rintro h ⟨p, hp, hlen, hw, hpr⟩
    have hpa := parseHttpMethod_eq_some_iff.mpr
      ⟨p, hp, hpr.trans (prefix_append line (0x0a :: (rest ++ behind))), rfl, rfl⟩
    have hle := h hlen _ _ hpa
    rw [hw, length_append, length_singleton] at hle
    omega
  · intro h hlen method n hpa
    obtain ⟨p, hp, hpr, -, rfl⟩ := parseHttpMethod_eq_some_iff.mp hpa
    obtain ⟨hla, hv, hfe⟩ := methodTexts_word p hp
    have hp' := (prefix_append_cons_iff hfe).mp hpr
    by_contra hg
    apply h ⟨p, hp, hlen, ?_, hp'⟩
    -- the line is a beginning of the method, and what was stripped is white space
    obtain ⟨tail, ht⟩ := prefix_of_prefix_length_le
      (hline ▸ prefix_append stripped white) hp' (by omega)
    rw [hline, ← ht, prefix_append_right_inj] at hp'
    rw [← ht] at hg hla hv ⊢
    rcases eq_nil_or_concat tail with rfl | ⟨front, last, rfl⟩
    · simp at hg
    rw [concat_eq_append] at *
    rw [← append_assoc, getLast?_concat, Option.some.injEq] at hla
    rw [← append_assoc, dropLast_concat] at hv
    have hfr : front = [] := by
      apply eq_nil_iff_forall_not_mem.mpr
      intro ch hch
      have hb := hal ch (hp'.subset (mem_append_left _ hch))
      have hgr := hv ch (mem_append_right _ hch)
      rw [hwh, decide_eq_true_eq] at hb
      exact absurd hgr (UInt8.not_lt.mpr hb)
    rw [hfr, hla, nil_append]

/-- White space is everything up to the space. -/
def plainServerLib : ServerLib where
  toHeaderLib := plainLib
  nameValid name := name ≠ []
  isWhitespace ch := ch ≤ 0x20

/-- The method of an ordinary request ends within the line. -/
theorem parseHttpMethod_within_get :
    parseHttpMethod (ascii "GET / HTTP/1.1\r\n" ++ []) = some (.get, 4) ∧
      4 ≤ (stripRight plainServerLib.toHeaderLineLib (ascii "GET / HTTP/1.1\r")).length :=
  have hpa : parseHttpMethod (ascii "GET / HTTP/1.1\r\n" ++ []) = some (.get, 4) := by
    decide +kernel
  have hc : cut 0x0a (ascii "GET / HTTP/1.1\r\n") = some (ascii "GET / HTTP/1.1\r", []) := by
    decide +kernel
  ⟨hpa, (@parseHttpMethod_within_iff plainServerLib (fun _ => rfl) _ _ _ hc []).mpr
    (by decide +kernel) (by decide +kernel) .get 4 hpa⟩

/-- The method has seven characters with its space, and the line has six. -/
theorem parseHttpMethod_behind_line :
    cut 0x0a (ascii "DELETE \r\n") = some (ascii "DELETE \r", []) ∧
      stripRight plainServerLib.toHeaderLineLib (ascii "DELETE \r") = ascii "DELETE" ∧
      parseHttpMethod (ascii "DELETE \r\n") = some (.delete, 7) := by
  decide +kernel

/-- `BufferedResult`: what `Feed` returns. -/
inductive FeedResult where
  | ok
  | more
  | again
  | destroyed
  deriving DecidableEq, Repr

/-- What is done with the connection: it is destroyed, it is written to, or the request in it is
submitted. -/
inductive Access where
  | destroy (reason : Rejection)
  | write
  | submit
  deriving DecidableEq, Repr

namespace HttpServerConnection

/-- `FeedHeaders`, `Read.cxx:314-364`: what is done and returned. The result of `HeadersFinished()`
is not looked at if there are too many headers. -/
def feedHeadersTrace (lib : ServerLib) (s : HttpServerConnection) (b behind : Text) :
    List Access × FeedResult :=
  if maxTotalHttpHeaderSize ≤ s.bytesReceived then
    match (s.request.setError 431 "Too many request headers\n").headersFinished lib with
    | .error e => ([.destroy e, .write], .ok)
    | .ok _ => ([.write], .ok)
  else
    match s.request.feedLoop lib behind b with
    | .error e => ([.destroy e], .destroyed)
    | .ok (request, _) => ([.write], if request.readState = .headers then .more else .ok)

/-- `Feed`, `Read.cxx:399-428`, before the headers have been finished; `freed` is what is found in
the memory of a connection that was destroyed. -/
def feedTrace (lib : ServerLib) (freed : ReadState) (s : HttpServerConnection) (b behind : Text) :
    List Access × FeedResult :=
  let (accesses, result) := s.feedHeadersTrace lib b behind
  let readState := match s.feedHeaders lib b behind with
    | .error _ => freed
    | .ok (s, _) => s.request.readState
  if result = .ok ∧ (readState = .body ∨ readState = .end) then
    (accesses ++ [.submit], if readState = .body then .again else .ok)
  else (accesses, result)

end HttpServerConnection

variable {lib : ServerLib}

private theorem headersFinished_error_iff (s : Request) :
    (∃ e, s.headersFinished lib = .error e) ↔
      RequestRejected lib.toHeaderLib ((s.request.map (·.headers)).getD []) := by
  rw [← (requestFraming_spec lib.toHeaderLib _).1, Request.headersFinished]
  generalize hf : (serverHeadersFinished _ _).framing = framing
  have he : requestFraming lib.toHeaderLib _ = framing := hf
  rw [he]
  cases framing <;> simp [Framing.isRejected]

/-- A connection that is destroyed while its headers are read is not accessed afterwards, and this
is what is returned, exactly if there are not too many headers that contradict each other. -/
theorem feedTrace_destroyed_iff (s : HttpServerConnection) (b behind : Text) :
    (∀ freed e, s.feedHeaders lib b behind = .error e →
        s.feedHeadersTrace lib b behind = ([.destroy e], .destroyed) ∧
          s.feedTrace lib freed b behind = ([.destroy e], .destroyed)) ↔
      ¬ (maxTotalHttpHeaderSize ≤ s.bytesReceived ∧
        RequestRejected lib.toHeaderLib ((s.request.request.map (·.headers)).getD [])) := by
  unfold HttpServerConnection.feedTrace HttpServerConnection.feedHeadersTrace
    HttpServerConnection.feedHeaders
  by_cases hm : maxTotalHttpHeaderSize ≤ s.bytesReceived
  · have hr : _ ↔ RequestRejected _ ((s.request.request.map (·.headers)).getD []) :=
      @headersFinished_error_iff lib (s.request.setError 431 "Too many request headers\n")
    simp only [hm, ← hr]
    cases (s.request.setError 431 "Too many request headers\n").headersFinished lib with
    | error e => simpa using ⟨.start⟩
    | ok request => simp
  simp only [hm, false_and, not_false_eq_true, iff_true]
  intro freed e he
  cases hl : s.request.feedLoop lib behind b with
  | error e' =>
    rw [hl] at he
    cases he
    simp
  | ok turn =>
    rw [hl] at he
    cases he

/-- Headers of 64 kB with an upgrade that has a length: the connection is written to after it was
destroyed, and everything is said to be fine. -/
theorem feedTrace_after_destroy :
    let headers : StringMap := [(ascii "upgrade", ascii "x"), (ascii "content-length", ascii "1")]
    let s : HttpServerConnection :=
      { request := { readState := .headers, request := some { method := .get, uri := [], headers } }
        bytesReceived := 65536 }
    let e := Rejection.protocolError "cannot upgrade with Content-Length request header"
    s.feedHeaders plainServerLib (ascii "x\n") [] = .error e ∧
      s.feedHeadersTrace plainServerLib (ascii "x\n") [] = ([.destroy e, .write], .ok) := by
  decide

end BengProxy.Http.Server
