import BengProxy.Base.Escape
import BengProxy.Fcgi.Protocol
import BengProxy.StringMap

/-!
# FastCGI requests

Models `src/fcgi/Serialize.cxx` and `fcgi_client_request()` in `src/fcgi/Client.cxx`: the parameters
of a request are written as name-value pairs, all of them in one record. The length of the record
is counted meanwhile, and in the end it is written to the header, which has 16 bits for it. The
buffer that is written to is a list of bytes.
-/

namespace BengProxy.Fcgi

open Base Text FcgiRecordHeader FcgiRecordType

/-- `fcgi_serialize_length`, `Serialize.cxx:36-49`: what is written, and how much. -/
def fcgiSerializeLength (length : Nat) : List UInt8 × Nat :=
  if length < 0x80 then ([UInt8.ofNat length], 1) else (be32 (length ||| 0x80000000), 4)

/-- `fcgi_serialize_pair`, `Serialize.cxx:51-62`: what is written, and how much. -/
def fcgiSerializePair (name value : Text) : List UInt8 × Nat :=
  let (nameLength, size1) := fcgiSerializeLength name.length
  let (valueLength, size2) := fcgiSerializeLength value.length
  (nameLength ++ valueLength ++ name ++ value, size1 + size2 + name.length + value.length)

/-- `FcgiParamsSerializer`, `src/fcgi/Serialize.hxx:36-61`: what has been written after the header
of the record. -/
structure FcgiParamsSerializer where
  written : List UInt8 := []
  contentLength : Nat := 0

namespace FcgiParamsSerializer

/-- The call operator, `Serialize.cxx:68-74`. -/
def add (ps : FcgiParamsSerializer) (pair : Text × Text) : FcgiParamsSerializer :=
  let (bytes, size) := fcgiSerializePair pair.1 pair.2
  { written := ps.written ++ bytes, contentLength := ps.contentLength + size }

/-- `Commit`, `Serialize.cxx:29-34`: the whole record. Without the assertion, the length is
reduced to 16 bits. -/
def commit (ps : FcgiParamsSerializer) (requestId : Nat) : List UInt8 :=
  bytes
      { type := params.code, requestId, contentLength := ps.contentLength } ++
    ps.written

end FcgiParamsSerializer

/-- A character of the name of a parameter, `Serialize.cxx:89-95`. -/
def parameterChar (c : UInt8) : UInt8 :=
  if 0x61 ≤ c ∧ c ≤ 0x7a then c - 0x20
  else if (0x41 ≤ c ∧ c ≤ 0x5a) ∨ (0x30 ≤ c ∧ c ≤ 0x39) then c
  else 0x5f

/-- The pairs of `FcgiParamsSerializer::Headers`, `Serialize.cxx:76-100`. A name is cut
off where the buffer ends. -/
def headerPairs (headers : StringMap) : List (Text × Text) :=
  (headers.filter (·.1 ≠ ascii "x-cm4all-https")).map fun (key, value) =>
    (ascii "HTTP_" ++ (key.take 506).map parameterChar, value)

/-- The parameters of `fcgi_client_request`, `Client.cxx:1265-1279`. A body that is there
has a length or not. The product token is a constant, and the id is that of the next request. -/
structure FcgiRequest where
  requestId : Nat
  method : Text
  uri : Option Text := none
  scriptFilename : Option Text := none
  scriptName : Option Text := none
  pathInfo : Option Text := none
  queryString : Option Text := none
  documentRoot : Option Text := none
  productToken : Text := []
  remoteAddr : Option Text := none
  headers : StringMap := []
  body : Option (Option Nat) := none
  params : List Text := []

/-- The pairs for the length of the body, `Client.cxx:1315-1326`. -/
def lengthPairs (body : Option (Option Nat)) : List (Text × Text) :=
  match body with
  | some (some available) =>
    [(ascii "HTTP_CONTENT_LENGTH", formatDecimal available),
      (ascii "CONTENT_LENGTH", formatDecimal available)]
  | _ => []

/-- The pair for `HTTPS`, `Client.cxx:1333-1335`. -/
def httpsPairs (l : Lookup) (headers : StringMap) : List (Text × Text) :=
  if headers.get l (ascii "x-cm4all-https") = some (ascii "on") then
    [(ascii "HTTPS", ascii "on")]
  else []

/-- The pair of a parameter that has a name and a value, `Client.cxx:1339-1343`. -/
def paramPair (param : Text) : Option (Text × Text) :=
  match splitWhile param (· ≠ 0x3d) with
  | (_, []) => none
  | ([], _ :: _) => none
  | (c :: name, _ :: value) => some (c :: name, value)

/-- All pairs in the order in which they are written, `Client.cxx:1303-1343`. -/
def requestPairs (l : Lookup) (r : FcgiRequest) : List (Text × Text) :=
  [(ascii "REQUEST_METHOD", r.method), (ascii "REQUEST_URI", r.uri.getD []),
    (ascii "SCRIPT_FILENAME", r.scriptFilename.getD []),
    (ascii "SCRIPT_NAME", r.scriptName.getD []),
    (ascii "PATH_INFO", r.pathInfo.getD []),
    (ascii "QUERY_STRING", r.queryString.getD []),
    (ascii "DOCUMENT_ROOT", r.documentRoot.getD []),
    (ascii "SERVER_SOFTWARE", r.productToken)] ++
  r.remoteAddr.toList.map (ascii "REMOTE_ADDR", ·) ++
  lengthPairs r.body ++
  (r.headers.get l (ascii "content-type")).toList.map (ascii "CONTENT_TYPE", ·) ++
  httpsPairs l r.headers ++
  headerPairs r.headers ++
  r.params.filterMap paramPair

/-- The parameters that have been serialized. -/
def serializedParams (l : Lookup) (r : FcgiRequest) : FcgiParamsSerializer :=
  (requestPairs l r).foldl .add { }

/-- The record that begins a request, `Client.cxx:1284-1299`: the role is that of a
responder, and the connection is kept. -/
def beginRequestRecord (requestId : Nat) : List UInt8 :=
  bytes
      { type := beginRequest.code, requestId, contentLength := 8 } ++
    (be16 1 ++ [1, 0, 0, 0, 0, 0])

/-- A record without content. -/
def emptyRecord (type : FcgiRecordType) (requestId : Nat) : List UInt8 :=
  bytes { type := type.code, requestId, contentLength := 0 }

/-- What `fcgi_client_request` writes before the body, `Client.cxx:1281-1366`. -/
def fcgiClientRequest (l : Lookup) (r : FcgiRequest) : List UInt8 :=
  beginRequestRecord r.requestId ++ ((serializedParams l r).commit r.requestId ++
    (emptyRecord .params r.requestId ++
      if r.body.isSome then [] else emptyRecord .stdin r.requestId))

/-- A length of a name or a value, by the FastCGI specification. -/
def parseLength : List UInt8 → Option (Nat × List UInt8)
  | [] => none
  | a :: rest =>
    if a < 0x80 then some (a.toNat, rest)
    else
      match rest with
      | b :: c :: d :: rest => some (ofBe32 a b c d - 0x80000000, rest)
      | _ => none

/-- The first name-value pair. -/
def parsePair (s : List UInt8) : Option ((Text × Text) × List UInt8) :=
  match parseLength s with
  | none => none
  | some (n, s) =>
    match parseLength s with
    | none => none
    | some (v, s) =>
      if s.length < n + v then none
      else some ((s.take n, (s.drop n).take v), s.drop (n + v))

/-- All name-value pairs; missing without enough fuel. -/
def parsePairs : Nat → List UInt8 → Option (List (Text × Text))
  | _, [] => some []
  | 0, _ :: _ => none
  | fuel + 1, c :: s =>
    match parsePair (c :: s) with
    | none => none
    | some (pair, s) => (parsePairs fuel s).map (pair :: ·)

/-- The parameters in a stream of records: the contents of the records for them are put together. -/
def receivedParams (s : List UInt8) : Option (List (Text × Text)) :=
  match parseRecords s.length s with
  | none => none
  | some records =>
    let content := (records.filter (·.type = params.code)).flatMap (·.content)
    parsePairs content.length content

end BengProxy.Fcgi
