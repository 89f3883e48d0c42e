import BengProxy.Base.Number
import BengProxy.StringMap
import Mathlib.Data.List.TakeWhile

/-!
# Where a message body ends

Models `HttpServerConnection::HeadersFinished`, `src/http/server/Read.cxx`, and
`HttpClient::HeadersFinished`, `src/http/Client.cxx`: the headers decide whether there is a body
and how its end is found. Both look at one `Transfer-Encoding` header only, and treat every value
other than `chunked` as if there were no such header; and they look at one `Content-Length` header
only.
-/

namespace BengProxy.Http

open Base Text List

/-- The outcome: the message is rejected with an error message, or its body is missing, empty, of a
known length, in chunks or the rest of the connection. -/
inductive Framing where
  | rejected (message : String)
  | noBody
  | empty
  | contentLength (n : Nat)
  | chunked
  | untilClose
  deriving DecidableEq, Repr

/-- The library functions that are called: the lookup in the header map, `http_list_contains_i()`
and `http_status_is_empty()`. -/
structure HeaderLib extends Lookup where
  listContainsI : Text → Text → Bool
  statusIsEmpty : Nat → Bool

/-- `transfer_encoding_header`, `src/http/CommonHeaders.hxx:46`. -/
def transferEncodingHeader : Text := ascii "transfer-encoding"

/-- `content_length_header`, `src/http/CommonHeaders.hxx:20`. -/
def contentLengthHeader : Text := ascii "content-length"

section

variable (lib : HeaderLib) (headers : StringMap)

/-- `http_is_upgrade`, `src/http/Upgrade.cxx:10-14`. -/
def httpIsUpgrade : Bool := (headers.get lib.toLookup (ascii "upgrade")).isSome

/-- The comparison with `"chunked"`, `Read.cxx:214`, `Client.cxx:796`. -/
def isChunked (transferEncoding : Option Text) : Bool :=
  transferEncoding.any (equalIgnoreCase · (ascii "chunked"))

/-- What `HttpServerConnection::HeadersFinished` finds out about a request. -/
structure RequestState where
  expect100Continue : Bool
  error : Option String
  keepAlive : Bool
  upgrade : Bool
  framing : Framing
  deriving DecidableEq, Repr

/-- The body of a request with this `Content-Length`, `Read.cxx:237-255`. -/
def requestContentLength (value : Text) : Framing :=
  let (n, rest) := strtoul value
  if rest ≠ [] ∨ toSigned n < 0 then .rejected "invalid Content-Length header in HTTP request"
  else if n = 0 then .empty
  else .contentLength n

/-- The body of a request, `Read.cxx:211-270`. -/
def requestFraming : Framing :=
  if isChunked (headers.get lib.toLookup transferEncodingHeader) then
    if httpIsUpgrade lib headers then .rejected "cannot upgrade chunked request" else .chunked
  else
    match headers.get lib.toLookup contentLengthHeader with
    | none => if httpIsUpgrade lib headers then .untilClose else .noBody
    | some value =>
      if httpIsUpgrade lib headers then
        .rejected "cannot upgrade with Content-Length request header"
      else requestContentLength value

/-- `HttpServerConnection::HeadersFinished`, `Read.cxx:181-273`. -/
def serverHeadersFinished : RequestState :=
  let expect := headers.get lib.toLookup (ascii "expect")
  let connection := headers.get lib.toLookup (ascii "connection")
  let framing := requestFraming lib headers
  { expect100Continue := expect == some (ascii "100-continue")
    error :=
      if expect.any (· ≠ ascii "100-continue") then some "Unrecognized expectation\n" else none
    keepAlive := !connection.any (lib.listContainsI · (ascii "close")) && framing ≠ .untilClose
    upgrade := httpIsUpgrade lib headers
    framing }

/-- The state of a response: what `HttpClient::HeadersFinished` reads, apart from the headers. -/
structure ResponseState where
  status : Nat
  noBody : Bool
  keepAlive : Bool
  deriving DecidableEq, Repr

/-- The body of a response with this `Content-Length`, `Client.cxx:808-822`. -/
def responseContentLength (value : Text) : Framing :=
  let (n, rest) := strtoul value
  if rest = value ∨ rest ≠ [] ∨ toSigned n < 0 then
    .rejected "invalid Content-Length header in response"
  else if n = 0 then .empty
  else .contentLength n

variable (response : ResponseState)

/-- The connection can be used for another request, `Client.cxx:762-765,786-791`. -/
def responseKeepAlive : Bool :=
  let upgrade := (headers.get lib.toLookup transferEncodingHeader).isNone &&
    (headers.get lib.toLookup contentLengthHeader).isNone && response.status == 101 &&
    httpIsUpgrade lib headers
  response.keepAlive &&
    !(headers.get lib.toLookup (ascii "connection")).any (lib.listContainsI · (ascii "close")) &&
    !upgrade

/-- The response has no body in any case, `Client.cxx:767-776`. -/
def responseIsEmpty : Bool :=
  response.noBody || lib.statusIsEmpty response.status || response.status == 100

/-- `HttpClient::HeadersFinished`, `Client.cxx:755-842`. -/
def clientHeadersFinished : Framing :=
  if responseIsEmpty lib response then .noBody
  else if isChunked (headers.get lib.toLookup transferEncodingHeader) then .chunked
  else
    match headers.get lib.toLookup contentLengthHeader with
    | none =>
      if responseKeepAlive lib headers response then
        .rejected "no Content-Length response header"
      else .untilClose
    | some value => responseContentLength value

end

/-- The members of all `Content-Length` headers. -/
def contentLengths (headers : StringMap) : List (Option Nat) :=
  (headers.values contentLengthHeader).flatMap fun value =>
    (value.splitOn 0x2c).map fun s => decimal (trim s)

/-- If there are several lengths, they are the same number. -/
def LengthsAgree (headers : StringMap) : Prop :=
  2 ≤ (contentLengths headers).length → ∃ n, ∀ x ∈ contentLengths headers, x = some n

/-- There is one `Transfer-Encoding`, and it is `chunked`. -/
def OnlyChunked (headers : StringMap) : Prop :=
  ∃ value, headers.values transferEncodingHeader = [value] ∧
    equalIgnoreCase value (ascii "chunked") = true

/-- The message has been rejected. -/
def Framing.isRejected : Framing → Bool
  | .rejected _ => true
  | _ => false

/-- The message has been rejected, or everybody else finds the same end of the body. -/
structure Unambiguous (headers : StringMap) (framing : Framing) : Prop where
  transferEncoding : headers.values transferEncodingHeader ≠ [] →
    framing = .chunked ∨ framing.isRejected = true
  contentLength : LengthsAgree headers ∨ framing.isRejected = true
  notChunked : framing = .noBody ∨ framing = .empty ∨ (∃ n, framing = .contentLength n) →
    headers.values transferEncodingHeader = [] ∨ OnlyChunked headers

/-- The request or response has no `Transfer-Encoding`, or the one that is looked at is `chunked`;
and the lengths agree. -/
def FramingSafe (lib : HeaderLib) (headers : StringMap) : Prop :=
  (headers.values transferEncodingHeader = [] ∨
    isChunked (headers.get lib.toLookup transferEncodingHeader) = true) ∧ LengthsAgree headers

private theorem unambiguous_iff {headers : StringMap} {f : Framing} :
    Unambiguous headers f ↔ f.isRejected = true ∨
      (headers.values transferEncodingHeader = [] ∨ f = .chunked) ∧ LengthsAgree headers := by
  constructor
  · intro h
    by_cases hr : f.isRejected = true
    · exact .inl hr
    · refine .inr ⟨?_, h.contentLength.resolve_right hr⟩
      by_cases ht : headers.values transferEncodingHeader = []
      · exact .inl ht
      · exact .inr ((h.transferEncoding ht).resolve_right hr)
  · intro h
    rcases h with hr | ⟨ht, hle⟩
    · refine ⟨fun _ => .inr hr, .inr hr, fun hb => ?_⟩
      rcases hb with rfl | rfl | ⟨n, rfl⟩ <;> cases hr
    · refine ⟨fun hne => .inl (ht.resolve_left hne), .inl hle, fun hb => ?_⟩
      rcases ht with ht | rfl
      · exact .inl ht
      · rcases hb with h | h | ⟨n, h⟩ <;> cases h

section

variable (lib : HeaderLib) (headers : StringMap)

/-- The requests that are rejected: an upgrade with a body, or a length that is not a number. -/
def RequestRejected : Prop :=
  httpIsUpgrade lib headers = true ∧
      (isChunked (headers.get lib.toLookup transferEncodingHeader) = true ∨
        (headers.get lib.toLookup contentLengthHeader).isSome = true) ∨
    isChunked (headers.get lib.toLookup transferEncodingHeader) = false ∧
      ∃ value, headers.get lib.toLookup contentLengthHeader = some value ∧
        ((strtoul value).2 ≠ [] ∨ toSigned (strtoul value).1 < 0)

/-- The responses that are rejected: a length that is not a number, or none at all although the
connection is kept. -/
def ResponseRejected (response : ResponseState) : Prop :=
  isChunked (headers.get lib.toLookup transferEncodingHeader) = false ∧
    (headers.get lib.toLookup contentLengthHeader = none ∧
        responseKeepAlive lib headers response = true ∨
      ∃ value, headers.get lib.toLookup contentLengthHeader = some value ∧
        ((strtoul value).2 = value ∨ (strtoul value).2 ≠ [] ∨ toSigned (strtoul value).1 < 0))

variable (value : Text)

theorem isRejected_requestContentLength : (requestContentLength value).isRejected = true ↔
      (strtoul value).2 ≠ [] ∨ toSigned (strtoul value).1 < 0 := by
  unfold requestContentLength
  simp only
  split
  next h => exact ⟨fun _ => h, fun _ => rfl⟩
  next h =>
    refine ⟨fun hr => ?_, fun hx => absurd hx h⟩
    split at hr <;> cases hr

theorem isRejected_responseContentLength : (responseContentLength value).isRejected = true ↔
      (strtoul value).2 = value ∨ (strtoul value).2 ≠ [] ∨ toSigned (strtoul value).1 < 0 := by
  unfold responseContentLength
  simp only
  split
  next h => exact ⟨fun _ => h, fun _ => rfl⟩
  next h =>
    refine ⟨fun hr => ?_, fun hx => absurd hx h⟩
    split at hr <;> cases hr

theorem requestContentLength_ne_chunked : requestContentLength value ≠ .chunked := by
  unfold requestContentLength
  simp only
  split
  · exact Framing.noConfusion
  · split <;> exact Framing.noConfusion

theorem responseContentLength_ne_chunked : responseContentLength value ≠ .chunked := by
  unfold responseContentLength
  simp only
  split
  · exact Framing.noConfusion
  · split <;> exact Framing.noConfusion

/-- A request is rejected, or it is read in chunks if the coding says so. -/
theorem requestFraming_spec :
    ((requestFraming lib headers).isRejected = true ↔ RequestRejected lib headers) ∧
      (requestFraming lib headers = .chunked ↔
        isChunked (headers.get lib.toLookup transferEncodingHeader) = true ∧
          httpIsUpgrade lib headers = false) := by
  unfold requestFraming RequestRejected
  cases isChunked (headers.get lib.toLookup transferEncodingHeader) with
  | true => cases httpIsUpgrade lib headers <;> simp [Framing.isRejected]
  | false =>
    cases headers.get lib.toLookup contentLengthHeader with
    | none => cases httpIsUpgrade lib headers <;> simp [Framing.isRejected]
    | some value =>
      cases httpIsUpgrade lib headers with
      | true => simp [Framing.isRejected]
      | false =>
        have hre := isRejected_requestContentLength value
        have hc := requestContentLength_ne_chunked value
        simp [hre, hc]

private theorem clientHeadersFinished_spec {response : ResponseState}
    (h : responseIsEmpty lib response = false) :
    ((clientHeadersFinished lib headers response).isRejected = true ↔
        ResponseRejected lib headers response) ∧
      (clientHeadersFinished lib headers response = .chunked ↔
        isChunked (headers.get lib.toLookup transferEncodingHeader) = true) := by
  unfold clientHeadersFinished ResponseRejected
  rw [h]
  cases isChunked (headers.get lib.toLookup transferEncodingHeader) with
  | true => simp [Framing.isRejected]
  | false =>
    cases headers.get lib.toLookup contentLengthHeader with
    | none => cases responseKeepAlive lib headers response <;> simp [Framing.isRejected]
    | some value =>
      have hre := isRejected_responseContentLength value
      have hc := responseContentLength_ne_chunked value
      simp [hre, hc]

end

/-- Requests, and responses that may have a body, are framed unambiguously exactly if they are
rejected or safe. -/
theorem framing_unambiguous_iff (lib : HeaderLib) (headers : StringMap) :
    (Unambiguous headers (serverHeadersFinished lib headers).framing ↔
        RequestRejected lib headers ∨ FramingSafe lib headers) ∧
      ∀ response, responseIsEmpty lib response = false →
        (Unambiguous headers (clientHeadersFinished lib headers response) ↔
          ResponseRejected lib headers response ∨ FramingSafe lib headers) := by
  constructor
  · obtain ⟨hre, hchu⟩ := requestFraming_spec lib headers
    show Unambiguous headers (requestFraming lib headers) ↔ _
    rw [unambiguous_iff, hre, hchu]
    constructor
    · rintro (h | ⟨ht, hle⟩)
      · exact .inl h
      · exact .inr ⟨ht.imp_right And.left, hle⟩
    · rintro (h | ⟨ht, hle⟩)
      · exact .inl h
      · cases hu : httpIsUpgrade lib headers with
        | false => exact .inr ⟨ht.imp_right fun hc => ⟨hc, rfl⟩, hle⟩
        | true =>
          rcases ht with ht | hc
          · exact .inr ⟨.inl ht, hle⟩
          · exact .inl (.inl ⟨hu, .inl hc⟩)
  · intro response hb
    obtain ⟨hre, hchu⟩ := clientHeadersFinished_spec lib headers hb
    rw [unambiguous_iff, hre, hchu, FramingSafe]

/-- A library for the witnesses. -/
def plainLib : HeaderLib where
  toLookup := Lookup.first
  listContainsI a b := a == b
  statusIsEmpty status := status == 204 || status == 304

/-- A chunked response is unambiguous. -/
theorem framing_unambiguous_chunked :
    let headers : StringMap := [(ascii "transfer-encoding", ascii "chunked")]
    let response : ResponseState := { status := 200, noBody := false, keepAlive := true }
    responseIsEmpty plainLib response = false ∧
      Unambiguous headers (clientHeadersFinished plainLib headers response) := by
  intro headers response
  have hb : responseIsEmpty plainLib response = false := by decide
  refine ⟨hb, ((framing_unambiguous_iff plainLib headers).2 response hb).mpr (.inr ?_)⟩
  exact ⟨.inr (by decide), fun h => absurd h (by decide)⟩

/-- A request and a response with another coding than `chunked` and a length of 5: the coding is
ignored, and 5 bytes are taken for the body. -/
theorem framing_ignores_coding :
    let headers : StringMap :=
      [(ascii "transfer-encoding", ascii "gzip, chunked"), (ascii "content-length", ascii "5")]
    let response : ResponseState := { status := 200, noBody := false, keepAlive := true }
    (serverHeadersFinished plainLib headers).framing = .contentLength 5 ∧
      clientHeadersFinished plainLib headers response = .contentLength 5 ∧
      headers.values transferEncodingHeader ≠ [] := by
  decide

/-- The known length of a body. -/
def Framing.length? : Framing → Option Nat
  | .empty => some 0
  | .contentLength n => some n
  | _ => none

/-- A value that is not a number and is read as one: the empty string, or a number in the range
after white space or a sign, where a minus wraps around. -/
def Misread (value : Text) : Prop :=
  value = [] ∨ (sign (value.dropWhile isSpace)).2 ≠ value ∧
    ∃ v, decimal (sign (value.dropWhile isSpace)).2 = some v ∧
      if (sign (value.dropWhile isSpace)).1 then v = 0 ∨ 2 ^ 63 < v ∧ v < 2 ^ 64 else v < 2 ^ 63

private theorem decimal_eq_some_iff {s : Text} {v : Nat} :
    decimal s = some v ↔ s ≠ [] ∧ (∀ ch ∈ s, isDigit ch = true) ∧ digitsValue s = v := by
  rw [decimal, Option.ite_none_right_eq_some, Option.some.injEq, all_eq_true, and_assoc]

private theorem sign_of_decimal {value : Text} {v : Nat} (h : decimal value = some v) :
    sign (value.dropWhile isSpace) = (false, value) := by
  obtain ⟨hne, hal, -⟩ := decimal_eq_some_iff.mp h
  obtain ⟨ch, rest, rfl⟩ := exists_cons_of_ne_nil hne
  have hd : (0x30 : UInt8) ≤ ch ∧ ch ≤ 0x39 := by
    simpa [isDigit] using hal ch mem_cons_self
  have hsp : ¬ isSpace ch = true := by
    simp only [isSpace, Bool.or_eq_true, beq_iff_eq, Bool.and_eq_true, decide_eq_true_eq]
    rintro (rfl | hsp)
    · exact absurd hd.1 (by decide)
    · exact absurd (UInt8.le_trans hd.1 hsp.2) (by decide)
  rw [dropWhile_cons_of_neg hsp]
  unfold sign
  split
  next he => cases he; exact absurd hd.1 (by decide)
  next he => cases he; exact absurd hd.1 (by decide)
  · rfl

private theorem strtoul_of_decimal {value t : Text} {n : Bool} {v : Nat}
    (hsi : sign (value.dropWhile isSpace) = (n, t)) (h : decimal t = some v) :
    strtoul value = (if 2 ^ 64 ≤ v then 2 ^ 64 - 1 else
      if n then (2 ^ 64 - v) % 2 ^ 64 else v, []) := by
  obtain ⟨hne, hal, rfl⟩ := decimal_eq_some_iff.mp h
  have ht : t.takeWhile isDigit = t := takeWhile_eq_self_iff.mpr hal
  have hd : t.dropWhile isDigit = [] := dropWhile_eq_nil_iff.mpr hal
  simp only [strtoul, hsi, splitWhile, ht, hd, if_neg hne]

private theorem strtoul_of_not_decimal {value t : Text} {n : Bool}
    (hsi : sign (value.dropWhile isSpace) = (n, t)) (h : decimal t = none) :
    (strtoul value).2 ≠ [] ∨ strtoul value = (0, value) := by
  simp only [strtoul, hsi]
  split
  · exact .inr rfl
  next hd =>
    refine .inl fun hr => ?_
    have hal := dropWhile_eq_nil_iff.mp hr
    have hne : t ≠ [] := by
      rintro rfl
      exact hd rfl
    rw [decimal_eq_some_iff.mpr ⟨hne, hal, rfl⟩] at h
    cases h

private theorem length_requestContentLength_iff (value : Text) :
    (requestContentLength value).length? = (decimal value).filter (· < 2 ^ 63) ↔
      ¬ Misread value := by
  have hle {n : Nat} (hn : n < 2 ^ 64) (he : strtoul value = (n, [])) :
      (requestContentLength value).length? = if n < 2 ^ 63 then some n else none := by
    have hsig : toSigned n < 0 ↔ ¬ n < 2 ^ 63 := by
      unfold toSigned
      split
      next h => omega
      next h => rw [Int.subNatNat_eq_coe]; omega
    simp only [requestContentLength, he, hsig, ne_eq, not_true_eq_false, false_or]
    by_cases hlt : n < 2 ^ 63
    · rw [if_neg (not_not.mpr hlt)]
      split
      next hz => rw [hz]; rfl
      · rfl
    · rw [if_neg hlt, if_pos hlt]
      rfl
  cases hvalue : decimal value with
  | some v =>
    have hsi := sign_of_decimal hvalue
    have hne := (decimal_eq_some_iff.mp hvalue).1
    have hmi : ¬ Misread value := by simp [Misread, hne, hsi]
    refine iff_of_true ?_ hmi
    have he := strtoul_of_decimal hsi hvalue
    simp only [Bool.false_eq_true, if_false] at he
    rw [hle (by split <;> omega) he, Option.filter_some]
    by_cases hla : 2 ^ 64 ≤ v
    · simp only [hla, if_true, decide_eq_true_eq]
      rw [if_neg (by omega), if_neg (by omega)]
    · simp only [hla, if_false, decide_eq_true_eq]
  | none =>
    obtain ⟨negative, t, hsi⟩ : ∃ negative t, sign (value.dropWhile isSpace) = (negative, t) :=
      ⟨_, _, rfl⟩
    cases ht : decimal t with
    | none =>
      have hmi : Misread value ↔ value = [] := by simp [Misread, hsi, ht]
      rw [hmi]
      rcases strtoul_of_not_decimal hsi ht with hrest | he
      · have hne : value ≠ [] := by
          rintro rfl
          exact hrest rfl
        simp [requestContentLength, hrest, hne, Framing.length?]
      by_cases hni : value = []
      · subst hni
        rw [hle (by decide) he]
        simp
      · simp [requestContentLength, he, hni, Framing.length?]
    | some v =>
      have hne : value ≠ [] := by
        rintro rfl
        cases hsi
        cases ht
      have ho : t ≠ value := by
        rintro rfl
        rw [ht] at hvalue
        cases hvalue
      have hmi : Misread value ↔
          if negative then v = 0 ∨ 2 ^ 63 < v ∧ v < 2 ^ 64 else v < 2 ^ 63 := by
        simp [Misread, hsi, ht, hne, ho]
      rw [hmi, hle (by split <;> [omega; split <;> omega]) (strtoul_of_decimal hsi ht)]
      cases negative <;> split <;> simp <;> omega

/-- The length of a request body is the number in its `Content-Length` header if it is one and in
the range, and missing otherwise, exactly if the value is not misread. -/
theorem requestContentLength_iff (value : Text) :
    (requestContentLength value).length? = (decimal value).filter (· < 2 ^ 63) ↔
      ¬ Misread value :=
  length_requestContentLength_iff value

/-- The client rejects the empty value, and otherwise misreads the same values as the server. -/
theorem responseContentLength_iff (value : Text) :
    (responseContentLength value).length? = (decimal value).filter (· < 2 ^ 63) ↔
      value = [] ∨ ¬ Misread value := by
  by_cases hv : value = []
  · subst hv
    exact iff_of_true rfl (.inl rfl)
  · have he : (responseContentLength value).length? = (requestContentLength value).length? := by
      unfold responseContentLength requestContentLength
      by_cases hr : (strtoul value).2 = []
      · simp only [hr, Ne.symm hv, ne_eq, not_true_eq_false, false_or]
        split <;> rfl
      · simp [hr, Framing.length?]
    rw [he, length_requestContentLength_iff, or_iff_right hv]

/-- Three values that are no numbers: the empty string, a number with a sign, and one that wraps
around. -/
theorem requestContentLength_misread :
    requestContentLength [] = .empty ∧ requestContentLength (ascii "+5") = .contentLength 5 ∧
      requestContentLength (ascii "-18446744073709551615") = .contentLength 1 := by
  decide +kernel

end BengProxy.Http
