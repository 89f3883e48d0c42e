import BengProxy.Fcgi.HeaderBlock

/-!
# Receiving the headers of a FastCGI response

The header block arrives in `STDOUT` records, and the records arrive in pieces. The client passes on
every header of the block once if and only if the whole block is in one record, and no piece ends
between the first line feed of the block and its end: otherwise lines are handled again, or the
client waits for the rest of a line that is in the next record.
-/

namespace BengProxy.Fcgi

open FcgiFrameHandler List

open Base Text Http Istream FcgiRecordHeader

variable {received data : List UInt8}

/-- A `STDOUT` record. -/
structure StdoutRecord where
  content : List UInt8
  padding : List UInt8 := []
  content_lt : content.length < 65536
  padding_lt : padding.length < 256

/-- The header of a record. -/
def StdoutRecord.header (id : Nat) (r : StdoutRecord) : FcgiRecordHeader where
  type := FcgiRecordType.stdout.code
  requestId := id
  contentLength := r.content.length
  paddingLength := UInt8.ofNat r.padding.length

/-- The bytes of a record after its header. -/
def StdoutRecord.body (r : StdoutRecord) : List UInt8 := r.content ++ r.padding

/-- The bytes of some records. -/
def stdoutStream (id : Nat) : List StdoutRecord → List UInt8
  | [] => []
  | r :: records => (r.header id).bytes ++ (r.body ++ stdoutStream id records)

/-- Where the first payload begins, and what it is. -/
def firstContent : List StdoutRecord → Nat × List UInt8
  | [] => (0, [])
  | r :: records =>
    if r.content = [] then
      (8 + r.padding.length + (firstContent records).1, (firstContent records).2)
    else (8, r.content)

/-- What has been received of the first payload. -/
def shownContent (records : List StdoutRecord) (received : List UInt8) : List UInt8 :=
  (received.drop (firstContent records).1).take (firstContent records).2.length

namespace FcgiClient

variable (lib : FcgiLib)

/-- A new client for a request, `src/fcgi/Client.cxx:1242-1263`. -/
def new (id : Nat) (noBody : Bool) (handler : Handler) (closesBody : Bool) : FcgiClient :=
  { id, noBody, handler, closesBody }

/-- The socket has read something. -/
def receive (s : FcgiClient) (data : List UInt8) : FcgiClient :=
  let s := { s with buffer := s.buffer ++ data }
  if s.buffer = [] then s else (s.onBufferedData lib).1

/-- Reading until the headers are complete. -/
def receiveHeaders (s : FcgiClient) : List (List UInt8) → FcgiClient
  | [] => s
  | data :: reads =>
    if s.receivingHeaders && !s.destroyed then receiveHeaders (s.receive lib data) reads else s

/-- These headers are passed to the response handler: with a body at once, and without one when the
end of the response has been received. -/
def Passes (s : FcgiClient) (headers : StringMap) : Prop :=
  s.receivingHeaders = false ∧
    (s.noBody = true ∧ s.headers = headers ∨ ∃ status, .response status headers true ∈ s.outputs)

variable {lib}

/-- The client is receiving headers, and it has seen nothing but `STDOUT` records. -/
structure Receiving (s : FcgiClient) (id : Nat) (noBody : Bool) : Prop where
  id_eq : s.id = id
  noBody_eq : s.noBody = noBody
  receivingHeaders : s.receivingHeaders = true
  destroyed : s.destroyed = false
  stderr : s.stderr = false
  endRequest : s.endRequest = false
  outputs : s.outputs = []

/-- Before a header: padding of the record before is skipped. -/
structure Before (p : FcgiParser) (id : Nat) (stream : List UInt8) (records : List StdoutRecord) :
    Prop where
  remaining : p.remaining = 0
  stream_eq : ∃ padding : List UInt8, padding.length = p.skip ∧
    stream = padding ++ stdoutStream id records

/-- At the beginning of the content of a record. -/
structure AtContent (p : FcgiParser) (id : Nat) (stream : List UInt8) (r : StdoutRecord)
    (records : List StdoutRecord) : Prop where
  remaining : p.remaining = r.content.length
  skip : p.skip = r.padding.length
  stream_eq : stream = r.body ++ stdoutStream id records

variable {id : Nat}

private theorem parse_header (hid : id < 65536) (r : StdoutRecord) (rest : List UInt8) :
    parse ((r.header id).bytes ++ rest) = some (r.header id, rest) := by
  rw [parse_bytes]
  have hle : r.content.length % 65536 = r.content.length := Nat.mod_eq_of_lt r.content_lt
  have hid' : id % 65536 = id := Nat.mod_eq_of_lt hid
  simp only [StdoutRecord.header, hle, hid']

private theorem parse_eq_none {src : List UInt8} (h : src.length < 8) :
    parse src = none := by
  cases hpa : parse src with
  | none => rfl
  | some result =>
    have hle := length_of_parse hpa
    omega

variable {s : FcgiClient} {noBody : Bool}

private theorem feedEnd_receiving (h : s.Receiving id noBody) (p : FcgiParser) (src : List UInt8) :
    (frameHandler lib).feedEnd ⟨p, src, s⟩ = .next ⟨{ p with inFrame := false }, src, s⟩ := by
  have he : s.onFrameEnd = (s, .continue) := by
    rw [onFrameEnd, h.endRequest]
    rfl
  rw [feedEnd]
  cases hfr : p.inFrame with
  | true => simp only [frameHandler, he, if_true]
  | false =>
    simp only [Bool.false_eq_true, if_false]
    congr 2
    rw [← hfr]

private theorem feedHeader_receiving (lib : FcgiLib) (h : s.Receiving id noBody)
    (hid : id < 65536) (p : FcgiParser) (r : StdoutRecord) (rest : List UInt8) :
    (frameHandler lib).feedHeader ⟨p, (r.header id).bytes ++ rest, s⟩ =
      .next ⟨⟨r.content.length, r.padding.length, true⟩, rest,
        { s with buffer := s.buffer.drop 8 }⟩ := by
  have hpa : (UInt8.ofNat r.padding.length).toNat = r.padding.length := by
    rw [UInt8.toNat_ofNat', Nat.mod_eq_of_lt r.padding_lt]
  have hh : onFrameHeader { s with buffer := s.buffer.drop 8 }
      FcgiRecordType.stdout.code id = ({ s with buffer := s.buffer.drop 8 }, .continue) := by
    obtain ⟨⟩ := s
    have hst := h.stderr
    have hre := h.receivingHeaders
    have hid' := h.id_eq
    simp only at hst hre hid'
    simp [onFrameHeader, hid', hst, hre]
  rw [feedHeader, parse_header hid]
  simp only [frameHandler, StdoutRecord.header, hh, hpa]

variable {records : List StdoutRecord} {p : FcgiParser} {future : List UInt8}

private theorem feedTurn_before (lib : FcgiLib) (h : s.Receiving id noBody) (hid : id < 65536)
    (hb : Before p id (s.buffer ++ future) records) :
    (∃ p' src', (frameHandler lib).feedTurn ⟨p, s.buffer, s⟩ =
        .done ⟨p', src', { s with buffer := src' }⟩ .more ∧
        Before p' id (src' ++ future) records ∧ (src' = [] ∨ p'.skip = 0 ∧ src'.length < 8)) ∨
      ∃ r rs p' src', records = r :: rs ∧ (frameHandler lib).feedTurn ⟨p, s.buffer, s⟩ =
        .next ⟨p', src', { s with buffer := src' }⟩ ∧ AtContent p' id (src' ++ future) r rs := by
  obtain ⟨padding, hpa, hst⟩ := hb.stream_eq
  have hp : (frameHandler lib).feedPayload ⟨p, s.buffer, s⟩ = .next ⟨p, s.buffer, s⟩ :=
    if_pos hb.remaining
  rw [feedTurn, hp, Flow.next_andThen]
  by_cases hsh : s.buffer.length < p.skip
  · -- the padding is not complete
    left
    have hsk : (frameHandler lib).feedSkip ⟨p, s.buffer, s⟩ =
        .done ⟨{ p with skip := p.skip - s.buffer.length }, [], { s with buffer := [] }⟩ .more := by
      rw [feedSkip, if_neg (by simp only; omega), if_pos hsh]
      simp [consume, frameHandler]
    rw [hsk]
    refine ⟨_, [], rfl, ⟨hb.remaining, padding.drop s.buffer.length, ?_, ?_⟩, .inl rfl⟩
    · rw [length_drop, hpa]
    · have hd := congrArg (drop s.buffer.length) hst
      rw [drop_left, drop_append_of_le_length (by omega)] at hd
      exact hd
  -- the padding is skipped
  have hbu : s.buffer = padding ++ s.buffer.drop p.skip := by
    have ht := congrArg (take p.skip) hst
    rw [take_append_of_le_length (Nat.le_of_not_lt hsh), ← hpa, take_left] at ht
    rw [← ht, hpa, take_append_drop]
  have hsk : (frameHandler lib).feedSkip ⟨p, s.buffer, s⟩ =
      .next ⟨{ p with skip := 0 }, s.buffer.drop p.skip,
        { s with buffer := s.buffer.drop p.skip }⟩ := by
    rw [feedSkip]
    by_cases hz : p.skip = 0
    · rw [if_pos hz, hz]
      congr 2
      rw [← hz]
    · rw [if_neg hz, if_neg hsh]
      simp [consume, frameHandler]
  have hr : s.buffer.drop p.skip ++ future = stdoutStream id records := by
    rw [hbu, append_assoc] at hst
    exact append_cancel_left hst
  generalize s.buffer.drop p.skip = src at hsk hr
  have hre : Receiving { s with buffer := src } id noBody := { h with }
  rw [hsk, Flow.next_andThen, feedEnd_receiving hre]
  by_cases hle : src.length < 8
  · left
    have hh : (frameHandler lib).feedHeader
        ⟨{ p with skip := 0, inFrame := false }, src, { s with buffer := src }⟩ =
        .done ⟨{ p with skip := 0, inFrame := false }, src, { s with buffer := src }⟩ .more := by
      rw [feedHeader, parse_eq_none hle]
    refine ⟨_, src, hh, ⟨hb.remaining, [], rfl, hr⟩, .inr ⟨rfl, hle⟩⟩
  right
  cases records with
  | nil =>
    rw [stdoutStream, append_eq_nil_iff] at hr
    rw [hr.1] at hle
    exact absurd (by decide) hle
  | cons r rs =>
    rw [stdoutStream] at hr
    have hsr : src = (r.header id).bytes ++ src.drop 8 := by
      have ht := congrArg (take 8) hr
      rw [take_append_of_le_length (Nat.le_of_not_lt hle)] at ht
      have hby : (r.header id).bytes =
          ((r.header id).bytes ++ (r.body ++ stdoutStream id rs)).take 8 :=
        (take_left' (length_bytes _)).symm
      rw [hby, ← ht, take_append_drop]
    have hrest' : src.drop 8 ++ future = r.body ++ stdoutStream id rs := by
      have hd := congrArg (drop 8) hr
      rw [drop_append_of_le_length (Nat.le_of_not_lt hle)] at hd
      rw [hd]
      exact drop_left' (length_bytes _)
    refine ⟨r, rs, ⟨r.content.length, r.padding.length, true⟩, src.drop 8, rfl, ?_,
      ⟨rfl, rfl, hrest'⟩⟩
    have hh := feedHeader_receiving lib hre hid
      { p with skip := 0, inFrame := false } r (src.drop 8)
    rw [← hsr] at hh
    exact hh

/-- The stream from the first payload on. -/
def contentOn (id : Nat) (records : List StdoutRecord) : List UInt8 :=
  (stdoutStream id records).drop (firstContent records).1

private theorem contentOn_nil {r : StdoutRecord} (h : r.content = []) (id : Nat)
    (records : List StdoutRecord) : contentOn id (r :: records) = contentOn id records := by
  rw [contentOn, firstContent, if_pos h, stdoutStream, StdoutRecord.body, h, nil_append,
    ← append_assoc, ← drop_drop]
  congr 1
  exact drop_left' (by rw [length_append, length_bytes])

private theorem contentOn_cons {r : StdoutRecord} (h : r.content ≠ []) (id : Nat)
    (records : List StdoutRecord) :
    contentOn id (r :: records) = r.body ++ stdoutStream id records := by
  rw [contentOn, firstContent, if_neg h]
  exact drop_left' (length_bytes _)

private theorem firstContent_le (id : Nat) (records : List StdoutRecord) :
    (firstContent records).1 ≤ (stdoutStream id records).length ∧
      ((firstContent records).2 ≠ [] → 8 ≤ (firstContent records).1) := by
  induction records with
  | nil => exact ⟨le_refl 0, fun hne => absurd rfl hne⟩
  | cons r records ih =>
    rw [firstContent, stdoutStream, length_append, length_bytes,
      length_append, StdoutRecord.body, length_append]
    split
    · exact ⟨by simp only; omega, fun _ => by simp only; omega⟩
    · exact ⟨by simp only; omega, fun _ => le_refl 8⟩

/-- At the beginning of the first payload. -/
structure AtFirst (p : FcgiParser) (id : Nat) (stream : List UInt8) (records : List StdoutRecord) :
    Prop where
  remaining : p.remaining = (firstContent records).2.length
  ne_nil : (firstContent records).2 ≠ []
  stream_eq : stream = contentOn id records

private theorem AtFirst.remaining_ne {st : List UInt8} (h : AtFirst p id st records) :
    p.remaining ≠ 0 := by
  rw [h.remaining]
  exact fun hz => h.ne_nil (length_eq_zero_iff.mp hz)

private theorem feedLoop_before (lib : FcgiLib) (hid : id < 65536) {records0 : List StdoutRecord}
    (records : List StdoutRecord) :
    ∀ {s : FcgiClient} {p : FcgiParser}, s.Receiving id noBody →
      Before p id (s.buffer ++ future) records → contentOn id records = contentOn id records0 →
      (firstContent records).2 = (firstContent records0).2 →
      (∃ p' src' records', (frameHandler lib).feedLoop ⟨p, s.buffer, s⟩ =
          (⟨p', src', { s with buffer := src' }⟩, .more) ∧
          Before p' id (src' ++ future) records' ∧
          contentOn id records' = contentOn id records0 ∧
          (firstContent records').2 = (firstContent records0).2 ∧
          (src' = [] ∨ p'.skip = 0 ∧ src'.length < 8)) ∨
        ∃ p' src', (frameHandler lib).feedLoop ⟨p, s.buffer, s⟩ =
          (frameHandler lib).feedLoop ⟨p', src', { s with buffer := src' }⟩ ∧
          AtFirst p' id (src' ++ future) records0 := by
  induction records with
  | nil =>
    intro s p h hb hco hfi
    rcases feedTurn_before lib h hid hb with
      ⟨p', src', ht, hb', hsm⟩ | ⟨r, rs, p', src', hc, -⟩
    · left
      exact ⟨p', src', [], feedLoop_of_done _ ht, hb', hco, hfi, hsm⟩
    · cases hc
  | cons r rs ih =>
    intro s p h hb hco hfi
    rcases feedTurn_before lib h hid hb with
      ⟨p', src', ht, hb', hsm⟩ | ⟨r', rs', p', src', hc, ht, hat⟩
    · left
      exact ⟨p', src', r :: rs, feedLoop_of_done _ ht, hb', hco, hfi, hsm⟩
    · obtain ⟨rfl, rfl⟩ := cons.inj hc
      rw [feedLoop_of_next _ ht]
      have hre : Receiving { s with buffer := src' } id noBody := { h with }
      by_cases hni : r.content = []
      · -- a record without content is nothing but padding
        have hb' : Before p' id (src' ++ future) rs := by
          refine ⟨by rw [hat.remaining, hni]; rfl, r.padding, hat.skip.symm, ?_⟩
          rw [hat.stream_eq, StdoutRecord.body, hni, nil_append]
        rw [contentOn_nil hni] at hco
        rw [firstContent, if_pos hni] at hfi
        exact ih hre hb' hco hfi
      right
      rw [contentOn_cons hni] at hco
      rw [firstContent, if_neg hni] at hfi
      have hf' : r.content = (firstContent records0).2 := hfi
      exact ⟨p', src', rfl, by rw [hat.remaining, hf'], by rw [← hf']; exact hni,
        hat.stream_eq.trans hco⟩

private theorem feedLoop_empty (lib : FcgiLib) (hp : p.remaining ≠ 0) :
    (frameHandler lib).feedLoop ⟨p, [], s⟩ = (⟨p, [], s⟩, .more) := by
  apply feedLoop_of_done
  rw [feedTurn, feedPayload, if_neg hp]
  rfl

section Payload

variable {s : FcgiClient} {id : Nat} {noBody : Bool} {p : FcgiParser}

private theorem feedLoop_payload (hp : p.remaining ≠ 0) (hb : s.buffer ≠ [])
    {s' : FcgiClient} {fr : FrameResult} {c : Nat} {f : Feeding FcgiClient}
    {result : FeedResult}
    (hpa :
      onFramePayload lib s (s.buffer.take p.remaining) = (s', fr, c))
    (h : (if c = 0 then refusedPayload ⟨p, s.buffer, s'⟩ fr
      else afterPayload
        ⟨{ p with remaining := p.remaining - c }, s.buffer.drop c,
          { s' with buffer := s'.buffer.drop c }⟩
        (s.buffer.take p.remaining) c fr) = .done f result) :
    (frameHandler lib).feedLoop ⟨p, s.buffer, s⟩ = (f, result) := by
  have hh : (frameHandler lib).onFramePayload s (s.buffer.take p.remaining) =
      (s', fr, c) := hpa
  have hfe : (frameHandler lib).feedPayload ⟨p, s.buffer, s⟩ = .done f result := by
    rw [feedPayload, if_neg hp, if_neg hb]
    simp only [hh]
    exact h
  apply feedLoop_of_done
  rw [feedTurn, hfe]
  rfl

private theorem onFramePayload_receiving (lib : FcgiLib) (h : s.Receiving id noBody)
    (pa : List UInt8) :
    onFramePayload lib s pa = match s.parseHeaders lib pa with
      | .error message => (s.abortResponseHeaders message, .closed, 0)
      | .ok (s', 0) => (s', if s'.destroyed then .closed else .continue, 0)
      | .ok (s', nbytes + 1) =>
        (s', if !s'.receivingHeaders then .stop else .continue, nbytes + 1) := by
  have he : s.isExcess pa = false := by
    rw [isExcess, wasResponseSubmitted, h.receivingHeaders]
    rfl
  rw [onFramePayload, he, feed, h.stderr, h.receivingHeaders]
  cases hpa : s.parseHeaders lib pa with
  | error message => rfl
  | ok result =>
    obtain ⟨s', consumed⟩ := result
    cases consumed with
    | zero | succ nbytes => rfl

private theorem feedLoop_error (h : s.Receiving id noBody) (hp : p.remaining ≠ 0)
    (hb : s.buffer ≠ []) {m : String}
    (hr : s.parseHeaders lib (s.buffer.take p.remaining) = .error m) :
    (frameHandler lib).feedLoop ⟨p, s.buffer, s⟩ =
      (⟨p, s.buffer, s.abortResponseHeaders m⟩, .closed) := by
  have hpa := onFramePayload_receiving lib h (s.buffer.take p.remaining)
  rw [hr] at hpa
  exact feedLoop_payload hp hb hpa rfl

private theorem feedLoop_blocking (h : s.Receiving id noBody) (hp : p.remaining ≠ 0)
    (hb : s.buffer ≠ []) {s1 : FcgiClient}
    (hr : s.parseHeaders lib (s.buffer.take p.remaining) = .ok (s1, 0))
    (hd : s1.destroyed = false) :
    (frameHandler lib).feedLoop ⟨p, s.buffer, s⟩ = (⟨p, s.buffer, s1⟩, .blocking) := by
  have hpa := onFramePayload_receiving lib h (s.buffer.take p.remaining)
  rw [hr] at hpa
  simp only [hd, Bool.false_eq_true] at hpa
  exact feedLoop_payload hp hb hpa rfl

private theorem feedLoop_stop (h : s.Receiving id noBody) (hp : p.remaining ≠ 0)
    (hb : s.buffer ≠ []) {s1 : FcgiClient} {n : Nat}
    (hr : s.parseHeaders lib (s.buffer.take p.remaining) = .ok (s1, n + 1))
    (he : s1.receivingHeaders = false) :
    (frameHandler lib).feedLoop ⟨p, s.buffer, s⟩ =
      (⟨{ p with remaining := p.remaining - (n + 1) }, s.buffer.drop (n + 1),
        { s1 with buffer := s1.buffer.drop (n + 1) }⟩, .stop) := by
  have hpa := onFramePayload_receiving lib h (s.buffer.take p.remaining)
  rw [hr] at hpa
  simp only [he, Bool.not_false] at hpa
  exact feedLoop_payload hp hb hpa rfl

end Payload

/-- What `ConsumeInput()` does after the parser has returned. -/
private def finish (lib : FcgiLib) : Feeding FcgiClient × FeedResult → FcgiClient
  | (f, .stop) =>
    let s := { f.state with parser := f.parser }
    if s.receivingHeaders then s else s.submitResponse lib
  | (f, _) => { f.state with parser := f.parser }

private theorem consumeInput_receiving (h : s.receivingHeaders = true) :
    (s.consumeInput lib).1 = finish lib ((frameHandler lib).feedLoop ⟨s.parser, s.buffer, s⟩) := by
  rw [consumeInput, FcgiFrameHandler.feed]
  generalize (frameHandler lib).feedLoop ⟨s.parser, s.buffer, s⟩ = result
  obtain ⟨f, result⟩ := result
  cases result with
  | stop =>
    simp only [finish, h]
    by_cases hre : f.state.receivingHeaders = true
    · rw [if_neg (by rw [hre]; decide), if_pos hre]
    · rw [if_pos (by simpa using hre), if_neg hre]
  | ok | blocking | more | closed => rfl

/-- These lines have been handled, and the block is not complete. -/
structure Handled (lib : FcgiLib) (s : FcgiClient) (id : Nat) (noBody : Bool)
    (handled : List Text) : Prop where
  receiving : s.Receiving id noBody
  headers : s.headers = headersOf lib handled
  totalHeaderSize : s.totalHeaderSize = linesSize lib handled
  size_lt : linesSize lib handled < maxTotalHttpHeaderSize

/-- The client waits for the rest of the block. -/
structure Waiting (lib : FcgiLib) (s : FcgiClient) (id : Nat) (noBody : Bool)
    (records : List StdoutRecord) (future : List UInt8) (handled : List Text) : Prop
    extends Handled lib s id noBody handled where
  position : (∃ records', Before s.parser id (s.buffer ++ future) records' ∧
      contentOn id records' = contentOn id records ∧
      (firstContent records').2 = (firstContent records).2) ∨
    AtFirst s.parser id (s.buffer ++ future) records

private theorem shownContent_before {b : List UInt8} {records' : List StdoutRecord}
    (h : Before p id (b ++ future) records')
    (hc : contentOn id records' = contentOn id records)
    (hfi : (firstContent records').2 = (firstContent records).2)
    (hsm : b = [] ∨ p.skip = 0 ∧ b.length < 8)
    (hst : received ++ future = stdoutStream id records) :
    shownContent records received = [] := by
  by_cases hni : (firstContent records).2 = []
  · rw [shownContent, hni, length_nil, take_zero]
  -- the payload begins after what is there
  obtain ⟨padding, hpa, hbu⟩ := h.stream_eq
  obtain ⟨hle, -⟩ := firstContent_le id records
  obtain ⟨hl', height⟩ := firstContent_le id records'
  have height' := height (by rw [hfi]; exact hni)
  have hl := congrArg length hc
  have hb := congrArg length hbu
  rw [contentOn, contentOn, length_drop, length_drop] at hl
  rw [← hst] at hl hle
  rw [length_append] at hl hle hb
  rw [length_append] at hb
  have hd : received.length ≤ (firstContent records).1 := by
    rcases hsm with rfl | ⟨hsk, hsh⟩
    · rw [length_nil] at hb
      omega
    · omega
  rw [shownContent, drop_eq_nil_of_le hd, take_nil]

private theorem shownContent_atFirst {src : List UInt8} (h : AtFirst p id (src ++ future) records)
    (hst : received ++ future = stdoutStream id records) :
    shownContent records received = src.take p.remaining := by
  obtain ⟨hle, -⟩ := firstContent_le id records
  have hc := h.stream_eq
  rw [contentOn, ← hst] at hc
  have hl := congrArg length hc
  rw [← hst, length_append] at hle
  rw [length_append, length_drop, length_append] at hl
  rw [drop_append_of_le_length (by omega)] at hc
  rw [shownContent, h.remaining, append_cancel_right hc]

private theorem releaseEarly_eq (s : FcgiClient) :
    ∃ released, s.releaseEarly = { s with released } := by
  by_cases h : s.released.isNone ∧ 0 < s.analyseBuffer.endRequestOffset ∧
      s.analyseBuffer.endRequestOffset ≤ s.buffer.length
  · exact ⟨_, if_pos h⟩
  · exact ⟨s.released, if_neg h⟩

/-- The client with another buffer. -/
def withBuffer (s : FcgiClient) (released : Option PutAction) (buffer : List UInt8) : FcgiClient :=
  { s with buffer, released }

private theorem receive_eq (lib : FcgiLib) (h : s.receivingHeaders = true)
    (hne : s.buffer ++ data ≠ []) :
    ∃ released, s.receive lib data = finish lib ((frameHandler lib).feedLoop
      ⟨s.parser, s.buffer ++ data, s.withBuffer released (s.buffer ++ data)⟩) := by
  obtain ⟨released, hre⟩ := releaseEarly_eq { s with buffer := s.buffer ++ data }
  refine ⟨released, ?_⟩
  rw [receive]
  simp only [hne]
  rw [onBufferedData, hre]
  exact consumeInput_receiving h

/-- The client looks at the first payload, or at what is there of it. -/
structure Looking (lib : FcgiLib) (s : FcgiClient) (p : FcgiParser) (id : Nat) (noBody : Bool)
    (records : List StdoutRecord) (future : List UInt8) (handled : List Text) : Prop
    extends Handled lib s id noBody handled where
  atFirst : AtFirst p id (s.buffer ++ future) records

section Read

variable {s : FcgiClient} {id : Nat} {noBody : Bool} {records : List StdoutRecord}
  {handled : List Text} {future : List UInt8}

private theorem Handled.withBuffer (h : Handled lib s id noBody handled) (r : Option PutAction)
    (b : List UInt8) : Handled lib (s.withBuffer r b) id noBody handled :=
  { h with receiving := { h.receiving with } }

private theorem receive_cases (hid : id < 65536)
    (h : Waiting lib s id noBody records (data ++ future) handled)
    (hst : received ++ data ++ future = stdoutStream id records) :
    (shownContent records (received ++ data) = [] ∧
        Waiting lib (s.receive lib data) id noBody records future handled) ∨
      ∃ s1 p, Looking lib s1 p id noBody records future handled ∧
        s.receive lib data = finish lib ((frameHandler lib).feedLoop ⟨p, s1.buffer, s1⟩) := by
  have hr := h.receiving
  have hpo := h.position
  rw [← append_assoc] at hpo
  by_cases hni : s.buffer ++ data = []
  · -- nothing was read
    left
    have hre : s.receive lib data = s.withBuffer s.released [] := by
      rw [receive]
      simp only [hni]
      rfl
    rw [hni] at hpo
    rw [hre]
    refine ⟨?_, h.withBuffer _ _, hpo⟩
    rcases hpo with ⟨records', hb, hc, hfi⟩ | hat
    · exact shownContent_before hb hc hfi (.inl rfl) hst
    · rw [shownContent_atFirst hat hst, take_nil]
  obtain ⟨released, hre⟩ := receive_eq lib hr.receivingHeaders hni
  rcases hpo with ⟨records', hb, hc, hfi⟩ | hat
  · have hre' := (h.withBuffer released (s.buffer ++ data)).receiving
    rcases feedLoop_before lib hid records' hre' hb hc hfi with
      ⟨p', src', records'', hlo, hb', hc', hf', hsm⟩ | ⟨p', src', hlo, hat⟩
    · left
      have hr' : s.receive lib data = { s.withBuffer released src' with parser := p' } :=
        hre.trans (congrArg (finish lib) hlo)
      rw [hr']
      refine ⟨shownContent_before hb' hc' hf' hsm hst, ?_⟩
      exact ⟨{ h with receiving := { hr with } }, .inl ⟨records'', hb', hc', hf'⟩⟩
    · right
      exact ⟨s.withBuffer released src', p', ⟨h.withBuffer released src', hat⟩,
        hre.trans (congrArg (finish lib) hlo)⟩
  · right
    exact ⟨s.withBuffer released (s.buffer ++ data), s.parser,
      ⟨h.withBuffer released _, hat⟩, hre⟩

private theorem receive_incomplete (hid : id < 65536)
    (h : Waiting lib s id noBody records (data ++ future) handled)
    (hst : received ++ data ++ future = stdoutStream id records) {lines : List Text}
    {rest : Text} (hli : ∀ line ∈ lines, HeaderLine lib line) (hr : 0x0a ∉ rest)
    (hsh : shownContent records (received ++ data) = joinLines lines ++ rest) :
    linesSize lib (handled ++ lines) < maxTotalHttpHeaderSize ∧
        Waiting lib (s.receive lib data) id noBody records future (handled ++ lines) ∨
      ¬linesSize lib (handled ++ lines) < maxTotalHttpHeaderSize ∧
        (s.receive lib data).receivingHeaders = true ∧ (s.receive lib data).destroyed = true := by
  have hl (hni : joinLines lines = []) : lines = [] := by
    cases lines with
    | nil => rfl
    | cons line lines => simp at hni
  rcases receive_cases hid h hst with ⟨hni, hw⟩ | ⟨s1, p, hlo, hre⟩
  · left
    rw [hsh, append_eq_nil_iff] at hni
    rw [hl hni.1, append_nil]
    exact ⟨h.size_lt, hw⟩
  have hc := hlo.receiving
  have hne := hlo.atFirst.remaining_ne
  rw [shownContent_atFirst hlo.atFirst hst] at hsh
  by_cases hb : s1.buffer = []
  · left
    rw [hb, take_nil] at hsh
    rw [hl (append_eq_nil_iff.mp hsh.symm).1, append_nil]
    rw [hb, feedLoop_empty lib hne] at hre
    have hr' : s.receive lib data = { s1 with parser := p } := hre
    rw [hr']
    exact ⟨h.size_lt, { hlo.toHandled with receiving := { hc with } }, .inr hlo.atFirst⟩
  have hpa := parseHeaders_incomplete (s := s1) hli hr
    (by rw [hlo.totalHeaderSize]; exact hlo.size_lt)
  rw [← hsh, hlo.totalHeaderSize, ← linesSize_append] at hpa
  by_cases hlt : linesSize lib (handled ++ lines) < maxTotalHttpHeaderSize
  · left
    rw [if_pos hlt] at hpa
    rw [feedLoop_blocking hc hne hb hpa hc.destroyed] at hre
    have hr' : s.receive lib data = { s1.addLines lib lines with parser := p } := hre
    rw [hr']
    refine ⟨hlt, ⟨{ hc with }, ?_, ?_, hlt⟩, .inr hlo.atFirst⟩
    · rw [headersOf_append, ← hlo.headers]
      rfl
    · rw [linesSize_append, ← hlo.totalHeaderSize]
      rfl
  · right
    rw [if_neg hlt] at hpa
    rw [feedLoop_error hc hne hb hpa] at hre
    rw [hre]
    exact ⟨hlt, hc.receivingHeaders, rfl⟩

private theorem passes_submitResponse (hen : s.receivingHeaders = false) (ho : s.outputs = [])
    (headers : StringMap) :
    (s.submitResponse lib).Passes headers ↔ submittedHeaders lib s.noBody s.headers = headers := by
  rw [submitResponse, submittedHeaders]
  simp only
  by_cases he : (s.noBody || lib.statusIsEmpty (removeStatus lib s.headers).1) = true
  · rw [if_pos he, if_pos he]
    simp [Passes, hen, ho]
  rw [if_neg he, if_neg he]
  have hnoB : s.noBody = false := by
    cases h : s.noBody with
    | false => rfl
    | true => simp [h] at he
  cases hc : s.closesBody with
  | true => simp [Passes, emit, destroy, hen, ho, hnoB, eq_comm]
  | false => simp [Passes, emit, hen, ho, hnoB, eq_comm]

private theorem receivingHeaders_submitResponse (s : FcgiClient) :
    (s.submitResponse lib).receivingHeaders = s.receivingHeaders := by
  rw [submitResponse]
  simp only
  split
  · rfl
  · split
    · rfl
    · rfl

private theorem receive_block (hid : id < 65536)
    (h : Waiting lib s id noBody records (data ++ future) handled)
    (hst : received ++ data ++ future = stdoutStream id records) {lines : List Text}
    {last : Text} (hb : HeaderBlock lib lines last) {rest : Text}
    (hsh : shownContent records (received ++ data) = blockBytes lines last ++ rest) :
    linesSize lib (handled ++ lines) < maxTotalHttpHeaderSize ∧
        (s.receive lib data).receivingHeaders = false ∧
        (∀ headers, (s.receive lib data).Passes headers ↔
          submittedHeaders lib noBody (headersOf lib (handled ++ lines)) = headers) ∨
      ¬linesSize lib (handled ++ lines) < maxTotalHttpHeaderSize ∧
        (s.receive lib data).receivingHeaders = true ∧ (s.receive lib data).destroyed = true := by
  have hbl : blockBytes lines last ++ rest ≠ [] := by simp [blockBytes]
  rcases receive_cases hid h hst with ⟨hni, -⟩ | ⟨s1, p, hlo, hre⟩
  · rw [hni] at hsh
    exact absurd hsh.symm hbl
  have hr := hlo.receiving
  have hne := hlo.atFirst.remaining_ne
  rw [shownContent_atFirst hlo.atFirst hst] at hsh
  have hbu : s1.buffer ≠ [] := by
    intro hni
    rw [hni, take_nil] at hsh
    exact hbl hsh.symm
  have hpa := parseHeaders_block (s := s1) hb
    (by rw [hlo.totalHeaderSize]; exact hlo.size_lt) rest
  rw [← hsh, hlo.totalHeaderSize, ← linesSize_append] at hpa
  by_cases hlt : linesSize lib (handled ++ lines) < maxTotalHttpHeaderSize
  · left
    obtain ⟨nbytes, hnb⟩ : ∃ nbytes, (blockBytes lines last).length = nbytes + 1 := by
      refine ⟨(blockBytes lines last).length - 1, ?_⟩
      have hpo : (blockBytes lines last).length =
          (joinLines lines).length + (last.length + 1) := by simp [blockBytes]
      omega
    rw [if_pos hlt, hnb] at hpa
    rw [feedLoop_stop hr hne hbu hpa rfl] at hre
    obtain ⟨s2, hr', he, ho, hh, hnoB⟩ : ∃ s2 : FcgiClient,
        s.receive lib data = s2.submitResponse lib ∧ s2.receivingHeaders = false ∧
        s2.outputs = [] ∧ s2.headers = s1.headers ++ headersOf lib lines ∧
        s2.noBody = s1.noBody := ⟨_, hre, rfl, hr.outputs, rfl, rfl⟩
    rw [hr', receivingHeaders_submitResponse]
    refine ⟨hlt, he, fun headers => ?_⟩
    rw [passes_submitResponse he ho, hh, hnoB, headersOf_append, ← hlo.headers, ← hr.noBody_eq]
  · right
    rw [if_neg hlt] at hpa
    rw [feedLoop_error hr hne hbu hpa] at hre
    rw [hre]
    exact ⟨hlt, hr.receivingHeaders, rfl⟩

end Read

private theorem shownContent_isPrefix (records : List StdoutRecord) (received future : List UInt8) :
    shownContent records received <+: shownContent records (received ++ future) :=
  ((prefix_append received future).drop _).take _

private theorem shownContent_all (id : Nat) (records : List StdoutRecord) :
    shownContent records (stdoutStream id records) = (firstContent records).2 := by
  show (contentOn id records).take (firstContent records).2.length = (firstContent records).2
  induction records with
  | nil => rfl
  | cons r records ih =>
    by_cases hni : r.content = []
    · rw [contentOn_nil hni, firstContent, if_pos hni]
      exact ih
    · rw [contentOn_cons hni, firstContent, if_neg hni, StdoutRecord.body, append_assoc]
      exact take_left

private theorem firstContent_isPrefix (records : List StdoutRecord) :
    (firstContent records).2 <+: (records.map StdoutRecord.content).flatten := by
  induction records with
  | nil => exact prefix_rfl
  | cons r records ih =>
    rw [firstContent, map_cons]
    by_cases hni : r.content = []
    · rw [hni]
      exact ih
    · rw [if_neg hni]
      exact prefix_append _ _

private theorem headersOf_eq_nil {lines : List Text} (h : ∀ line ∈ lines, HeaderLine lib line)
    (hni : headersOf lib lines = []) : lines = [] := by
  cases lines with
  | nil => rfl
  | cons line lines =>
    rw [headersOf, filterMap_eq_nil_iff] at hni
    have hpa := (h line mem_cons_self).parsed
    rw [hni line mem_cons_self] at hpa
    cases hpa

private theorem linesSize_nil_lt (lib : FcgiLib) : linesSize lib [] < maxTotalHttpHeaderSize := by
  show 0 < maxTotalHttpHeaderSize
  decide

private theorem receiveHeaders_done (h : s.receivingHeaders = false ∨ s.destroyed = true)
    (r : List (List UInt8)) :
    s.receiveHeaders lib r = s := by
  cases r with
  | nil => rfl
  | cons data r =>
    rw [receiveHeaders]
    rcases h with h | h
    · simp [h]
    · simp [h]

private theorem not_passes (hre : s.receivingHeaders = true) (headers : StringMap) :
    ¬s.Passes headers := fun h =>
  Bool.false_ne_true (h.1.symm.trans hre)

section Run

variable {id : Nat} {noBody : Bool} {records : List StdoutRecord} {lines : List Text} {last : Text}

/-- With what has been received, the block is complete or has not one complete line. -/
def Undivided (lines : List Text) (last : Text) (records : List StdoutRecord)
    (received : List UInt8) : Prop :=
  blockBytes lines last <+: shownContent records received ∨ 0x0a ∉ shownContent records received

private theorem passes_receiveHeaders (hid : id < 65536) (hb : HeaderBlock lib lines last)
    (hr : blockBytes lines last <+: (records.map StdoutRecord.content).flatten)
    (reads : List (List UInt8)) :
    ∀ {s : FcgiClient} {received : List UInt8} {handled : List Text},
      Waiting lib s id noBody records reads.flatten handled →
      received ++ reads.flatten = stdoutStream id records →
      ¬blockBytes lines last <+: shownContent records received →
      (∀ line ∈ handled, line ∈ lines) →
      ((s.receiveHeaders lib reads).Passes (submittedHeaders lib noBody (headersOf lib lines)) ↔
        handled = [] ∧ blockBytes lines last <+: (firstContent records).2 ∧
          ∀ k, Undivided lines last records (received ++ (reads.take (k + 1)).flatten)) := by
  induction reads with
  | nil =>
    intro s received handled h hst hsh _
    rw [flatten_nil, append_nil] at hst
    rw [hst, shownContent_all] at hsh
    exact iff_of_false (not_passes h.receiving.receivingHeaders _) fun hal => hsh hal.2.1
  | cons data reads ih =>
    intro s received handled h hst hsh hh
    rw [flatten_cons] at h hst
    rw [← append_assoc] at hst
    have hs : s.receiveHeaders lib (data :: reads) =
        (s.receive lib data).receiveHeaders lib reads := by
      rw [receiveHeaders, h.receiving.receivingHeaders, h.receiving.destroyed]
      rfl
    have ht : ∀ k, received ++ ((data :: reads).take (k + 1)).flatten =
        received ++ data ++ (reads.take k).flatten := by
      intro k
      rw [take_succ_cons, flatten_cons, append_assoc]
    have hl : ∀ line ∈ handled, HeaderLine lib line := fun line hme => hb.line line (hh line hme)
    rw [hs]
    simp only [ht]
    by_cases hc : blockBytes lines last <+: shownContent records (received ++ data)
    · obtain ⟨rest, hrs⟩ := hc
      have hpr : blockBytes lines last <+: shownContent records (received ++ data) := ⟨rest, hrs⟩
      rcases receive_block hid h hst hb hrs.symm with
        ⟨-, he, hp⟩ | ⟨hsi, hre, hd⟩
      · rw [receiveHeaders_done (.inl he), hp, headersOf_append]
        constructor
        · intro hhe
          have hni : headersOf lib handled = [] := by
            apply eq_nil_of_submittedHeaders _ hhe
            intro item hi
            rw [headersOf, mem_filterMap] at hi ⊢
            obtain ⟨line, hme, ha⟩ := hi
            exact ⟨line, hh line hme, ha⟩
          refine ⟨headersOf_eq_nil hl hni, ?_, fun k => .inl ?_⟩
          · rw [← shownContent_all id records, ← hst]
            exact hpr.trans (shownContent_isPrefix _ _ _)
          · exact hpr.trans (shownContent_isPrefix _ _ _)
        · rintro ⟨rfl, -⟩
          rfl
      · rw [receiveHeaders_done (.inr hd)]
        refine iff_of_false (not_passes hre _) ?_
        rintro ⟨rfl, -⟩
        exact hsi hb.size_lt
    -- a part of the block is there, and some of its lines are complete
    have hpa : shownContent records (received ++ data) <+:
        (records.map StdoutRecord.content).flatten := by
      refine .trans ?_ (firstContent_isPrefix records)
      rw [← shownContent_all id records, ← hst]
      exact shownContent_isPrefix _ _ _
    have hle : shownContent records (received ++ data) <+: blockBytes lines last :=
      (List.prefix_or_prefix_of_prefix hr hpa).resolve_left hc
    obtain ⟨pre, post, rest, hli, hs', hrs⟩ := exists_lines_of_prefix hb.no_lf lines
      (fun line hme => (hb.line line hme).no_lf) hle
      fun heq => hc (by rw [heq])
    have hpe : ∀ line ∈ pre, line ∈ lines := by
      intro line hme
      rw [hli]
      exact mem_append_left post hme
    have hu : Undivided lines last records
        (received ++ data ++ (reads.take 0).flatten) ↔ pre = [] := by
      rw [take_zero, flatten_nil, append_nil, Undivided, hs', lf_mem_iff hrs, not_not, ← hs']
      exact ⟨fun ho => ho.resolve_left hc, .inr⟩
    rcases receive_incomplete hid h hst (fun line hme => hb.line line (hpe line hme))
      hrs hs' with ⟨-, hw⟩ | ⟨hsi, hre, hd⟩
    · rw [ih hw hst hc fun line hme =>
        (mem_append.mp hme).elim (hh line) (hpe line), append_eq_nil_iff,
        and_assoc]
      constructor
      · rintro ⟨hni, hpreN, hfi, haf⟩
        refine ⟨hni, hfi, fun k => ?_⟩
        cases k with
        | zero => exact hu.mpr hpreN
        | succ k => exact haf k
      · rintro ⟨hni, hfi, haf⟩
        exact ⟨hni, hu.mp (haf 0), hfi, fun k => haf (k + 1)⟩
    · rw [receiveHeaders_done (.inr hd)]
      refine iff_of_false (not_passes hre _) ?_
      rintro ⟨rfl, -, haf⟩
      rw [hu.mp (haf 0)] at hsi
      exact hsi (linesSize_nil_lt lib)

end Run

/-- A library for examples: every name is valid, and there is a body unless the status is 204. -/
def plainLib : FcgiLib where
  nameValid _ := true
  isWhitespace c := c ≤ 0x20
  toLookup := .first
  statusIsValid status := decide (100 ≤ status ∧ status < 600)
  statusIsEmpty status := status == 204

/-- A record without padding, for examples. -/
def plainRecord (s : String) (h : (ascii s).length < 65536) : StdoutRecord where
  content := ascii s
  content_lt := h
  padding_lt := by decide

/-- The handler that accepts nothing, for examples. -/
def idleHandler : Handler where
  accept _ := some 0

end FcgiClient

end BengProxy.Fcgi
