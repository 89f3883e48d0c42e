import BengProxy.Fcgi.Serialize

/-!
# The record of parameters

The number of bytes that the serializer counts is what it writes. If it fits in the header of the
record, then the pairs can be decoded from the stream; otherwise the header says less than what
follows it. The limits on the headers that a client may send do not help: every header takes more
bytes as a parameter than on a line.
-/

namespace BengProxy.Fcgi

open Base Text FcgiRecordType FcgiRecordHeader List StringMap FcgiParamsSerializer

/-- The size of a length. -/
def lengthSize (n : Nat) : Nat := if n < 0x80 then 1 else 4

/-- The size of an encoded pair. -/
def pairSize (pair : Text × Text) : Nat :=
  lengthSize pair.1.length + lengthSize pair.2.length + pair.1.length + pair.2.length

variable (pairs : List (Text × Text))

/-- The size of all encoded pairs. -/
def paramsSize : Nat := (pairs.map pairSize).sum

private theorem fcgiSerializeLength_size (n : Nat) :
    (fcgiSerializeLength n).1.length = lengthSize n ∧ (fcgiSerializeLength n).2 = lengthSize n := by
  rw [fcgiSerializeLength, lengthSize]
  split
  all_goals exact ⟨rfl, rfl⟩

private theorem fcgiSerializePair_eq (name v : Text) :
    fcgiSerializePair name v =
      ((fcgiSerializeLength name.length).1 ++ (fcgiSerializeLength v.length).1 ++ name ++ v,
        (fcgiSerializeLength name.length).2 + (fcgiSerializeLength v.length).2 +
          name.length + v.length) := rfl

private theorem fcgiSerializePair_size (pair : Text × Text) :
    (fcgiSerializePair pair.1 pair.2).1.length = pairSize pair ∧
      (fcgiSerializePair pair.1 pair.2).2 = pairSize pair := by
  have hna := fcgiSerializeLength_size pair.1.length
  have hv := fcgiSerializeLength_size pair.2.length
  rw [fcgiSerializePair_eq, pairSize]
  constructor
  · rw [length_append, length_append, length_append, hna.1, hv.1]
  · rw [hna.2, hv.2]

/-- The bytes of all pairs. -/
def encodedPairs : List UInt8 :=
  pairs.flatMap fun pair => (fcgiSerializePair pair.1 pair.2).1

theorem length_encodedPairs : (encodedPairs pairs).length = paramsSize pairs := by
  rw [encodedPairs, length_flatMap]
  congr 1
  exact map_congr_left fun pair _ => (fcgiSerializePair_size pair).1

private theorem foldl_add (ps : FcgiParamsSerializer) : pairs.foldl add ps =
      { written := ps.written ++ encodedPairs pairs
        contentLength := ps.contentLength + paramsSize pairs } := by
  induction pairs generalizing ps with
  | nil => simp [encodedPairs, paramsSize]
  | cons pair pairs ih =>
    rw [foldl_cons, ih]
    simp only [FcgiParamsSerializer.add, (fcgiSerializePair_size pair).2, encodedPairs,
      paramsSize, flatMap_cons, map_cons, sum_cons, append_assoc,
      add_assoc]

private theorem parseLength_serialize {n : Nat} (h : n < 0x80000000) (rest : List UInt8) :
    parseLength ((fcgiSerializeLength n).1 ++ rest) = some (n, rest) := by
  rw [fcgiSerializeLength]
  split
  next hsm =>
    have hb : (UInt8.ofNat n).toNat = n := by
      rw [UInt8.toNat_ofNat']
      omega
    have hlt : UInt8.ofNat n < 0x80 := by
      rw [UInt8.lt_iff_toNat_lt, hb]
      exact hsm
    show (if UInt8.ofNat n < 0x80 then some ((UInt8.ofNat n).toNat, rest) else _) = _
    rw [if_pos hlt, hb]
  next hla =>
    -- the highest bit is the mark of a long length
    have ho : n ||| 0x80000000 = n + 0x80000000 := by
      have had := Nat.two_pow_add_eq_or_of_lt (i := 31) h 1
      rw [Nat.or_comm, add_comm]
      exact had.symm
    rw [ho]
    have hg : ¬UInt8.ofNat ((n + 0x80000000) / 16777216) < 0x80 := by
      rw [UInt8.lt_iff_toNat_lt, UInt8.toNat_ofNat']
      show ¬_ % 256 < 128
      omega
    show (if UInt8.ofNat ((n + 0x80000000) / 16777216) < 0x80 then _ else some (_, rest)) = _
    rw [if_neg hg, ofBe32_be32 (by omega), Nat.add_sub_cancel]

private theorem parsePair_serialize {pair : Text × Text} (hna : pair.1.length < 0x80000000)
    (hv : pair.2.length < 0x80000000) (rest : List UInt8) :
    parsePair ((fcgiSerializePair pair.1 pair.2).1 ++ rest) = some (pair, rest) := by
  have hb : (fcgiSerializePair pair.1 pair.2).1 ++ rest =
      (fcgiSerializeLength pair.1.length).1 ++ ((fcgiSerializeLength pair.2.length).1 ++
        (pair.1 ++ (pair.2 ++ rest))) := by
    rw [fcgiSerializePair_eq, append_assoc, append_assoc, append_assoc]
  rw [hb, parsePair, parseLength_serialize hna]
  simp only
  rw [parseLength_serialize hv]
  simp only
  have hle : ¬(pair.1 ++ (pair.2 ++ rest)).length < pair.1.length + pair.2.length := by
    rw [length_append, length_append]
    omega
  rw [if_neg hle, take_left, drop_left, take_left, ← drop_drop, drop_left, drop_left]

private theorem parsePairs_encodedPairs :
    ∀ fuel, (∀ pair ∈ pairs, pair.1.length < 0x80000000 ∧ pair.2.length < 0x80000000) →
      pairs.length ≤ fuel → parsePairs fuel (encodedPairs pairs) = some pairs := by
  induction pairs with
  | nil =>
    intro fuel _ _
    cases fuel with
    | zero | succ fuel => rfl
  | cons pair pairs ih =>
    intro fuel hsm hfu
    obtain ⟨hna, hv⟩ := hsm pair mem_cons_self
    cases fuel with
    | zero => exact absurd hfu (Nat.not_succ_le_zero _)
    | succ fuel =>
      have hpa := parsePair_serialize hna hv (encodedPairs pairs)
      have hr := ih fuel (fun p hp => hsm p (mem_cons_of_mem pair hp))
        (Nat.le_of_succ_le_succ hfu)
      have hc : encodedPairs (pair :: pairs) =
          (fcgiSerializePair pair.1 pair.2).1 ++ encodedPairs pairs := flatMap_cons
      have hpo : 0 < (encodedPairs (pair :: pairs)).length := by
        rw [length_encodedPairs, paramsSize, map_cons, sum_cons, pairSize, lengthSize]
        split
        · omega
        · omega
      cases hb : encodedPairs (pair :: pairs) with
      | nil =>
        rw [hb] at hpo
        exact absurd hpo (lt_irrefl 0)
      | cons c s =>
        rw [parsePairs, ← hb, hc, hpa]
        simp only
        rw [hr]
        rfl

private theorem pairSize_le {pairs : List (Text × Text)} {pair : Text × Text} (h : pair ∈ pairs) :
    pairSize pair ≤ paramsSize pairs := by
  induction pairs with
  | nil => exact absurd h not_mem_nil
  | cons p pairs ih =>
    rcases mem_cons.mp h with rfl | h
    · exact Nat.le_add_right _ _
    · exact Nat.le_add_left_of_le (ih h)

private theorem length_le_paramsSize : pairs.length ≤ paramsSize pairs := by
  induction pairs with
  | nil => exact Nat.zero_le _
  | cons pair pairs ih =>
    rw [length_cons, paramsSize, map_cons, sum_cons, ← paramsSize, pairSize, lengthSize]
    split
    · omega
    · omega

/-- The record of parameters says how long it is, and the pairs can be decoded from the stream. -/
structure ParamsDecodable (l : Lookup) (r : FcgiRequest) : Prop where
  /-- The length in the header of the record is the number of bytes that follow. -/
  contentLength_eq : ∃ header,
    parse ((serializedParams l r).commit r.requestId) =
      some (header, (serializedParams l r).written) ∧
    header.contentLength = (serializedParams l r).written.length
  receivedParams_eq : receivedParams (fcgiClientRequest l r) = some (requestPairs l r)

private theorem serializedParams_eq (l : Lookup) (r : FcgiRequest) :
    serializedParams l r =
      { written := encodedPairs (requestPairs l r)
        contentLength := paramsSize (requestPairs l r) } := by
  rw [serializedParams, foldl_add, nil_append, zero_add]

private theorem parse_commit (l : Lookup) (r : FcgiRequest) :
    parse ((serializedParams l r).commit r.requestId) =
      some ({ type := params.code, requestId := r.requestId % 65536,
              contentLength := paramsSize (requestPairs l r) % 65536 },
        encodedPairs (requestPairs l r)) := by
  rw [serializedParams_eq]
  exact parse_bytes _ _

private theorem parseRecords_beginRequest (id fuel : Nat) (rest : List UInt8) :
    parseRecords (fuel + 1) (beginRequestRecord id ++ rest) =
      (parseRecords fuel rest).map
        (⟨beginRequest.code, id % 65536, be16 1 ++ [1, 0, 0, 0, 0, 0]⟩ :: ·) := by
  rw [beginRequestRecord, append_assoc]
  exact parseRecords_append _ _ rest fuel rfl rfl

private theorem parseRecords_empty (type : FcgiRecordType) (id fuel : Nat) (rest : List UInt8) :
    parseRecords (fuel + 1) (emptyRecord type id ++ rest) =
      (parseRecords fuel rest).map (⟨type.code, id % 65536, []⟩ :: ·) := by
  exact parseRecords_append _ [] rest fuel rfl rfl

private theorem parseRecords_nil (fuel : Nat) : parseRecords fuel [] = some [] := by
  cases fuel with
  | zero | succ fuel => rfl

private theorem parseRecords_end (r : FcgiRequest) (fuel : Nat) :
    ∃ records, parseRecords (fuel + 2) (emptyRecord .params r.requestId ++
        if r.body.isSome then [] else emptyRecord .stdin r.requestId) = some records ∧
      (records.filter (·.type = params.code)).flatMap (·.content) = [] := by
  rw [parseRecords_empty]
  split
  · exact ⟨_, rfl, rfl⟩
  · rw [← append_nil (emptyRecord .stdin r.requestId), parseRecords_empty, parseRecords_nil]
    exact ⟨_, rfl, rfl⟩

private theorem parseRecords_params {pairs : List (Text × Text)} (h : paramsSize pairs < 65536)
    (id fuel : Nat) (rest : List UInt8) :
    parseRecords (fuel + 1) (commit
        { written := encodedPairs pairs, contentLength := paramsSize pairs } id ++ rest) =
      (parseRecords fuel rest).map
        (⟨params.code, id % 65536, encodedPairs pairs⟩ :: ·) := by
  have hle : paramsSize pairs % 65536 = (encodedPairs pairs).length := by
    rw [length_encodedPairs, Nat.mod_eq_of_lt h]
  exact parseRecords_append
    { type := params.code, requestId := id, contentLength := paramsSize pairs }
    (encodedPairs pairs) rest fuel hle rfl

private theorem records_of_request {l : Lookup} {r : FcgiRequest}
    (h : paramsSize (requestPairs l r) < 65536) (fuel : Nat) :
    ∃ records, parseRecords (fuel + 4) (fcgiClientRequest l r) = some records ∧
      (records.filter (·.type = params.code)).flatMap (·.content) =
        encodedPairs (requestPairs l r) := by
  obtain ⟨records, hre, hc⟩ := parseRecords_end r fuel
  rw [fcgiClientRequest, parseRecords_beginRequest, serializedParams_eq, parseRecords_params h, hre]
  refine ⟨_, rfl, ?_⟩
  have ht : beginRequest.code ≠ params.code := by decide
  rw [filter_cons_of_neg (by simp [ht]), filter_cons_of_pos (by simp), flatMap_cons, hc, append_nil]

/-- **The record of parameters.** Its header says how many bytes follow, and decoding the stream
yields the pairs that were written, if and only if the encoded pairs have less than `2 ^ 16`
bytes. -/
theorem paramsDecodable_iff (l : Lookup) (r : FcgiRequest) :
    ParamsDecodable l r ↔ paramsSize (requestPairs l r) < 65536 := by
  have hpar := parse_commit l r
  have hlen := length_encodedPairs (requestPairs l r)
  constructor
  · intro h
    obtain ⟨header, hh, he⟩ := h.contentLength_eq
    rw [hpar] at hh
    rw [serializedParams_eq, ← (Prod.mk.inj (Option.some.inj hh)).1, hlen] at he
    have hmo : paramsSize (requestPairs l r) % 65536 = paramsSize (requestPairs l r) := he
    omega
  · intro h
    constructor
    · have hw : (serializedParams l r).written = encodedPairs (requestPairs l r) := by
        rw [serializedParams_eq]
      rw [hw, hlen]
      exact ⟨_, hpar, Nat.mod_eq_of_lt h⟩
    · have hfu : 4 ≤ (fcgiClientRequest l r).length := by
        rw [fcgiClientRequest, beginRequestRecord, length_append, length_append, length_bytes]
        omega
      obtain ⟨records, hre, hc⟩ := records_of_request h ((fcgiClientRequest l r).length - 4)
      rw [Nat.sub_add_cancel hfu] at hre
      rw [receivedParams, hre]
      simp only [hc]
      apply parsePairs_encodedPairs
      · intro pair hpa
        have hle := pairSize_le hpa
        rw [pairSize] at hle
        omega
      · rw [hlen]
        exact length_le_paramsSize _

/-- The size of the line of a header. -/
def lineSize (header : Text × Text) : Nat := header.1.length + 2 + header.2.length

/-- `src/http/HeaderLimits.hxx:12, 17`: a limit for each line, and one for all lines with the line
breaks. -/
def WithinHeaderLimits (headers : StringMap) : Prop :=
  (∀ header ∈ headers, lineSize header < 8192) ∧ (headers.map (lineSize · + 2)).sum < 64 * 1024

/-- A request with many headers that have a short name and no value. -/
def manyHeaders : FcgiRequest where
  requestId := 1
  method := ascii "GET"
  headers := List.replicate 8192 (ascii "a", [])

private theorem values_manyHeaders {key : Text} (h : ascii "a" ≠ key) :
    values manyHeaders.headers key = [] := by
  rw [values, manyHeaders, filter_replicate, if_neg (by simp [h]), map_nil]

private theorem headerPairs_manyHeaders :
    headerPairs manyHeaders.headers = List.replicate 8192 (ascii "HTTP_A", []) := by
  have hke : ascii "a" ≠ ascii "x-cm4all-https" := by decide
  rw [headerPairs, manyHeaders, filter_replicate, if_pos (by simp [hke]), map_replicate]
  rfl

private theorem paramsSize_append (a b : List (Text × Text)) :
    paramsSize (a ++ b) = paramsSize a + paramsSize b := by
  rw [paramsSize, map_append, sum_append, paramsSize, paramsSize]

private theorem paramsSize_manyHeaders : paramsSize (requestPairs .first manyHeaders) = 65655 := by
  have ht : get .first manyHeaders.headers (ascii "content-type") = none :=
    get_eq_none_iff.mpr (values_manyHeaders (by decide))
  have hht : get .first manyHeaders.headers (ascii "x-cm4all-https") = none :=
    get_eq_none_iff.mpr (values_manyHeaders (by decide))
  have hs : pairSize (ascii "HTTP_A", []) = 8 := by decide
  have hh : paramsSize (headerPairs manyHeaders.headers) = 65536 := by
    rw [headerPairs_manyHeaders, paramsSize, map_replicate, sum_replicate]
    rfl
  rw [requestPairs, paramsSize_append, paramsSize_append, hh, ht, httpsPairs, hht]
  decide

/-- Headers that a client may send: 65655 bytes follow the header of the record, which says that
there are 119. -/
theorem manyHeaders_truncated :
    WithinHeaderLimits manyHeaders.headers ∧
      (serializedParams .first manyHeaders).written.length = 65655 ∧
      (parse ((serializedParams .first manyHeaders).commit 1)).map
        (·.1.contentLength) = some 119 := by
  have hsize := paramsSize_manyHeaders
  refine ⟨⟨?_, ?_⟩, ?_, ?_⟩
  · intro header hh
    rw [eq_of_mem_replicate hh]
    decide
  · have hline : lineSize (ascii "a", []) + 2 = 5 := by decide
    rw [manyHeaders, map_replicate, sum_replicate]
    decide
  · rw [serializedParams_eq, length_encodedPairs, hsize]
  · rw [show (1 : Nat) = manyHeaders.requestId from rfl, parse_commit, hsize]
    rfl

end BengProxy.Fcgi
