import BengProxy.Base.BigEndian

/-!
# The FastCGI protocol

Models `src/fcgi/Protocol.hxx`: the header of a record, in memory as on the wire. A stream consists
of records, each one with a header, a content and padding.
-/

namespace BengProxy.Fcgi

open Base

/-- `FcgiRecordType`, `Protocol.hxx:14-26`. -/
inductive FcgiRecordType where
  | beginRequest
  | abortRequest
  | endRequest
  | params
  | stdin
  | stdout
  | stderr
  | data
  | getValues
  | getValuesResult
  | unknownType
  deriving DecidableEq, Repr

/-- The number of a type. -/
def FcgiRecordType.code : FcgiRecordType → UInt8
  | .beginRequest => 1
  | .abortRequest => 2
  | .endRequest => 3
  | .params => 4
  | .stdin => 5
  | .stdout => 6
  | .stderr => 7
  | .data => 8
  | .getValues => 9
  | .getValuesResult => 10
  | .unknownType => 11

/-- `FcgiRecordHeader`, `Protocol.hxx:28-39`. Numbers are those of the fields, which have
16 bits; the type of a record that was received may be any number. -/
structure FcgiRecordHeader where
  version : UInt8 := 1
  type : UInt8
  requestId : Nat
  contentLength : Nat
  paddingLength : UInt8 := 0
  reserved : UInt8 := 0
  deriving DecidableEq, Repr

namespace FcgiRecordHeader

/-- The bytes of a header. -/
def bytes (h : FcgiRecordHeader) : List UInt8 :=
  [h.version, h.type] ++ be16 h.requestId ++ be16 h.contentLength ++ [h.paddingLength, h.reserved]

/-- The header at the beginning of some bytes; missing if there are not enough. -/
def parse : List UInt8 → Option (FcgiRecordHeader × List UInt8)
  | version :: type :: id1 :: id0 :: length1 :: length0 :: padding :: reserved :: rest =>
    some
      ({ version, type, requestId := ofBe16 id1 id0, contentLength := ofBe16 length1 length0,
         paddingLength := padding, reserved }, rest)
  | _ => none

@[simp]
theorem length_bytes (h : FcgiRecordHeader) : h.bytes.length = 8 := rfl

/-- A header is parsed as it was written, with numbers of 16 bits. -/
theorem parse_bytes (h : FcgiRecordHeader) (rest : List UInt8) :
    parse (h.bytes ++ rest) =
      some ({ h with
        requestId := h.requestId % 65536, contentLength := h.contentLength % 65536 }, rest) := by
  rw [← ofBe16_be16 h.requestId, ← ofBe16_be16 h.contentLength]
  rfl

theorem length_of_parse {s rest : List UInt8} {h : FcgiRecordHeader}
    (hpa : parse s = some (h, rest)) : s.length = rest.length + 8 := by
  unfold parse at hpa
  split at hpa
  · rw [← (Prod.mk.inj (Option.some.inj hpa)).2]
    rfl
  · cases hpa

end FcgiRecordHeader

/-- A record without its padding. -/
structure FcgiRecord where
  type : UInt8
  requestId : Nat
  content : List UInt8
  deriving DecidableEq, Repr

/-- The records of a stream; missing if the last one is not complete, or without enough fuel. -/
def parseRecords : Nat → List UInt8 → Option (List FcgiRecord)
  | _, [] => some []
  | 0, _ :: _ => none
  | fuel + 1, c :: s =>
    match FcgiRecordHeader.parse (c :: s) with
    | none => none
    | some (h, rest) =>
      if rest.length < h.contentLength + h.paddingLength.toNat then none
      else
        (parseRecords fuel (rest.drop (h.contentLength + h.paddingLength.toNat))).map
          (⟨h.type, h.requestId, rest.take h.contentLength⟩ :: ·)

theorem parseRecords_append (h : FcgiRecordHeader) (content rest : List UInt8) (fuel : Nat)
    (hle : h.contentLength % 65536 = content.length) (hp : h.paddingLength = 0) :
    parseRecords (fuel + 1) (h.bytes ++ (content ++ rest)) =
      (parseRecords fuel rest).map (⟨h.type, h.requestId % 65536, content⟩ :: ·) := by
  have hpa := h.parse_bytes (content ++ rest)
  obtain ⟨c, s, hs⟩ : ∃ c s, h.bytes ++ (content ++ rest) = c :: s := ⟨_, _, rfl⟩
  rw [hs] at hpa ⊢
  rw [parseRecords, hpa]
  simp only [hle, hp, UInt8.toNat_zero, add_zero]
  rw [if_neg (by rw [List.length_append]; omega), List.drop_left, List.take_left]

end BengProxy.Fcgi
