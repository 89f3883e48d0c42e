import BengProxy.StringMap

/-!
# Header lines

Models `header_parse_line()`, `src/http/HeaderParser.cxx`. What the library provides is a parameter:
which names are valid, and which characters are white space.
-/

namespace BengProxy.Http

open Base Text

/-- `http_header_name_valid()` and the predicate of `StripLeft()` and `StripRight()`. -/
structure HeaderLineLib where
  nameValid : Text → Bool
  isWhitespace : UInt8 → Bool

/-- `MAX_HTTP_HEADER_SIZE`, `src/http/HeaderLimits.hxx:12`. -/
def maxHttpHeaderSize : Nat := 8192

/-- `MAX_TOTAL_HTTP_HEADER_SIZE`, `src/http/HeaderLimits.hxx:17`. -/
def maxTotalHttpHeaderSize : Nat := 64 * 1024

variable (lib : HeaderLineLib)

/-- `StripRight()`. -/
def stripRight (s : Text) : Text := (s.reverse.dropWhile lib.isWhitespace).reverse

/-- `IsValidHeaderValueChar`, `HeaderParser.cxx:20-24`. -/
def isValidHeaderValueChar (ch : UInt8) : Bool := ch != 0x00 && ch != 0x0a && ch != 0x0d

/-- `IsValidHeaderValue`, `HeaderParser.cxx:26-35`. -/
def isValidHeaderValue (value : Text) : Bool := value.all isValidHeaderValueChar

/-- The name and the value of a header line; missing if there is no colon. -/
def splitHeaderLine (line : Text) : Option (Text × Text) :=
  match splitWhile line (· ≠ 0x3a) with
  | (_, []) => none
  | (name, _ :: value) => some (name, value)

/-- The item that `header_parse_line` adds to a map, `HeaderParser.cxx:37-52`; missing if
the line is malformed. -/
def parsedHeader (line : Text) : Option (Text × Text) :=
  match splitHeaderLine line with
  | none => none
  | some (name, value) =>
    if lib.nameValid name && isValidHeaderValue value then
      some (name.map lower, stripLeft lib.isWhitespace value)
    else none

/-- `header_parse_line`, `HeaderParser.cxx:37-52`; missing if the line is malformed. -/
def headerParseLine (headers : StringMap) (line : Text) : Option StringMap :=
  (parsedHeader lib line).map fun (name, value) => headers.add name value

end BengProxy.Http
