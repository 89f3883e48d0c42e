import BengProxy.Base.Text
import Mathlib.Algebra.GroupWithZero.Nat

/-!
# Numbers in strings

Decimal numbers, and how the C library reads them into a 64 bit integer: leading white space and a
sign are accepted, a negative number wraps around, and one that is too large is clipped.
-/

namespace BengProxy.Base.Text

/-- White space in the C locale. -/
def isSpace (ch : UInt8) : Bool := ch == 0x20 || (0x09 ≤ ch && ch ≤ 0x0d)

/-- A decimal digit. -/
def isDigit (ch : UInt8) : Bool := 0x30 ≤ ch && ch ≤ 0x39

/-- The value of a string of digits. -/
def digitsValue (digits : Text) : Nat := digits.foldl (fun v ch => 10 * v + (ch.toNat - 0x30)) 0

/-- The number that a string of digits denotes; nothing else denotes a number. -/
def decimal (s : Text) : Option Nat :=
  if s ≠ [] ∧ s.all isDigit then some (digitsValue s) else none

/-- An optional sign: whether it is a minus, and what follows. -/
def sign : Text → Bool × Text
  | 0x2d :: s => (true, s)
  | 0x2b :: s => (false, s)
  | s => (false, s)

/-- `strtoul()` to the base 10: the number and the unparsed rest. -/
def strtoul (s : Text) : Nat × Text :=
  let (negative, t) := sign (s.dropWhile isSpace)
  let (digits, rest) := splitWhile t isDigit
  if digits = [] then (0, s)
  else
    let v := digitsValue digits
    (if 2 ^ 64 ≤ v then 2 ^ 64 - 1 else if negative then (2 ^ 64 - v) % 2 ^ 64 else v, rest)

/-- `atoi()`, converted to an unsigned 16 bit number: a number is clipped to 64 bits with a sign and
then cut off. -/
def atoi16 (s : Text) : Nat :=
  let (negative, t) := sign (s.dropWhile isSpace)
  let v := digitsValue (splitWhile t isDigit).1
  if negative then (65536 - min v (2 ^ 63) % 65536) % 65536 else min v (2 ^ 63 - 1) % 65536

/-- Conversion of an unsigned 64 bit number to a signed one. -/
def toSigned (v : Nat) : Int := if v < 2 ^ 63 then v else Int.subNatNat v (2 ^ 64)

/-- Drop the white space at both ends, where only spaces and tabs are white space. -/
def trim (s : Text) : Text :=
  let isBlank ch := ch == 0x20 || ch == 0x09
  ((s.dropWhile isBlank).reverse.dropWhile isBlank).reverse

end BengProxy.Base.Text
