import Mathlib.Algebra.GroupWithZero.Nat
import Mathlib.Tactic.Common

/-!
# Big-endian numbers

Numbers of 16 and 32 bits as bytes, most significant byte first.
-/

namespace BengProxy.Base

/-- The two bytes of a number, modulo `2 ^ 16`. -/
def be16 (n : Nat) : List UInt8 := [UInt8.ofNat (n / 256), UInt8.ofNat n]

/-- The number that two bytes denote. -/
def ofBe16 (a b : UInt8) : Nat := a.toNat * 256 + b.toNat

/-- The four bytes of a number, modulo `2 ^ 32`. -/
def be32 (n : Nat) : List UInt8 :=
  [UInt8.ofNat (n / 16777216), UInt8.ofNat (n / 65536), UInt8.ofNat (n / 256), UInt8.ofNat n]

/-- The number that four bytes denote. -/
def ofBe32 (a b c d : UInt8) : Nat :=
  a.toNat * 16777216 + b.toNat * 65536 + c.toNat * 256 + d.toNat

theorem ofBe16_be16 (n : Nat) : ofBe16 (UInt8.ofNat (n / 256)) (UInt8.ofNat n) = n % 65536 := by
  rw [ofBe16, UInt8.toNat_ofNat', UInt8.toNat_ofNat']
  omega

theorem ofBe32_be32 {n : Nat} (h : n < 4294967296) :
    ofBe32 (UInt8.ofNat (n / 16777216)) (UInt8.ofNat (n / 65536)) (UInt8.ofNat (n / 256))
      (UInt8.ofNat n) = n := by
  rw [ofBe32, UInt8.toNat_ofNat', UInt8.toNat_ofNat', UInt8.toNat_ofNat', UInt8.toNat_ofNat']
  omega

end BengProxy.Base
