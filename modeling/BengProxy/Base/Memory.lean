import Mathlib.Data.List.Basic

/-!
# A byte memory that also holds records

Each address holds a plain byte or one fragment of a stored record. Storing a record
writes all of its fragments; loading one succeeds only if every fragment is still in
place, so a record that was overwritten in part can not be read back.
-/

namespace BengProxy.Base

universe u

/-- The content of one address: a byte, or fragment `i` of a stored record. -/
inductive Cell (α : Type u) where
  | byte (b : UInt8)
  | fragment (v : α) (i : Nat)
  deriving DecidableEq

/-- A memory maps every address to its content. -/
def Memory (α : Type u) : Type u := Nat → Cell α

namespace Memory

variable {α : Type u} (m : Memory α)

/-- Store the record `v`, occupying `n` addresses from `a` on. -/
def store (a n : Nat) (v : α) : Memory α := fun x =>
  if a ≤ x ∧ x < a + n then .fragment v (x - a) else m x

/-- Load a record occupying `n` addresses from `a` on; `none` unless all of its
fragments are there. -/
def load [DecidableEq α] (m : Memory α) (a n : Nat) : Option α :=
  match m a with
  | .byte _ => none
  | .fragment v _ => if ∀ i < n, m (a + i) = .fragment v i then some v else none

/-- Copy `n` cells from `src` to `dst`; the ranges may overlap (`memmove`). -/
def move (dst src n : Nat) : Memory α := fun x =>
  if dst ≤ x ∧ x < dst + n then m (src + (x - dst)) else m x

/-- Copy `n` cells from `src` to `dst`; undefined on overlapping ranges (`memcpy`). -/
def copy (dst src n : Nat) : Option (Memory α) :=
  if dst + n ≤ src ∨ src + n ≤ dst then some (m.move dst src n) else none

/-- Write the bytes `bs` from address `a` on. -/
def write (a : Nat) (bs : List UInt8) : Memory α := fun x =>
  if h : a ≤ x ∧ x - a < bs.length then .byte (bs.get ⟨x - a, h.2⟩) else m x

/-- Fill the addresses from `a` up to `b` (exclusive) with zero bytes. -/
def clear (a b : Nat) : Memory α := fun x =>
  if a ≤ x ∧ x < b then .byte 0 else m x

/-- The memory changed at most inside `[a, b)`. -/
def SameOutside (m m' : Memory α) (a b : Nat) : Prop :=
  ∀ x, x < a ∨ b ≤ x → m' x = m x

theorem store_sameOutside (a n : Nat) (v : α) : m.SameOutside (m.store a n v) a (a + n) := by
  intro x hx
  simp only [store]
  rw [ite_cond_eq_false _ _ (by simp only [eq_iff_iff, iff_false]; omega)]

theorem move_sameOutside (dst src n : Nat) : m.SameOutside (m.move dst src n) dst (dst + n) := by
  intro x hx
  simp only [move]
  rw [ite_cond_eq_false _ _ (by simp only [eq_iff_iff, iff_false]; omega)]

theorem write_sameOutside (a : Nat) (bs : List UInt8) :
    m.SameOutside (m.write a bs) a (a + bs.length) := by
  intro x hx
  simp only [write]
  rw [dite_cond_eq_false (by simp only [eq_iff_iff, iff_false]; omega)]

theorem clear_sameOutside (a b : Nat) : m.SameOutside (m.clear a b) a b := by
  intro x hx
  simp only [clear]
  rw [ite_cond_eq_false _ _ (by simp only [eq_iff_iff, iff_false]; omega)]

/-- A moved cell is found at its new address. -/
theorem move_apply (dst src n i : Nat) (hi : i < n) : m.move dst src n (dst + i) = m (src + i) := by
  simp only [move, Nat.add_sub_cancel_left]
  rw [ite_cond_eq_true _ _ (by simp only [eq_iff_iff, iff_true]; omega)]

theorem write_apply (a : Nat) (bs : List UInt8) (i : Nat) (hi : i < bs.length) :
    m.write a bs (a + i) = .byte bs[i] := by
  simp only [write, Nat.add_sub_cancel_left]
  rw [dite_cond_eq_true (by simp only [eq_iff_iff, iff_true]; omega)]
  rfl

variable [DecidableEq α]

theorem load_store (a n : Nat) (v : α) (hn : 0 < n) : (m.store a n v).load a n = some v := by
  have hf : ∀ i < n, m.store a n v (a + i) = .fragment v i := by
    intro i hi
    simp only [store, Nat.add_sub_cancel_left]
    rw [ite_cond_eq_true _ _ (by simp only [eq_iff_iff, iff_true]; omega)]
  have h0 : m.store a n v a = .fragment v 0 := by simpa using hf 0 hn
  simp only [load, h0]
  exact if_pos hf

/-- Loading looks only at the addresses of the record. -/
theorem load_congr {m m' : Memory α} {a n : Nat} (hn : 0 < n)
    (h : ∀ i < n, m' (a + i) = m (a + i)) : m'.load a n = m.load a n := by
  have h0 : m' a = m a := by simpa using h 0 hn
  simp only [load, h0]
  cases m a with
  | byte b => rfl
  | fragment v j =>
    have he : (∀ i < n, m' (a + i) = .fragment v i) ↔ ∀ i < n, m (a + i) = .fragment v i :=
      forall₂_congr fun i hi => by rw [h i hi]
    simp only [he]

end Memory
end BengProxy.Base
