import Mathlib.Data.List.Infix

/-!
# Splicing ranges of a sequence

An edit replaces a range of a sequence by something else. `render` is the sequence with a list
of edits applied from left to right. The lemmas say how the result changes when the sequence
grows, when an edit is added or extended at the end, and when a part at the front is removed.
-/

namespace BengProxy.Base.Splice

open List

universe u v

variable {α : Type u} {xs : List α} {a b c : Nat}

/-- The elements at the positions from `a` to `b`. -/
def slice (xs : List α) (a b : Nat) : List α := (xs.drop a).take (b - a)

@[simp] theorem slice_self (xs : List α) (a : Nat) : slice xs a a = [] := by
  rw [slice, Nat.sub_self, take_zero]

theorem slice_of_le (h : b ≤ a) : slice xs a b = [] := by
  rw [slice, Nat.sub_eq_zero_of_le h, take_zero]

theorem slice_length (xs : List α) (a : Nat) : slice xs a xs.length = xs.drop a :=
  take_of_length_le (le_of_eq length_drop)

theorem length_slice (h : b ≤ xs.length) : (slice xs a b).length = b - a := by
  rw [slice, length_take, length_drop]
  omega

theorem drop_slice (xs : List α) (a b n : Nat) :
    (slice xs a b).drop n = slice xs (a + n) b := by
  rw [slice, slice, drop_take, drop_drop, Nat.sub_add_eq]

theorem take_slice {n : Nat} (h : a + n ≤ b) : (slice xs a b).take n = slice xs a (a + n) := by
  rw [slice, slice, take_take, Nat.add_sub_cancel_left]
  congr 1
  omega

private theorem slice_append_slice (hab : a ≤ b) (hbc : b ≤ c) :
    slice xs a b ++ slice xs b c = slice xs a c := by
  have hb : xs.drop b = (xs.drop a).drop (b - a) := by rw [drop_drop]; congr 1; omega
  have hc : c - a = (b - a) + (c - b) := by omega
  rw [slice, slice, slice, hb, hc, take_add]

private theorem slice_append_of_le {ys : List α} (h : b ≤ xs.length) :
    slice (xs ++ ys) a b = slice xs a b := by
  by_cases hab : a ≤ b
  · rw [slice, drop_append_of_le_length (by omega), slice,
      take_append_of_le_length (by rw [length_drop]; omega)]
  · rw [slice, slice, show b - a = 0 by omega, take_zero, take_zero]

/-- Change the last element. -/
def mapLast (f : α → α) : List α → List α
  | [] => []
  | [x] => [f x]
  | x :: y :: xs => x :: mapLast f (y :: xs)

@[simp] theorem mapLast_concat (f : α → α) (xs : List α) (x : α) :
    mapLast f (xs ++ [x]) = xs ++ [f x] := by
  induction xs with
  | nil => rfl
  | cons y xs ih =>
    cases xs with
    | nil => rfl
    | cons z xs => exact congrArg (y :: ·) ih

/-- The replacement of the range from `start` to `stop`. -/
structure Edit (α : Type u) where
  start : Nat
  stop : Nat
  content : List α
  deriving DecidableEq, Repr

/-- The sequence from `a` to `b`, with edits. -/
def render (xs : List α) : Nat → List (Edit α) → Nat → List α
  | a, [], b => slice xs a b
  | a, e :: es, b => slice xs a e.start ++ e.content ++ render xs e.stop es b

/-- The edits lie between `a` and `b`, one behind the other. -/
def Ordered : Nat → List (Edit α) → Nat → Prop
  | a, [], b => a ≤ b
  | a, e :: es, b => a ≤ e.start ∧ e.start ≤ e.stop ∧ Ordered e.stop es b

variable {e : Edit α} {es : List (Edit α)}

theorem Ordered.le (h : Ordered a es b) : a ≤ b := by
  induction es generalizing a with
  | nil => exact h
  | cons e es ih => exact h.1.trans (h.2.1.trans (ih h.2.2))

theorem Ordered.mono (h : Ordered a es b) (hb : b ≤ c) : Ordered a es c := by
  induction es generalizing a with
  | nil => exact le_trans h hb
  | cons e es ih => exact ⟨h.1, h.2.1, ih h.2.2⟩

theorem ordered_concat :
    Ordered a (es ++ [e]) b ↔ Ordered a es e.start ∧ e.start ≤ e.stop ∧ e.stop ≤ b := by
  induction es generalizing a with
  | nil => exact Iff.rfl
  | cons d es ih =>
    rw [cons_append, Ordered, Ordered, ih]
    simp only [and_assoc]

/-- The result with an edit behind the other ones. -/
theorem render_concat :
    render xs a (es ++ [e]) b = render xs a es e.start ++ e.content ++ slice xs e.stop b := by
  induction es generalizing a with
  | nil => rfl
  | cons d es ih => simp only [cons_append, render, ih, append_assoc]

/-- Behind the last edit, the result is the sequence. -/
theorem render_append_slice (h : Ordered a es b) (hb : b ≤ c) :
    render xs a es b ++ slice xs b c = render xs a es c := by
  induction es generalizing a with
  | nil => exact slice_append_slice h hb
  | cons e es ih => rw [render, render, append_assoc, ih h.2.2]

/-- The result after the sequence has grown. -/
theorem render_append_of_le {ys : List α} (h : Ordered a es b) (hb : b ≤ xs.length) :
    render (xs ++ ys) a es b = render xs a es b := by
  induction es generalizing a with
  | nil => exact slice_append_of_le hb
  | cons e es ih =>
    rw [render, render, ih h.2.2, slice_append_of_le (h.2.1.trans (h.2.2.le.trans hb))]

/-- Elements of the sequence in front of the first edit. -/
theorem slice_append_render (hab : a ≤ b) (h : Ordered b es c) :
    slice xs a b ++ render xs b es c = render xs a es c := by
  cases es with
  | nil => exact slice_append_slice hab h
  | cons e es =>
    rw [render, render, append_assoc, append_assoc, ← append_assoc, slice_append_slice hab h.1]

/-- If nothing is left, then the last edit is empty and reaches to the end. -/
theorem last_of_render_eq_nil (h : Ordered a es b) (hb : b ≤ xs.length)
    (hni : render xs a es b = []) (hla : es.getLast? = some e) :
    e.content = [] ∧ e.stop = b := by
  induction es generalizing a with
  | nil => cases hla
  | cons d es ih =>
    rw [render, append_eq_nil_iff, append_eq_nil_iff] at hni
    cases es with
    | nil =>
      rw [getLast?_singleton, Option.some.injEq] at hla
      subst hla
      have hle := congrArg List.length hni.2
      rw [render, length_slice hb, length_nil] at hle
      exact ⟨hni.1.2, le_antisymm h.2.2 (by omega)⟩
    | cons d' es => exact ih h.2.2 hni.2 hla

end BengProxy.Base.Splice
