import BengProxy.Base.Marked
import Mathlib.Data.List.Infix

/-!
# Segmented streams

A stream that is given as a list of segments. `advance` removes elements from its front
without joining segments.
-/

namespace BengProxy.Base.Segments

open Base.Marked List

universe u

variable {α : Type u}

variable {b : List α} {bs : List (List α)}

/-- Remove `n` elements from the front, and the segments that become empty. -/
def advance : Nat → List (List α) → List (List α)
  | _, [] => []
  | n, b :: bs => if b.length ≤ n then advance (n - b.length) bs else b.drop n :: bs

@[simp] theorem advance_nil (n : Nat) : advance n ([] : List (List α)) = [] := rfl

theorem advance_of_le {n : Nat} (h : b.length ≤ n) :
    advance n (b :: bs) = advance (n - b.length) bs := if_pos h

theorem advance_of_lt {n : Nat} (h : n < b.length) :
    advance n (b :: bs) = b.drop n :: bs := if_neg (not_le.mpr h)

theorem flatten_advance (n : Nat) (bs : List (List α)) :
    (advance n bs).flatten = bs.flatten.drop n := by
  induction bs generalizing n with
  | nil => simp
  | cons b bs ih =>
    by_cases h : b.length ≤ n
    · rw [advance_of_le h, ih, flatten_cons, drop_append, drop_eq_nil_of_le h, nil_append]
    · have hlt : n < b.length := not_le.mp h
      rw [advance_of_lt hlt, flatten_cons, flatten_cons,
        drop_append_of_le_length (le_of_lt hlt)]

/-- No segment is empty. -/
def NoEmpty (bs : List (List α)) : Prop := ∀ b ∈ bs, b ≠ []

theorem NoEmpty.tail (h : NoEmpty (b :: bs)) : NoEmpty bs :=
  fun c hc => h c (mem_cons_of_mem _ hc)

theorem NoEmpty.head_pos (h : NoEmpty (b :: bs)) :
    0 < b.length :=
  length_pos_iff.mpr (h b mem_cons_self)

theorem NoEmpty.drop_head {n : Nat} (h : NoEmpty (b :: bs))
    (hn : n < b.length) : NoEmpty (b.drop n :: bs) := by
  intro c hc
  rcases mem_cons.mp hc with rfl | hc
  · intro hni
    have := drop_eq_nil_iff.mp hni
    omega
  · exact h.tail c hc

theorem NoEmpty.advance (h : NoEmpty bs) (n : Nat) :
    NoEmpty (advance n bs) := by
  induction bs generalizing n with
  | nil => exact h
  | cons b bs ih =>
    by_cases hle : b.length ≤ n
    · rw [advance_of_le hle]
      exact ih h.tail _
    · have hlt : n < b.length := not_le.mp hle
      rw [advance_of_lt hlt]
      exact h.drop_head hlt

theorem NoEmpty.advance_zero (h : NoEmpty bs) :
    Segments.advance 0 bs = bs := by
  cases bs with
  | nil => rfl
  | cons b bs => rw [advance_of_lt h.head_pos, drop_zero]

theorem advance_advance (m n : Nat) (bs : List (List α)) :
    advance n (advance m bs) = advance (m + n) bs := by
  induction bs generalizing m with
  | nil => rfl
  | cons b bs ih =>
    by_cases hm : b.length ≤ m
    · rw [advance_of_le hm, ih, advance_of_le (by omega), Nat.sub_add_comm hm]
    have hlt : m < b.length := not_le.mp hm
    rw [advance_of_lt hlt]
    by_cases hn : b.length ≤ m + n
    · rw [advance_of_le hn, advance_of_le (by rw [length_drop]; omega), length_drop]
      congr 1
      omega
    · rw [advance_of_lt (not_le.mp hn), advance_of_lt (by rw [length_drop]; omega), drop_drop]

/-- A segment that ends in framing is followed by no payload in the segments behind it. -/
def Aligned : List (α × Bool) → List (List α) → Prop
  | _, [] => True
  | ts, b :: bs =>
    ((ts.take b.length).getLast?.any Prod.snd = true ∨
      payload ((ts.drop b.length).take bs.flatten.length) = []) ∧
    Aligned (ts.drop b.length) bs

/-- Removing elements from the front keeps the alignment. -/
theorem Aligned.advance :
    ∀ {ts : List (α × Bool)} (n : Nat), Aligned ts bs → Aligned (ts.drop n) (advance n bs) := by
  induction bs with
  | nil => exact fun _ _ => trivial
  | cons b bs ih =>
    intro ts n h
    by_cases hle : b.length ≤ n
    · rw [advance_of_le hle]
      have hd : ts.drop n = (ts.drop b.length).drop (n - b.length) := by
        rw [drop_drop, Nat.add_sub_cancel' hle]
      rw [hd]
      exact ih _ h.2
    have hlt : n < b.length := not_le.mp hle
    have hd : (ts.drop n).drop (b.drop n).length = ts.drop b.length := by
      rw [length_drop, drop_drop, Nat.add_sub_cancel' (le_of_lt hlt)]
    rw [advance_of_lt hlt]
    refine ⟨?_, by rw [hd]; exact h.2⟩
    rw [hd]
    by_cases hl : ts.length ≤ n
    · right
      rw [drop_eq_nil_of_le (by omega), take_nil, payload_nil]
    apply h.1.imp_left
    intro hla
    -- the last element of the segment stays
    have hsh : ¬ (ts.take b.length).length ≤ n := by
      rw [length_take]
      omega
    rwa [length_drop, ← drop_take, getLast?_drop, if_neg hsh]

end BengProxy.Base.Segments
