import Mathlib.Tactic.Common

/-!
# Walking around a cycle

The positions `0, …, n - 1` in a circle. Walking on from any position comes across every other
one before it returns to where it started.
-/

namespace BengProxy.Base.Cycle

variable {n s k i : Nat}

/-- The next position. -/
def succ (n i : Nat) : Nat := if n ≤ i + 1 then 0 else i + 1

theorem succ_eq_mod (h : i < n) : succ n i = (i + 1) % n := by
  unfold succ
  by_cases hn : n ≤ i + 1
  · rw [if_pos hn, Nat.le_antisymm hn h, Nat.mod_self]
  · rw [if_neg hn, Nat.mod_eq_of_lt (Nat.lt_of_not_le hn)]

theorem succ_lt (h : i < n) : succ n i < n := by
  rw [succ_eq_mod h]
  exact Nat.mod_lt _ (Nat.zero_lt_of_lt h)

theorem succ_add_mod (hs : s < n) (k : Nat) : succ n ((s + k) % n) = (s + (k + 1)) % n := by
  rw [succ_eq_mod (Nat.mod_lt _ (Nat.zero_lt_of_lt hs)), Nat.mod_add_mod, Nat.add_assoc]

/-- Every position is reached before the walk is around. -/
theorem exists_add_mod (hs : s < n) (hi : i < n) : ∃ k, k < n ∧ (s + k) % n = i := by
  by_cases hle : s ≤ i
  · refine ⟨i - s, by omega, ?_⟩
    rw [Nat.add_sub_cancel' hle, Nat.mod_eq_of_lt hi]
  · refine ⟨n - s + i, by omega, ?_⟩
    rw [show s + (n - s + i) = i + n by omega, Nat.add_mod_right, Nat.mod_eq_of_lt hi]

/-- The walk returns only when it is around. -/
theorem add_mod_eq_self_iff (hs : s < n) (hk : k ≤ n) : (s + k) % n = s ↔ k = 0 ∨ k = n := by
  constructor
  · intro h
    by_cases hlt : s + k < n
    · rw [Nat.mod_eq_of_lt hlt] at h
      omega
    · rw [Nat.mod_eq_sub_mod (Nat.le_of_not_lt hlt), Nat.mod_eq_of_lt (by omega)] at h
      omega
  · rintro (rfl | rfl)
    · exact Nat.mod_eq_of_lt hs
    · rw [Nat.add_mod_right, Nat.mod_eq_of_lt hs]

end BengProxy.Base.Cycle
