import Mathlib.Tactic.Common

/-!
# Hash rings

A ring of positions, each of which is owned by a node. A hash stands for a position; the same nodes
may own positions all around the ring. Walking along the ring, the owner changes again and again.
-/

namespace BengProxy.Base

/-- A ring with the owner of each position. -/
structure HashRing (N : Type) where
  size : Nat
  owner : Nat → N
  pos : 0 < size

namespace HashRing

/-- The node that owns a hash. -/
def pick {N : Type} (r : HashRing N) (hash : Nat) : N := r.owner (hash % r.size)

/-- Positions repeat after a round. -/
theorem pick_mod {N : Type} (r : HashRing N) (i k : Nat) :
    r.pick (i % r.size + k) = r.pick (i + k) := by
  rw [pick, pick, Nat.mod_add_mod]

variable {N : Type} [DecidableEq N] (r : HashRing N)

/-- Search for a position that is not owned by this node. -/
def findOther (node : N) : Nat → Nat → Option Nat
  | 0, _ => none
  | fuel + 1, i => if r.pick i ≠ node then some i else findOther node fuel (i + 1)

/-- The next position that is owned by another node than the one at this hash, and its owner;
missing if there is no other node. -/
def findNext (hash : Nat) : Option (Nat × N) :=
  (r.findOther (r.pick hash) r.size (hash + 1)).map fun i => (i % r.size, r.pick i)

/-- How often the owner changes in the first steps from a position on. -/
def changes (hash : Nat) : Nat → Nat
  | 0 => 0
  | k + 1 => changes hash k + if r.pick (hash + k) = r.pick (hash + (k + 1)) then 0 else 1

variable {r}

theorem changes_mod (i k : Nat) : r.changes (i % r.size) k = r.changes i k := by
  induction k with
  | zero => rfl
  | succ k ih => rw [changes, changes, ih, pick_mod, pick_mod]

theorem changes_add (hash j k : Nat) :
    r.changes hash (j + k) = r.changes hash j + r.changes (hash + j) k := by
  induction k with
  | zero => rfl
  | succ k ih =>
    rw [← Nat.add_assoc, changes, ih, changes, Nat.add_assoc hash j k, Nat.add_assoc hash j (k + 1),
      Nat.add_assoc, Nat.add_assoc j k 1]

private theorem changes_eq_zero {hash : Nat} (k : Nat)
    (h : ∀ j, j ≤ k → r.pick (hash + j) = r.pick hash) : r.changes hash k = 0 := by
  induction k with
  | zero => rfl
  | succ k ih =>
    have hk := h k (Nat.le_succ k)
    rw [changes, ih fun j hj => h j (by omega), hk, h (k + 1) (Nat.le_refl _), if_pos rfl]

/-- Without a change, the owner is the same. -/
theorem pick_of_changes {hash k : Nat} (h : r.changes hash k = 0) :
    r.pick (hash + k) = r.pick hash := by
  induction k with
  | zero => rfl
  | succ k ih =>
    rw [changes, Nat.add_eq_zero_iff] at h
    rw [← ih h.1]
    by_contra hne
    rw [if_neg (Ne.symm hne)] at h
    omega

private theorem findOther_eq_some {node : N} (fuel : Nat) : ∀ {i j : Nat},
    r.findOther node fuel i = some j →
      i ≤ j ∧ r.pick j ≠ node ∧ ∀ k, i ≤ k → k < j → r.pick k = node := by
  induction fuel with
  | zero =>
    intro i j h
    cases h
  | succ fuel ih =>
    intro i j h
    rw [findOther] at h
    split at h
    next hne =>
      cases h
      exact ⟨Nat.le_refl i, hne, fun k hk hlt => by omega⟩
    next he =>
      obtain ⟨hle, hne, hsa⟩ := ih h
      refine ⟨by omega, hne, fun k hk hlt => ?_⟩
      by_cases hki : k = i
      · rw [hki]
        exact not_not.mp he
      · exact hsa k (by omega) hlt

private theorem findOther_eq_none {node : N} (fuel : Nat) : ∀ {i : Nat},
    r.findOther node fuel i = none → ∀ k, i ≤ k → k < i + fuel → r.pick k = node := by
  induction fuel with
  | zero =>
    intro i _ k hk hlt
    omega
  | succ fuel ih =>
    intro i h k hk hlt
    rw [findOther] at h
    split at h
    · cases h
    next he =>
      by_cases hki : k = i
      · rw [hki]
        exact not_not.mp he
      · exact ih h k (by omega) (by omega)

/-- The next position that is owned by another node: the first change. -/
theorem findNext_eq_some {hash next : Nat} {node : N} (h : r.findNext hash = some (next, node)) :
    node = r.pick next ∧ ∃ j, next = (hash + (j + 1)) % r.size ∧
      r.changes hash (j + 1) = 1 ∧ ∀ k, k ≤ j → r.pick (hash + k) = r.pick hash := by
  obtain ⟨i, hi, he⟩ := Option.map_eq_some_iff.mp h
  cases he
  obtain ⟨hle, hne, hsa⟩ := findOther_eq_some r.size hi
  obtain ⟨j, rfl⟩ := Nat.exists_eq_add_of_le hle
  have hs' (k : Nat) (hk : k ≤ j) : r.pick (hash + k) = r.pick hash := by
    cases k with
    | zero => rfl
    | succ k => exact hsa (hash + (k + 1)) (by omega) (by omega)
  refine ⟨by rw [pick, pick, Nat.mod_mod], j, by rw [Nat.add_assoc, Nat.add_comm 1 j], ?_, hs'⟩
  rw [changes, changes_eq_zero j hs', hs' j (Nat.le_refl j), if_neg, Nat.zero_add]
  rw [Nat.add_assoc, Nat.add_comm 1 j] at hne
  exact Ne.symm hne

/-- There is no other node if nothing is found. -/
theorem findNext_eq_none {hash : Nat} (h : r.findNext hash = none) (k : Nat) :
    r.pick k = r.pick hash := by
  have hro := findOther_eq_none r.size (Option.map_eq_none_iff.mp h)
  -- the same position within the round that has been searched
  obtain ⟨j, hj, hmo⟩ : ∃ j, j < r.size ∧ (hash + 1 + j) % r.size = k % r.size := by
    refine ⟨(k + (r.size - (hash + 1) % r.size)) % r.size, Nat.mod_lt _ r.pos, ?_⟩
    have hlt := Nat.mod_lt (hash + 1) r.pos
    rw [Nat.add_mod_mod, ← Nat.mod_add_mod (hash + 1),
      show (hash + 1) % r.size + (k + (r.size - (hash + 1) % r.size)) = k + r.size by omega,
      Nat.add_mod_right]
  rw [← hro (hash + 1 + j) (by omega) (by omega), pick, pick, hmo]

end HashRing

end BengProxy.Base
