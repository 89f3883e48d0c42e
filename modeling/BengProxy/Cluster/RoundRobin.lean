import Mathlib.Data.List.Rotate
import BengProxy.Cluster.Pick

/-!
# Round robin is fair

Several calls of `RoundRobinBalancer::Get`, `src/cluster/RoundRobinBalancer.cxx:29-46`. A call moves
the cursor just behind the item that it returns, however many items it has skipped. If none passes,
it goes around once and one step further.
-/

namespace BengProxy.Cluster.RoundRobinBalancer

open Base.Cycle List

variable {n : Nat}

/-- The results of several calls, each with the outcome of `Check` for all positions. -/
def getRun : List (Nat → Bool) → RoundRobinBalancer n → Option (List Nat × RoundRobinBalancer n)
  | [], b => some ([], b)
  | check :: checks, b =>
    match b.get check with
    | none => none
    | some (i, b) => (getRun checks b).map fun (results, b) => (i :: results, b)

private theorem filter_range'_eq_cons {p : Nat → Bool} {k : Nat} {rest : List Nat} (m : Nat) :
    ∀ {o : Nat}, (range' o m).filter p = k :: rest →
      o ≤ k ∧ k < o + m ∧ p k = true ∧ (∀ j, o ≤ j → j < k → p j = false) ∧
        rest = (range' (k + 1) (o + m - (k + 1))).filter p := by
  induction m with
  | zero =>
    intro o h
    cases h
  | succ m ih =>
    intro o h
    rw [range'_succ, filter_cons] at h
    split at h
    next hp =>
      cases h
      refine ⟨le_refl k, by omega, hp, fun j hj hlt => by omega, ?_⟩
      rw [show k + (m + 1) - (k + 1) = m by omega]
    next hp =>
      obtain ⟨hle, hlt, hk, hb, hr⟩ := ih h
      refine ⟨by omega, by omega, hk, fun j hj hjk => ?_, ?_⟩
      · by_cases he : j = o
        · rw [he]
          exact Bool.eq_false_iff.mpr hp
        · exact hb j (by omega) hjk
      · rw [hr, show o + 1 + m - (k + 1) = o + (m + 1) - (k + 1) by omega]

private theorem getRun_good {good : Nat → Bool} {c : Nat} (ch : List (Nat → Bool)) :
    ∀ (o : Nat) (b : RoundRobinBalancer n), o ≤ n → b.next = (c + o) % n →
      (∀ check ∈ ch, ∀ i, i < n → check i = good i) →
      ch.length = ((range' o (n - o)).filter fun k => good ((c + k) % n)).length →
      ∃ b', b.getRun ch =
        some (((range' o (n - o)).filter fun k => good ((c + k) % n)).map
          fun k => (c + k) % n, b') := by
  induction ch with
  | nil =>
    intro o b _ _ _ hl
    rw [eq_nil_of_length_eq_zero hl.symm]
    exact ⟨b, rfl⟩
  | cons check ch ih =>
    intro o b ho hn hc hl
    -- the position that this call returns, and the ones for the other calls
    cases hr : (range' o (n - o)).filter fun k => good ((c + k) % n) with
    | nil =>
      rw [hr] at hl
      cases hl
    | cons k rest =>
      obtain ⟨hle, hlt, hg, hb, hrest'⟩ := filter_range'_eq_cons (n - o) hr
      rw [hr] at hl
      have hsu : o + (n - o) - (k + 1) = n - (k + 1) := by omega
      rw [hsu] at hrest'
      have hpo : 0 < n := by omega
      have hof (j : Nat) (hj : o ≤ j) : (b.next + (j - o)) % n = (c + j) % n := by
        rw [hn, Nat.mod_add_mod, show c + o + (j - o) = c + j by omega]
      have he (j : Nat) : check ((c + j) % n) = good ((c + j) % n) :=
        hc check mem_cons_self _ (Nat.mod_lt _ hpo)
      have hsk (j : Nat) (hj : j < k - o) : check ((b.next + j) % n) = false := by
        have hj' := hof (o + j) (by omega)
        rw [Nat.add_sub_cancel_left] at hj'
        rw [hj', he, hb (o + j) (by omega) (by omega)]
      obtain ⟨b1, hge, hx⟩ := get_eq_good (show k - o < n by omega)
        (by rw [hof k hle, he, hg]) hsk
      have hnext2 : b1.next = (c + (k + 1)) % n := by
        rw [hx, show k - o + 1 = k + 1 - o by omega, hof (k + 1) (by omega)]
      obtain ⟨b2, hru⟩ := ih (k + 1) b1 (by omega) hnext2
        (fun check' h => hc check' (mem_cons_of_mem _ h))
        (by rw [← hrest']; exact Nat.succ.inj hl)
      refine ⟨b2, ?_⟩
      rw [getRun, hge]
      simp only [hru, hrest', Option.map_some, map_cons, hof k hle]

private theorem getRun_bad {c : Nat} (ch : List (Nat → Bool)) :
    ∀ (o : Nat) (b : RoundRobinBalancer n), b.next = (c + o) % n →
      (∀ check ∈ ch, ∀ i, i < n → check i = false) →
      ∃ b', b.getRun ch = some ((range' o ch.length).map fun k => (c + k) % n, b') := by
  induction ch with
  | nil =>
    intro o b _ _
    exact ⟨b, rfl⟩
  | cons check ch ih =>
    intro o b hn hb
    obtain ⟨b1, hg, hx⟩ := b.get_eq_bad (hb check mem_cons_self)
    have hnext2 : b1.next = (c + (o + 1)) % n := by
      rw [hx, hn, Nat.mod_add_mod, Nat.add_assoc]
    obtain ⟨b2, hru⟩ := ih (o + 1) b1 hnext2 fun check' h => hb check' (mem_cons_of_mem _ h)
    refine ⟨b2, ?_⟩
    rw [getRun, hg]
    simp only [hru, Option.map_some, length_cons, range'_succ, map_cons, hn]

private theorem rotate_range (c : Nat) :
    (range n).rotate c = (range' 0 n).map fun k => (c + k) % n := by
  apply ext_getElem
  · simp
  · intro k h1 h2
    simp [getElem_rotate, Nat.add_comm]

/-- While the same positions pass, and there are `g` of them, `g` calls return exactly these, in
cyclic order from the cursor on; if there are none, then `n` calls return all positions. -/
theorem getRun_fair (b : RoundRobinBalancer n) (good : Nat → Bool) (checks : List (Nat → Bool))
    (hc : ∀ check ∈ checks, ∀ i, i < n → check i = good i) :
    (checks.length = ((range n).filter good).length →
      ∃ b', b.getRun checks = some (((range n).rotate b.next).filter good, b')) ∧
    ((range n).filter good = [] → checks.length = n →
      ∃ b', b.getRun checks = some ((range n).rotate b.next, b')) ∧
    (((range n).rotate b.next).filter good).Perm ((range n).filter good) := by
  have hpe : (((range n).rotate b.next).filter good).Perm ((range n).filter good) :=
    (rotate_perm (range n) b.next).filter good
  have hnex : b.next = (b.next + 0) % n := (Nat.mod_eq_of_lt b.lt).symm
  refine ⟨fun hle => ?_, fun hnon hle => ?_, hpe⟩
  · rw [← hpe.length_eq, rotate_range, filter_map, length_map] at hle
    rw [rotate_range, filter_map]
    exact getRun_good checks 0 b (Nat.zero_le n) hnex hc hle
  · rw [filter_eq_nil_iff] at hnon
    have hru := getRun_bad checks 0 b hnex fun check hche i hi => by
      rw [hc check hche i hi]
      exact Bool.eq_false_iff.mpr (hnon i (mem_range.mpr hi))
    rwa [hle, ← rotate_range] at hru

/-- Three positions, the second one does not pass, and the cursor is at the last one. -/
theorem getRun_fair_three :
    ∃ b', (⟨2, by decide⟩ : RoundRobinBalancer 3).getRun [(· != 1), (· != 1)] = some ([2, 0], b') :=
  (getRun_fair ⟨2, by decide⟩ (· != 1) [(· != 1), (· != 1)] (by simp)).1 (by decide)

end BengProxy.Cluster.RoundRobinBalancer
