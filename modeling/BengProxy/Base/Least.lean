import Mathlib.Data.Set.Function

/-!
# Least elements by rank

An element of a set whose rank is not greater than any other. If no two elements have the same rank,
there is at most one, and it is not affected by what happens to the others.
-/

namespace BengProxy.Base

open List

variable {α : Type*}

/-- The element has the least rank in the set. -/
structure LeastBy (rank : α → Nat) (s : Set α) (a : α) : Prop where
  mem : a ∈ s
  le : ∀ b ∈ s, rank a ≤ rank b

namespace LeastBy

variable {rank rank' : α → Nat} {s t : Set α} {a b : α}

variable (h : LeastBy rank s a)
include h

theorem unique (h' : LeastBy rank s b) (hi : Set.InjOn rank s) : a = b :=
  hi h.mem h'.mem (le_antisymm (h.le b h'.mem) (h'.le a h.mem))

theorem subset (hsu : t ⊆ s) (ha : a ∈ t) : LeastBy rank t a :=
  ⟨ha, fun b hb => h.le b (hsu hb)⟩

/-- It stays if the rank of others becomes greater. -/
theorem raise (he : rank' a = rank a) (hle : ∀ b ∈ s, rank b ≤ rank' b) : LeastBy rank' s a :=
  ⟨h.mem, fun b hb => he ▸ (h.le b hb).trans (hle b hb)⟩

/-- The ranks of other elements do not matter. -/
theorem congr (he : ∀ b ∈ s, rank' b = rank b) : LeastBy rank' s a :=
  h.raise (he a h.mem) fun b hb => (he b hb).ge

end LeastBy

/-- The first element of a sorted list that has a property, or else the first one, is the least one
if the others are put behind those with the property. -/
theorem leastBy_of_find? {f : α → Nat} {p : α → Bool} {l : List α} {bound : Nat} {a : α}
    (hbo : ∀ b, f b < bound) (hso : l.Pairwise fun a b => f a ≤ f b)
    (h : (l.find? p).or l.head? = some a) :
    LeastBy (fun b => f b + if p b then 0 else bound) { b | b ∈ l } a := by
  cases hfi : l.find? p with
  | some b =>
    rw [hfi, Option.some_or] at h
    cases h
    obtain ⟨hp, before, behind, rfl, hbe⟩ := find?_eq_some_iff_append.mp hfi
    refine ⟨mem_append_right before mem_cons_self, fun b hb => ?_⟩
    simp only [if_pos hp]
    by_cases hpb : p b = true
    · -- it cannot come before
      have hme : b ∈ a :: behind := by
        rcases mem_append.mp hb with hb | hb
        · have hn := hbe b hb
          rw [hpb] at hn
          cases hn
        · exact hb
      rw [if_pos hpb]
      rcases mem_cons.mp hme with rfl | hme
      · exact le_rfl
      · exact (pairwise_cons.mp (pairwise_append.mp hso).2.1).1 b hme
    · rw [if_neg hpb]
      have hlt := hbo a
      omega
  | none =>
    rw [hfi, Option.none_or] at h
    rw [find?_eq_none] at hfi
    obtain ⟨behind, rfl⟩ := head?_eq_some_iff.mp h
    refine ⟨mem_cons_self, fun b hb => ?_⟩
    simp only [if_neg (hfi a mem_cons_self), if_neg (hfi b hb)]
    rcases mem_cons.mp hb with rfl | hme
    · exact le_rfl
    · exact Nat.add_le_add_right ((pairwise_cons.mp hso).1 b hme) bound

end BengProxy.Base
