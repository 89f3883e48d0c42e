import Mathlib.Data.List.Basic

/-!
# Maps ordered by key

A map is the list of its entries, in the order of their keys.
-/

namespace BengProxy.Base.OrderedMap

open List

variable {κ α : Type} [LT κ] [DecidableLT κ] [DecidableEq κ]

/-- The keys are in order, and no key is there twice. -/
def Increasing (m : List (κ × α)) : Prop := m.Pairwise fun x y => x.1 < y.1

instance (m : List (κ × α)) : Decidable (Increasing m) := by
  unfold Increasing
  infer_instance

/-- Insert an entry, unless there is already one with this key. -/
def emplace : List (κ × α) → κ → α → List (κ × α)
  | [], k, v => [(k, v)]
  | x :: m, k, v =>
    if k < x.1 then (k, v) :: x :: m
    else if k = x.1 then x :: m
    else x :: emplace m k v

variable [Std.Asymm fun a b : κ => a < b]

private theorem emplace_of_lt {m : List (κ × α)} {k : κ} (h : ∀ x ∈ m, x.1 < k) (v : α) :
    emplace m k v = m ++ [(k, v)] := by
  induction m with
  | nil => rfl
  | cons x m ih =>
    rw [forall_mem_cons] at h
    have hn : ¬ k < x.1 := Std.Asymm.asymm (r := fun a b : κ => a < b) _ _ h.1
    have hne : k ≠ x.1 := by
      rintro rfl
      exact hn h.1
    rw [emplace, if_neg hn, if_neg hne, ih h.2, cons_append]

private theorem foldl_emplace_append {m acc : List (κ × α)} (h : Increasing (acc ++ m)) :
    m.foldl (fun acc x => emplace acc x.1 x.2) acc = acc ++ m := by
  induction m generalizing acc with
  | nil => rw [foldl_nil, append_nil]
  | cons x m ih =>
    have hlt : ∀ y ∈ acc, y.1 < x.1 := fun y hy => (pairwise_append.mp h).2.2 y hy x mem_cons_self
    rw [append_cons] at h
    rw [foldl_cons, emplace_of_lt hlt, ih h, append_assoc, singleton_append]

/-- Inserting the entries of a map one after the other gives the map. -/
theorem foldl_emplace {m : List (κ × α)} (h : Increasing m) :
    m.foldl (fun acc x => emplace acc x.1 x.2) [] = m := foldl_emplace_append h

end BengProxy.Base.OrderedMap
