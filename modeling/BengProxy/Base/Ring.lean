import Mathlib.Data.List.Nodup

/-!
# Linked lists stored in arrays of indices

`Path next prev a xs b` says that following `next` from `a` visits exactly `xs` before
reaching `b`, and that every visited index points back to the one before it. A ring is
a path from a root to itself. `Stack next h xs stop` is the singly linked version.
-/

namespace BengProxy.Base

open List Function

universe u

variable {ι : Type u}

variable {ys zs : List ι} {root : ι}

/-- Following `next` from `a` visits exactly `xs` and then `b`, and `prev` leads back. -/
def Path (next prev : ι → ι) : ι → List ι → ι → Prop
  | a, [], b => next a = b ∧ prev b = a
  | a, x :: xs, b => next a = x ∧ prev x = a ∧ Path next prev x xs b

/-- `xs` are the members, in order, of the circular doubly linked list through `root`. -/
def Ring (next prev : ι → ι) (root : ι) (xs : List ι) : Prop :=
  (root :: xs).Nodup ∧ Path next prev root xs root

/-- Following `next` from `h` visits exactly `xs` and then `stop`. -/
def Stack (next : ι → ι) (stop : ι) : ι → List ι → Prop
  | h, [] => h = stop
  | h, x :: xs => h = x ∧ Stack next stop (next x) xs

variable {next prev next' prev' : ι → ι}

/-- A stack depends only on the links of its members. -/
theorem Stack.congr {stop h : ι} {xs : List ι} (hs : Stack next stop h xs)
    (hn : ∀ c ∈ xs, next' c = next c) : Stack next' stop h xs := by
  induction xs generalizing h with
  | nil => exact hs
  | cons x xs ih =>
    refine ⟨hs.1, ?_⟩
    rw [hn x (by simp)]
    exact ih hs.2 fun c hc => hn c (mem_cons_of_mem _ hc)


private theorem path_append {a b x : ι} :
    Path next prev a (ys ++ x :: zs) b ↔ Path next prev a ys x ∧ Path next prev x zs b := by
  induction ys generalizing a with
  | nil => simp [Path, and_assoc]
  | cons y ys ih => simp [Path, ih, and_assoc]

/-- A path depends only on the links of its members. -/
theorem Path.congr {a b : ι} {xs : List ι} (h : Path next prev a xs b)
    (hn : ∀ c ∈ a :: xs, next' c = next c) (hp : ∀ c ∈ xs ++ [b], prev' c = prev c) :
    Path next' prev' a xs b := by
  induction xs generalizing a with
  | nil =>
    refine ⟨?_, ?_⟩
    · rw [hn a (by simp)]; exact h.1
    · rw [hp b (by simp)]; exact h.2
  | cons x xs ih =>
    refine ⟨?_, ?_, ?_⟩
    · rw [hn a (by simp)]; exact h.1
    · rw [hp x (by simp)]; exact h.2.1
    · apply ih h.2.2
      · intro c hc
        exact hn c (mem_cons_of_mem _ hc)
      · intro c hc
        exact hp c (by simp only [cons_append, mem_cons]; exact .inr hc)

private theorem Path.next_eq {a b : ι} {xs : List ι} (h : Path next prev a xs b) :
    next a = xs.headD b := by
  cases xs with
  | nil | cons x xs => exact h.1

private theorem Path.prev_eq {a b : ι} {xs : List ι} (h : Path next prev a xs b) :
    prev b = xs.getLastD a := by
  induction xs generalizing a with
  | nil => exact h.2
  | cons x xs ih => rw [getLastD_cons]; exact ih h.2.2

private theorem Path.suffix {a b : ι} (h : Path next prev a (ys ++ zs) b) :
    Path next prev (ys.getLastD a) zs b := by
  induction ys generalizing a with
  | nil => exact h
  | cons y ys ih => rw [getLastD_cons]; exact ih h.2.2

private theorem Path.replace_suffix {a b b' : ι} {zs' : List ι}
    (h : Path next prev a (ys ++ zs) b) (hs : Path next' prev' (ys.getLastD a) zs' b')
    (hn : ∀ c ∈ (a :: ys).dropLast, next' c = next c) (hp : ∀ c ∈ ys, prev' c = prev c) :
    Path next' prev' a (ys ++ zs') b' := by
  induction ys generalizing a with
  | nil => exact hs
  | cons y ys ih =>
    rw [getLastD_cons] at hs
    refine ⟨?_, ?_, ih h.2.2 hs ?_ ?_⟩
    · rw [hn a (by simp)]; exact h.1
    · rw [hp y (by simp)]; exact h.2.1
    · intro c hc
      exact hn c (by rw [dropLast_cons_cons]; exact mem_cons_of_mem _ hc)
    · intro c hc
      exact hp c (mem_cons_of_mem _ hc)

/-- The links of a ring where it is cut in two. -/
theorem Ring.cut (h : Ring next prev root (ys ++ zs)) :
    next (ys.getLastD root) = zs.headD root ∧ prev (zs.headD root) = ys.getLastD root := by
  have hs := h.2.suffix
  cases zs with
  | nil => exact hs
  | cons z zs => exact ⟨hs.1, hs.2.1⟩

/-- The links of one member of a ring. -/
theorem Ring.links {x : ι} (h : Ring next prev root (ys ++ x :: zs)) :
    next x = zs.headD root ∧ prev x = ys.getLastD root := by
  have hp := path_append.mp h.2
  exact ⟨hp.2.next_eq, hp.1.prev_eq⟩

-- The last member of the front part is the only one whose `next` a cut may change.
private theorem ne_getLastD {c : ι} (h : (root :: ys).Nodup)
    (hc : c ∈ (root :: ys).dropLast) : c ≠ ys.getLastD root := by
  have he : (root :: ys).dropLast ++ [ys.getLastD root] = root :: ys := by
    rw [← dropLast_append_getLast (cons_ne_nil root ys)]
    simp [getLast_eq_getLastD]
  rw [← he, nodup_append] at h
  exact h.2.2 c hc _ (by simp)

section Distinct

variable (h : (root :: (ys ++ zs)).Nodup)
include h

private theorem ne_getLastD_of_mem {c : ι} (hc : c ∈ zs) : c ≠ ys.getLastD root := by
  rw [← cons_append, nodup_append] at h
  exact (h.2.2 _ getLastD_mem_cons c hc).symm

private theorem ne_headD_of_mem {c : ι} (hc : c ∈ ys) : c ≠ zs.headD root := by
  rw [nodup_cons, nodup_append] at h
  rintro rfl
  cases zs with
  | nil => exact h.1 (mem_append_left _ hc)
  | cons z zs => exact h.2.2.2 _ hc _ mem_cons_self rfl

end Distinct

private theorem ne_first {z c : ι} (h : (root :: (ys ++ z :: zs)).Nodup) (hc : c ∈ zs ++ [root]) :
    c ≠ z := by
  rw [nodup_cons, nodup_append] at h
  rintro rfl
  rcases mem_append.mp hc with hc | hc
  · exact (nodup_cons.mp h.2.2.1).1 hc
  · apply h.1
    rw [← mem_singleton.mp hc]
    exact mem_append_cons_self

variable [DecidableEq ι]

/-- Link a fresh member `x` between two neighbours of a ring. -/
theorem Ring.insert {x : ι} (h : Ring next prev root (ys ++ zs)) (hx : x ∉ root :: (ys ++ zs)) :
    Ring (update (update next x (zs.headD root)) (ys.getLastD root) x)
      (update (update prev x (ys.getLastD root)) (zs.headD root) x)
      root (ys ++ x :: zs) := by
  obtain ⟨hd, hp⟩ := h
  have hne {c : ι} (hc : c ∈ root :: (ys ++ zs)) : c ≠ x := fun he => hx (he ▸ hc)
  have hfr {c : ι} (hc : c ∈ root :: ys) : c ≠ x := hne (mem_append_left zs hc)
  have hlx : ys.getLastD root ≠ x := hfr getLastD_mem_cons
  refine ⟨?_, hp.replace_suffix ?_ ?_ ?_⟩
  · rw [← cons_append, nodup_middle, nodup_cons]
    exact ⟨hx, hd⟩
  · have hs := hp.suffix
    refine ⟨by simp, ?_, ?_⟩
    · have hnx : x ≠ zs.headD root := by
        cases zs with
        | nil => exact (hfr mem_cons_self).symm
        | cons z zs => exact (hne (by simp)).symm
      rw [update_of_ne hnx, update_self]
    · cases zs with
      | nil => exact ⟨by rw [update_of_ne (Ne.symm hlx), update_self]; rfl, by simp⟩
      | cons z zs =>
        refine ⟨?_, by simp, hs.2.2.congr ?_ ?_⟩
        · rw [update_of_ne (Ne.symm hlx), update_self]; rfl
        · intro c hc
          rw [update_of_ne (ne_getLastD_of_mem hd hc), update_of_ne (hne (by simp [hc]))]
        · intro c hc
          have hcx : c ≠ x := by
            apply hne
            simp only [mem_append, mem_singleton] at hc
            rcases hc with hc | hc <;> simp [hc]
          rw [headD_cons, update_of_ne (ne_first hd hc), update_of_ne hcx]
  · intro c hc
    rw [update_of_ne
        (ne_getLastD (hd.sublist (sublist_append_left (root :: ys) zs)) hc),
      update_of_ne (hfr (dropLast_subset _ hc))]
  · intro c hc
    rw [update_of_ne (ne_headD_of_mem hd hc), update_of_ne (hfr (mem_cons_of_mem root hc))]

/-- Unlink a member of a ring from its neighbours. -/
theorem Ring.erase {x : ι} (h : Ring next prev root (ys ++ x :: zs)) :
    Ring (update next (ys.getLastD root) (zs.headD root))
      (update prev (zs.headD root) (ys.getLastD root)) root (ys ++ zs) := by
  obtain ⟨hd, hp⟩ := h
  have hd : (root :: (ys ++ zs)).Nodup := by
    rw [← cons_append, nodup_middle, nodup_cons] at hd
    exact hd.2
  refine ⟨hd, hp.replace_suffix ?_ ?_ ?_⟩
  · have hs := hp.suffix.2.2
    cases zs with
    | nil => exact ⟨by simp, by simp⟩
    | cons z zs =>
      refine ⟨by simp, by simp, hs.2.2.congr ?_ ?_⟩
      · intro c hc
        rw [update_of_ne (ne_getLastD_of_mem hd hc)]
      · intro c hc
        rw [headD_cons, update_of_ne (ne_first hd hc)]
  · intro c hc
    rw [update_of_ne
      (ne_getLastD (hd.sublist (sublist_append_left (root :: ys) zs)) hc)]
  · intro c hc
    rw [update_of_ne (ne_headD_of_mem hd hc)]

end BengProxy.Base
