import Mathlib.Data.List.Infix

/-!
# Strings with separators

A string is cut at each occurrence of a separator into segments without separators, of which there
is at least one; joining the segments gives the string back. The first occurrence of a whole segment
that is neither the first nor the last one is found by a search for the segment between two
separators.
-/

namespace BengProxy.Base.Separated

open List Option

universe u

variable {α : Type u}

/-- Segments with a separator between each two of them. -/
def join (sep : α) : List (List α) → List α
  | [] => []
  | [x] => x
  | x :: y :: rest => x ++ sep :: join sep (y :: rest)

/-- There is a separator behind every segment but the last one. -/
theorem join_cons (sep : α) (x : List α) {rest : List (List α)} (h : rest ≠ []) :
    join sep (x :: rest) = x ++ sep :: join sep rest := by
  cases rest with
  | nil => exact absurd rfl h
  | cons y rest => rw [join]

theorem join_append (sep : α) {xs ys : List (List α)} (hx : xs ≠ []) (hy : ys ≠ []) :
    join sep (xs ++ ys) = join sep xs ++ sep :: join sep ys := by
  induction xs with
  | nil => exact absurd rfl hx
  | cons x xs ih =>
    cases xs with
    | nil => exact join_cons sep x hy
    | cons y xs =>
      rw [cons_append, join_cons sep x (by simp), ih (cons_ne_nil y xs),
        join_cons sep x (cons_ne_nil y xs), append_assoc, cons_append]

/-- Segments with a separator behind each of them. -/
def terminate (sep : α) (segs : List (List α)) : List α := segs.flatMap (· ++ [sep])

/-- There is one more separator, at the end. -/
theorem terminate_eq (sep : α) {segs : List (List α)} (h : segs ≠ []) :
    terminate sep segs = join sep segs ++ [sep] := by
  induction segs with
  | nil => exact absurd rfl h
  | cons x segs ih =>
    cases segs with
    | nil => simp [terminate, join]
    | cons y segs =>
      have hr := ih (cons_ne_nil y segs)
      simp only [terminate, flatMap_cons, join] at hr ⊢
      rw [hr]
      simp

variable {sep : α} {s : List α}

private theorem append_sep_inj {x y t : List α} (hx : sep ∉ x) (hy : sep ∉ y)
    (h : x ++ sep :: s = y ++ sep :: t) : x = y ∧ s = t := by
  induction x generalizing y with
  | nil =>
    cases y with
    | nil =>
      cases h
      exact ⟨rfl, rfl⟩
    | cons c y =>
      cases h
      exact absurd mem_cons_self hy
  | cons c x ih =>
    cases y with
    | nil =>
      cases h
      exact absurd mem_cons_self hx
    | cons d y =>
      rw [mem_cons, not_or] at hx hy
      rw [cons_append, cons_append, cons.injEq] at h
      obtain ⟨rfl, hs⟩ := ih hx.2 hy.2 h.2
      exact ⟨by rw [h.1], hs⟩

/-- A segment and a separator at the beginning of joined segments. -/
theorem prefix_join_iff {t x : List α} {rest : List (List α)} (ht : sep ∉ t) (hx : sep ∉ x) :
    t ++ [sep] <+: join sep (x :: rest) ↔ x = t ∧ rest ≠ [] := by
  cases rest with
  | nil =>
    constructor
    · intro h
      apply absurd _ hx
      apply h.subset
      exact mem_append_right t mem_cons_self
    · intro h
      exact absurd rfl h.2
  | cons y rest =>
    constructor
    · rintro ⟨s, hs⟩
      rw [append_assoc] at hs
      exact ⟨(append_sep_inj ht hx hs).1.symm, cons_ne_nil y rest⟩
    · rintro ⟨rfl, -⟩
      exact ⟨join sep (y :: rest), append_assoc x [sep] _⟩

/-- The search for the first occurrence of a pattern: what is before and what is after it. -/
def find [DecidableEq α] (pattern : List α) : List α → Option (List α × List α)
  | [] => if pattern = [] then some ([], []) else none
  | c :: s =>
    if pattern.isPrefixOf (c :: s) then some ([], (c :: s).drop pattern.length)
    else (find pattern s).map fun parts => (c :: parts.1, parts.2)

/-- The string is what is before, the pattern and what is after it. -/
theorem length_of_find [DecidableEq α] {pattern before after : List α}
    (h : find pattern s = some (before, after)) :
    before.length + pattern.length + after.length = s.length := by
  induction s generalizing before with
  | nil =>
    rw [find] at h
    split at h
    next hni =>
      cases h
      rw [hni]
      rfl
    · cases h
  | cons c s ih =>
    rw [find] at h
    split at h
    next hpr =>
      cases h
      have hle := (List.isPrefixOf_iff_prefix.mp hpr).length_le
      rw [length_drop, length_nil]
      omega
    · rw [map_eq_some_iff] at h
      obtain ⟨⟨before', after'⟩, hfi, he⟩ := h
      cases he
      have hl : before'.length + pattern.length + after'.length = s.length := ih hfi
      simp only [length_cons]
      omega

/-- Nothing is found if the pattern does not occur. -/
theorem find_eq_none_iff [DecidableEq α] {pattern : List α} :
    find pattern s = none ↔ ¬ pattern <:+: s := by
  induction s with
  | nil =>
    rw [find]
    by_cases h : pattern = []
    · simp [h]
    · simp [h]
  | cons c s ih =>
    rw [find, infix_cons_iff, ← isPrefixOf_iff_prefix, not_or, ← ih]
    by_cases h : pattern.isPrefixOf (c :: s) = true
    · simp [h]
    · simp [h]

/-- What is before and what is after the last separator. -/
def findLast [DecidableEq α] (sep : α) : List α → Option (List α × List α)
  | [] => none
  | c :: s =>
    match findLast sep s with
    | some (before, after) => some (c :: before, after)
    | none => if c = sep then some ([], s) else none

/-- The string is what is before, the separator and what is after it. -/
theorem eq_of_findLast [DecidableEq α] {before after : List α}
    (h : findLast sep s = some (before, after)) : s = before ++ sep :: after := by
  induction s generalizing before with
  | nil => cases h
  | cons c s ih =>
    rw [findLast] at h
    cases hs : findLast sep s with
    | some parts =>
      rw [hs] at h
      cases h
      rw [ih hs, cons_append]
    | none =>
      rw [hs] at h
      simp only at h
      split at h
      next he =>
        cases h
        rw [he, nil_append]
      · cases h

section Split

variable [DecidableEq α]

/-- The segments of a string. -/
def split (sep : α) : List α → List (List α)
  | [] => [[]]
  | c :: s =>
    if c = sep then [] :: split sep s
    else
      match split sep s with
      | [] => [[c]]
      | x :: rest => (c :: x) :: rest

theorem split_ne_nil (sep : α) (s : List α) : split sep s ≠ [] := by
  cases s with
  | nil => exact cons_ne_nil _ _
  | cons c s =>
    rw [split]
    split
    · exact cons_ne_nil _ _
    · split <;> exact cons_ne_nil _ _

theorem join_split (sep : α) (s : List α) : join sep (split sep s) = s := by
  induction s with
  | nil => rfl
  | cons c s ih =>
    rw [split]
    by_cases hc : c = sep
    · rw [if_pos hc, join_cons sep [] (split_ne_nil sep s), ih, hc, nil_append]
    rw [if_neg hc]
    cases hs : split sep s with
    | nil => exact absurd hs (split_ne_nil sep s)
    | cons x rest =>
      rw [hs] at ih
      cases rest with
      | nil => rw [← ih, join, join]
      | cons y rest =>
        rw [← ih, join_cons sep _ (cons_ne_nil y rest),
          join_cons sep _ (cons_ne_nil y rest), cons_append]

theorem not_mem_of_mem_split {x : List α} (h : x ∈ split sep s) : sep ∉ x := by
  induction s generalizing x with
  | nil =>
    rw [split, mem_singleton] at h
    rw [h]
    exact not_mem_nil
  | cons c s ih =>
    rw [split] at h
    by_cases hc : c = sep
    · rw [if_pos hc, mem_cons] at h
      rcases h with rfl | h
      · exact not_mem_nil
      · exact ih h
    rw [if_neg hc] at h
    cases hs : split sep s with
    | nil => exact absurd hs (split_ne_nil sep s)
    | cons y rest =>
      rw [hs] at h ih
      rw [mem_cons] at h
      rcases h with rfl | h
      · rw [mem_cons, not_or]
        exact ⟨Ne.symm hc, ih mem_cons_self⟩
      · exact ih (mem_cons_of_mem y h)

theorem split_join {segs : List (List α)} (hne : segs ≠ []) (h : ∀ x ∈ segs, sep ∉ x) :
    split sep (join sep segs) = segs := by
  have hfi (x s : List α) (hx : sep ∉ x) : split sep (x ++ sep :: s) = x :: split sep s := by
    induction x with
    | nil => rw [nil_append, split, if_pos rfl]
    | cons c x ih =>
      rw [mem_cons, not_or] at hx
      rw [cons_append, split, if_neg (Ne.symm hx.1), ih hx.2]
  have hla (x : List α) (hx : sep ∉ x) : split sep x = [x] := by
    induction x with
    | nil => rfl
    | cons c x ih =>
      rw [mem_cons, not_or] at hx
      rw [split, if_neg (Ne.symm hx.1), ih hx.2]
  induction segs with
  | nil => exact absurd rfl hne
  | cons x rest ih =>
    have hx := h x mem_cons_self
    cases rest with
    | nil => exact hla x hx
    | cons y rest =>
      rw [join_cons sep x (cons_ne_nil y rest), hfi x _ hx,
        ih (cons_ne_nil y rest) fun z hz => h z (mem_cons_of_mem x hz)]

/-- The segments of a string that lacks the last separator only. -/
theorem split_of_terminate {segs : List (List α)} (hne : segs ≠ []) (h : ∀ x ∈ segs, sep ∉ x)
    (he : s ++ [sep] = terminate sep segs) : split sep s = segs := by
  rw [terminate_eq sep hne] at he
  rw [append_cancel_right he, split_join hne h]

theorem split_append (sep : α) (s t : List α) :
    split sep (s ++ sep :: t) = split sep s ++ split sep t := by
  have hs := split_ne_nil sep s
  conv_lhs => rw [← join_split sep s, ← join_split sep t]
  rw [← join_append sep hs (split_ne_nil sep t), split_join (append_ne_nil_of_left_ne_nil hs _)]
  intro x hx
  rcases mem_append.mp hx with hx | hx <;> exact not_mem_of_mem_split hx

end Split

section Search

variable [DecidableEq α] {sep : α} {segs : List (List α)}

private theorem find_append (p : List α) {x : List α} (hx : sep ∉ x) (s : List α) :
    find (sep :: p) (x ++ s) =
      (find (sep :: p) s).map fun parts => (x ++ parts.1, parts.2) := by
  induction x with
  | nil => simp
  | cons c x ih =>
    rw [mem_cons, not_or] at hx
    rw [cons_append, find, if_neg, ih hx.2, Option.map_map]
    · rfl
    · rw [List.isPrefixOf_iff_prefix, cons_prefix_cons]
      exact fun h => hx.1 h.1

/-- The first occurrence of a segment that is not the last one: what is before and after it. -/
def cutInner (t : List α) : List (List α) → Option (List (List α) × List (List α))
  | [] => none
  | [_] => none
  | x :: y :: rest =>
    if x = t then some ([], y :: rest)
    else (cutInner t (y :: rest)).map fun parts => (x :: parts.1, parts.2)

/-- The parts of a list of segments that has been cut. -/
theorem eq_of_cutInner {t : List α} {us vs : List (List α)} (h : cutInner t segs = some (us, vs)) :
    segs = us ++ t :: vs ∧ vs ≠ [] ∧ t ∉ us := by
  induction segs generalizing us with
  | nil => cases h
  | cons x rest ih =>
    cases rest with
    | nil => cases h
    | cons y rest =>
      rw [cutInner] at h
      split at h
      next he =>
        cases h
        exact ⟨by rw [he]; rfl, cons_ne_nil y rest, not_mem_nil⟩
      next hne =>
        rw [map_eq_some_iff] at h
        obtain ⟨⟨us', vs'⟩, hc, he⟩ := h
        cases he
        obtain ⟨hse, hv, hn⟩ := ih hc
        refine ⟨by rw [hse]; rfl, hv, ?_⟩
        rw [mem_cons, not_or]
        exact ⟨Ne.symm hne, hn⟩

/-- There is no such segment between the first and the last one. -/
theorem not_mem_of_cutInner {t : List α} (h : cutInner t segs = none) : t ∉ segs.dropLast := by
  induction segs with
  | nil => exact not_mem_nil
  | cons x rest ih =>
    cases rest with
    | nil => exact not_mem_nil
    | cons y rest =>
      rw [cutInner] at h
      split at h
      · cases h
      next hne =>
        rw [map_eq_none_iff] at h
        rw [dropLast_cons_cons, mem_cons, not_or]
        exact ⟨Ne.symm hne, ih h⟩

/-- Nothing is cut exactly if there is no such segment but the last one. -/
theorem cutInner_eq_none_iff {t : List α} : cutInner t segs = none ↔ t ∉ segs.dropLast := by
  constructor
  · exact not_mem_of_cutInner
  · intro h
    cases hc : cutInner t segs with
    | none => rfl
    | some parts =>
      obtain ⟨hse, hv, -⟩ := eq_of_cutInner hc
      rw [hse, dropLast_append_of_ne_nil (cons_ne_nil t _), dropLast_cons_of_ne_nil hv] at h
      exact absurd mem_append_cons_self h

/-- The search for a segment between two separators. -/
theorem find_join {t a : List α} (ht : sep ∉ t) (ha : sep ∉ a) (h : ∀ x ∈ segs, sep ∉ x) :
    find (sep :: (t ++ [sep])) (join sep (a :: segs)) =
      (cutInner t segs).map fun parts => (join sep (a :: parts.1), join sep parts.2) := by
  induction segs generalizing a with
  | nil =>
    have hfi := find_append (t ++ [sep]) ha []
    rw [append_nil] at hfi
    rw [join, hfi, find]
    rfl
  | cons x rest ih =>
    have hx := h x mem_cons_self
    rw [join_cons sep a (cons_ne_nil x rest), find_append _ ha, find]
    by_cases hr : x = t ∧ rest ≠ []
    · obtain ⟨rfl, hre⟩ := hr
      have hpr : (sep :: (x ++ [sep])).isPrefixOf (sep :: join sep (x :: rest)) = true := by
        rw [List.isPrefixOf_iff_prefix, cons_prefix_cons]
        exact ⟨rfl, (prefix_join_iff ht hx).mpr ⟨rfl, hre⟩⟩
      have hc : cutInner x (x :: rest) = some ([], rest) := by
        cases rest with
        | nil => exact absurd rfl hre
        | cons y rest => rw [cutInner, if_pos rfl]
      have hd : (sep :: join sep (x :: rest)).drop (sep :: (x ++ [sep])).length =
          join sep rest := by
        have hsp : sep :: join sep (x :: rest) = (sep :: (x ++ [sep])) ++ join sep rest := by
          rw [join_cons sep x hre, cons_append, append_assoc, singleton_append]
        rw [hsp, drop_left]
      rw [if_pos hpr, hc, hd]
      simp [join]
    · have hpr : ¬ (sep :: (t ++ [sep])).isPrefixOf (sep :: join sep (x :: rest)) = true := by
        rw [List.isPrefixOf_iff_prefix, cons_prefix_cons]
        exact fun hp => hr ((prefix_join_iff ht hx).mp hp.2)
      rw [if_neg hpr, ih hx fun y hy => h y (mem_cons_of_mem x hy)]
      cases rest with
      | nil => rfl
      | cons y rest =>
        have hne : x ≠ t := fun he => hr ⟨he, cons_ne_nil y rest⟩
        rw [cutInner, if_neg hne, Option.map_map, Option.map_map, Option.map_map]
        rfl

theorem findLast_eq_none {l : List α} (hl : sep ∉ l) : findLast sep l = none := by
  induction l with
  | nil => rfl
  | cons c l ih =>
    rw [mem_cons, not_or] at hl
    rw [findLast, ih hl.2, if_neg (Ne.symm hl.1)]

theorem findLast_append {l : List α} (hl : sep ∉ l) (s : List α) :
    findLast sep (s ++ sep :: l) = some (s, l) := by
  induction s with
  | nil => rw [nil_append, findLast, findLast_eq_none hl, if_pos rfl]
  | cons c s ih => rw [cons_append, findLast, ih]

/-- The last separator is before the last segment. -/
theorem findLast_join {l : List α} (hl : sep ∉ l) (hne : segs ≠ []) :
    findLast sep (join sep (segs ++ [l])) = some (join sep segs, l) := by
  rw [join_append sep hne (cons_ne_nil l [])]
  exact findLast_append hl (join sep segs)

end Search

section Remove

variable [DecidableEq α] {t : List α} {segs : List (List α)}

/-- Remove a segment everywhere but at the end. -/
def removeInner (t : List α) : List (List α) → List (List α)
  | [] => []
  | [x] => [x]
  | x :: y :: rest => if x = t then removeInner t (y :: rest) else x :: removeInner t (y :: rest)

theorem removeInner_append (us : List (List α)) {vs : List (List α)} (hv : vs ≠ []) :
    removeInner t (us ++ vs) = us.filter (· ≠ t) ++ removeInner t vs := by
  induction us with
  | nil => rfl
  | cons u us ih =>
    obtain ⟨y, rest, he⟩ := exists_cons_of_ne_nil (append_ne_nil_of_right_ne_nil us hv)
    rw [cons_append, he, removeInner, ← he, ih]
    by_cases hu : u = t
    · rw [if_pos hu, filter_cons_of_neg (by simpa using hu)]
    · rw [if_neg hu, filter_cons_of_pos (by simpa using hu), cons_append]

/-- Removing the first occurrence makes no difference. -/
theorem removeInner_of_cutInner {us vs : List (List α)} (h : cutInner t segs = some (us, vs)) :
    removeInner t segs = removeInner t (us ++ vs) := by
  obtain ⟨rfl, hv, -⟩ := eq_of_cutInner h
  obtain ⟨y, rest, rfl⟩ := exists_cons_of_ne_nil hv
  rw [removeInner_append us (cons_ne_nil t _), removeInner_append us hv, removeInner, if_pos rfl]

theorem removeInner_of_not_mem (h : t ∉ segs.dropLast) : removeInner t segs = segs := by
  induction segs with
  | nil => rfl
  | cons x rest ih =>
    cases rest with
    | nil => rfl
    | cons y rest =>
      rw [dropLast_cons_cons, mem_cons, not_or] at h
      rw [removeInner, if_neg (Ne.symm h.1), ih h.2]

end Remove

end BengProxy.Base.Separated
