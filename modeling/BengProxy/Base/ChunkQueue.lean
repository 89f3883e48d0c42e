import Mathlib.Data.List.Basic

/-!
# Queues in chunks

A queue whose elements are stored in a list of chunks. It is read from a position in the first
chunk, which is dropped when it has been consumed, and elements are added to the last chunk. The
operations are described by what they do to the contents.
-/

namespace BengProxy.Base

open List Option

universe u

/-- The chunks, and the position in the first one where the contents begin. -/
structure ChunkQueue (α : Type u) where
  chunks : List (List α) := []
  position : Nat := 0
  deriving DecidableEq, Repr

namespace ChunkQueue

variable {α : Type u}

variable {position : Nat} {q : ChunkQueue α}

section

variable (q : ChunkQueue α)

/-- The elements of the queue. -/
def contents : List α := q.chunks.flatten.drop q.position

/-- The pieces of all chunks after some elements have been skipped. -/
def pieces : Nat → List (List α) → List (List α)
  | _, [] => []
  | skip, c :: rest =>
    if 0 < skip then
      if c.length ≤ skip then pieces (skip - c.length) rest else c.drop skip :: pieces 0 rest
    else c :: pieces 0 rest

/-- What is left of the first chunk. -/
def read : List α :=
  match q.chunks with
  | [] => []
  | c :: _ => c.drop q.position

/-- Elements of the first chunk have been consumed. -/
def consume (length : Nat) : ChunkQueue α :=
  if length = 0 then q
  else
    match q.chunks with
    | [] => q
    | c :: rest =>
      if c.length ≤ q.position + length then { chunks := rest, position := 0 }
      else { q with position := q.position + length }

/-- Skip elements, also beyond the first chunk; missing if there are not so many. -/
def skipLoop : List (List α) → Nat → Nat → Option (ChunkQueue α)
  | [], position, length => if length = 0 then some { chunks := [], position } else none
  | c :: rest, position, length =>
    if length = 0 then some { chunks := c :: rest, position }
    else if length < c.length - position then
      some { chunks := c :: rest, position := position + length }
    else skipLoop rest 0 (length - (c.length - position))

/-- Skip elements. -/
def skip (length : Nat) : Option (ChunkQueue α) :=
  skipLoop q.chunks q.position length

/-- Consume as many elements as there are, up to a limit, and count them. -/
def consumeUpToLoop : List (List α) → Nat → Nat → Nat → ChunkQueue α × Nat
  | [], position, _, result => ({ chunks := [], position }, result)
  | c :: rest, position, limit, result =>
    if limit = 0 then ({ chunks := c :: rest, position }, result)
    else if limit < c.length - position then
      ({ chunks := c :: rest, position := position + limit }, result + limit)
    else
      consumeUpToLoop rest 0 (limit - (c.length - position)) (result + (c.length - position))

/-- Consume as many elements as there are, up to a limit, and count them. -/
def consumeUpTo (limit : Nat) : ChunkQueue α × Nat :=
  consumeUpToLoop q.chunks q.position limit 0

end

/-- Add elements to the last chunk. -/
def appendLast (data : List α) : List (List α) → List (List α)
  | [] => []
  | [c] => [c ++ data]
  | c :: rest => c :: appendLast data rest

/-- The position is in the first chunk, and only a single chunk may be empty. -/
structure WF (q : ChunkQueue α) : Prop where
  position_le : q.position ≤ (q.chunks.headD []).length
  ne_nil : q.chunks.length ≤ 1 ∨ ∀ c ∈ q.chunks, c ≠ []

/-- The contents begin in the first chunk. -/
def Live (q : ChunkQueue α) : Prop := q.chunks ≠ [] → q.position < (q.chunks.headD []).length

theorem wf_nil : ({} : ChunkQueue α).WF := ⟨Nat.le_refl 0, .inl (Nat.zero_le 1)⟩

/-- The contents as the rest of the first chunk and the others. -/
theorem contents_cons {c : List α} {rest : List (List α)} (h : position ≤ c.length) :
    ({ chunks := c :: rest, position } : ChunkQueue α).contents =
      c.drop position ++ rest.flatten := by
  exact drop_append_of_le_length h

private theorem WF.tail {c : List α} {rest : List (List α)}
    (h : ({ chunks := c :: rest, position } : ChunkQueue α).WF) :
    ({ chunks := rest, position := 0 } : ChunkQueue α).WF ∧
      ({ chunks := rest, position := 0 } : ChunkQueue α).Live := by
  have hr : ∀ d ∈ rest, d ≠ [] := by
    intro d hd
    rcases h.ne_nil with ho | hal
    · have hle : rest.length = 0 := by
        rw [length_cons] at ho
        omega
      rw [length_eq_zero_iff.mp hle] at hd
      exact absurd hd not_mem_nil
    · exact hal d (mem_cons_of_mem c hd)
  refine ⟨⟨Nat.zero_le _, .inr hr⟩, fun hne => ?_⟩
  cases rest with
  | nil => exact absurd rfl hne
  | cons d rest => exact length_pos_iff.mpr (hr d mem_cons_self)

variable (chunks : List (List α))

/-- The pieces are the elements that have not been skipped. -/
theorem flatten_pieces : ∀ skip, (pieces skip chunks).flatten = chunks.flatten.drop skip := by
  induction chunks with
  | nil =>
    intro skip
    exact drop_nil.symm
  | cons c rest ih =>
    intro skip
    rw [pieces, flatten_cons]
    split
    · split
      next hle => rw [ih, drop_append, drop_eq_nil_of_le hle, nil_append]
      next hle => rw [flatten_cons, ih, drop_zero, drop_append_of_le_length (Nat.le_of_not_le hle)]
    next hpo =>
      have hz : skip = 0 := by omega
      rw [hz, flatten_cons, ih, drop_zero, drop_zero]

/-- What is left of the first chunk is where the contents begin. -/
theorem read_prefix (h : q.WF) : q.read <+: q.contents := by
  obtain ⟨chunks, position⟩ := q
  cases chunks with
  | nil => exact nil_prefix
  | cons c rest =>
    have hpo : position ≤ c.length := h.position_le
    rw [contents_cons hpo]
    exact prefix_append _ _

/-- If the contents begin in the first chunk, then something can be read. -/
theorem contents_eq_nil_of_read (h : q.Live) (hre : q.read = []) :
    q.contents = [] := by
  obtain ⟨chunks, position⟩ := q
  cases chunks with
  | nil => exact drop_nil
  | cons c rest =>
    have hlt : position < c.length := h (cons_ne_nil c rest)
    have hle : c.length ≤ position := drop_eq_nil_iff.mp hre
    omega

theorem consume_spec (h : q.WF) {length : Nat} (hle : length ≤ q.read.length) :
    (q.consume length).WF ∧ (q.Live → (q.consume length).Live) ∧
      (q.consume length).contents = q.contents.drop length := by
  obtain ⟨chunks, position⟩ := q
  by_cases hz : length = 0
  · rw [hz]
    exact ⟨h, id, rfl⟩
  cases chunks with
  | nil => exact absurd (Nat.le_zero.mp hle) hz
  | cons c rest =>
    have hpo : position ≤ c.length := h.position_le
    have hl : length ≤ c.length - position := by
      have hre : (c.drop position).length = c.length - position := length_drop
      rw [← hre]
      exact hle
    rw [consume, if_neg hz, contents_cons hpo]
    simp only
    split
    next hfu =>
      refine ⟨h.tail.1, fun _ => h.tail.2, ?_⟩
      rw [contents, drop_append, drop_drop, drop_eq_nil_of_le hfu, nil_append, length_drop]
      have hd : length - (c.length - position) = 0 := by omega
      rw [hd, drop_zero]
    next hpa =>
      have hl' : position + length ≤ c.length := by omega
      refine ⟨⟨hl', h.ne_nil⟩, fun _ _ => Nat.lt_of_not_le hpa, ?_⟩
      rw [contents_cons hl', drop_append_of_le_length, drop_drop]
      rw [length_drop]
      exact hl

theorem skipLoop_spec : ∀ {position length : Nat}, ({ chunks, position } : ChunkQueue α).WF →
      length ≤ ({ chunks, position } : ChunkQueue α).contents.length →
      ∃ q', skipLoop chunks position length = some q' ∧ q'.WF ∧
        (({ chunks, position } : ChunkQueue α).Live → q'.Live) ∧
        q'.contents = ({ chunks, position } : ChunkQueue α).contents.drop length := by
  induction chunks with
  | nil =>
    intro position length h hle
    have hz : length = 0 := by
      rw [contents, flatten_nil, drop_nil] at hle
      exact Nat.le_zero.mp hle
    refine ⟨{ chunks := [], position }, if_pos hz, h, id, ?_⟩
    rw [hz, drop_zero]
  | cons c rest ih =>
    intro position length h hle
    have hpo : position ≤ c.length := h.position_le
    rw [contents_cons hpo] at hle ⊢
    rw [skipLoop]
    split
    next hz =>
      refine ⟨_, rfl, h, id, ?_⟩
      rw [contents_cons hpo, hz, drop_zero]
    next hz =>
      split
      next hlt =>
        have hl' : position + length ≤ c.length := by omega
        refine ⟨_, rfl, ⟨hl', h.ne_nil⟩, fun _ _ => ?_, ?_⟩
        · show position + length < c.length
          omega
        · rw [contents_cons hl', drop_append_of_le_length, drop_drop]
          rw [length_drop]
          omega
      next hg =>
        have hal : (c.drop position).length ≤ length := by
          rw [length_drop]
          omega
        have hr : length - (c.length - position) ≤
            ({ chunks := rest, position := 0 } : ChunkQueue α).contents.length := by
          rw [length_append, length_drop] at hle
          show _ ≤ rest.flatten.length
          omega
        obtain ⟨q', hsk, hw, hli, hc⟩ := ih h.tail.1 hr
        refine ⟨q', hsk, hw, fun _ => hli h.tail.2, ?_⟩
        rw [hc, drop_append, drop_eq_nil_of_le hal, nil_append, length_drop, contents, drop_zero]

private theorem add_min_sub {a l n : Nat} (h : a ≤ l) :
    a + min (l - a) n = min l (a + n) := by omega

theorem consumeUpToLoop_spec :
    ∀ {position : Nat} (limit result : Nat), ({ chunks, position } : ChunkQueue α).WF →
      (consumeUpToLoop chunks position limit result).1.WF ∧
      (({ chunks, position } : ChunkQueue α).Live →
        (consumeUpToLoop chunks position limit result).1.Live) ∧
      (consumeUpToLoop chunks position limit result).1.contents =
        ({ chunks, position } : ChunkQueue α).contents.drop limit ∧
      (consumeUpToLoop chunks position limit result).2 =
        result + min limit ({ chunks, position } : ChunkQueue α).contents.length := by
  induction chunks with
  | nil =>
    intro position limit result h
    refine ⟨h, id, ?_, ?_⟩
    · rw [consumeUpToLoop, contents, flatten_nil, drop_nil, drop_nil]
    · rw [consumeUpToLoop, contents, flatten_nil, drop_nil, length_nil, Nat.min_zero, Nat.add_zero]
  | cons c rest ih =>
    intro position limit result h
    have hpo : position ≤ c.length := h.position_le
    rw [contents_cons hpo, consumeUpToLoop]
    split
    next hz =>
      refine ⟨h, id, ?_, ?_⟩
      · rw [contents_cons hpo, hz, drop_zero]
      · rw [hz, Nat.zero_min, Nat.add_zero]
    next hz =>
      split
      next hlt =>
        have hl' : position + limit ≤ c.length := by omega
        refine ⟨⟨hl', h.ne_nil⟩, fun _ _ => ?_, ?_, ?_⟩
        · show position + limit < c.length
          omega
        · rw [contents_cons hl', drop_append_of_le_length, drop_drop]
          rw [length_drop]
          omega
        · rw [length_append, length_drop]
          omega
      next hg =>
        have hal : (c.drop position).length ≤ limit := by
          rw [length_drop]
          omega
        obtain ⟨hw, hli, hc, hre⟩ :=
          ih (limit - (c.length - position)) (result + (c.length - position)) h.tail.1
        refine ⟨hw, fun _ => hli h.tail.2, ?_, ?_⟩
        · rw [hc, drop_append, drop_eq_nil_of_le hal, nil_append, length_drop, contents, drop_zero]
        · rw [hre, contents, drop_zero, length_append, length_drop,
            Nat.add_assoc, add_min_sub (Nat.le_of_not_lt hg)]

theorem consume_suffix (q : ChunkQueue α) (length : Nat) :
    (q.consume length).chunks <:+ q.chunks := by
  obtain ⟨chunks, position⟩ := q
  rw [consume]
  split
  · exact suffix_refl _
  cases chunks with
  | nil => exact suffix_refl _
  | cons c rest =>
    simp only
    split
    · exact suffix_cons c rest
    · exact suffix_refl _

theorem skipLoop_suffix : ∀ {position length : Nat} {q' : ChunkQueue α},
      skipLoop chunks position length = some q' → q'.chunks <:+ chunks := by
  induction chunks with
  | nil =>
    intro position length q' h
    rw [skipLoop, ite_none_right_eq_some] at h
    have hq := some.inj h.2
    subst hq
    exact suffix_refl []
  | cons c rest ih =>
    intro position length q' h
    rw [skipLoop] at h
    split at h
    · have hq := some.inj h
      subst hq
      exact suffix_refl _
    split at h
    · have hq := some.inj h
      subst hq
      exact suffix_refl _
    · exact (ih h).trans (suffix_cons c rest)

theorem consumeUpToLoop_suffix : ∀ position limit result,
      (consumeUpToLoop chunks position limit result).1.chunks <:+ chunks := by
  induction chunks with
  | nil => exact fun _ _ _ => suffix_refl _
  | cons c rest ih =>
    intro position limit result
    rw [consumeUpToLoop]
    split
    · exact suffix_refl _
    · split
      · exact suffix_refl _
      · exact (ih _ _ _).trans (suffix_cons c rest)

@[simp]
theorem appendLast_concat (data : List α) (chunks : List (List α)) (c : List α) :
    appendLast data (chunks ++ [c]) = chunks ++ [c ++ data] := by
  induction chunks with
  | nil => rfl
  | cons d rest ih =>
    cases rest with
    | nil => rfl
    | cons e rest =>
      show d :: appendLast data (e :: rest ++ [c]) = _
      rw [ih]
      rfl

private theorem WF.position_le_length (h : q.WF) :
    q.position ≤ q.chunks.flatten.length := by
  apply Nat.le_trans h.position_le
  cases q.chunks with
  | nil => exact Nat.zero_le _
  | cons c rest =>
    rw [flatten_cons, length_append]
    exact Nat.le_add_right c.length _

theorem WF.append {chunks : List (List α)} {c : List α} (data : List α)
    (h : ({ chunks := chunks ++ [c], position } : ChunkQueue α).WF) :
    ({ chunks := chunks ++ [c ++ data], position } : ChunkQueue α).WF ∧
      ({ chunks := chunks ++ [c ++ data], position } : ChunkQueue α).contents =
        ({ chunks := chunks ++ [c], position } : ChunkQueue α).contents ++ data := by
  have hle : position ≤ (chunks ++ [c]).flatten.length := h.position_le_length
  constructor
  · constructor
    · cases chunks with
      | nil =>
        have hc : position ≤ c.length := h.position_le
        show position ≤ (c ++ data).length
        rw [length_append]
        omega
      | cons d rest => exact h.position_le
    · rcases h.ne_nil with ho | hal
      · left
        rw [length_append] at ho ⊢
        exact ho
      right
      intro d hd
      rcases mem_append.mp hd with hd | hd
      · exact hal d (mem_append_left [c] hd)
      · have hc : c ≠ [] := hal c (mem_append_right chunks mem_cons_self)
        rw [mem_singleton.mp hd]
        exact append_ne_nil_of_left_ne_nil hc data
  · rw [contents, contents, ← drop_append_of_le_length hle]
    simp

theorem WF.push {chunks : List (List α)} {data : List α}
    (h : ({ chunks, position } : ChunkQueue α).WF)
    (hda : chunks = [] ∨ data ≠ [] ∧ ∀ c ∈ chunks, c ≠ []) :
    ({ chunks := chunks ++ [data], position } : ChunkQueue α).WF ∧
      ({ chunks := chunks ++ [data], position } : ChunkQueue α).contents =
        ({ chunks, position } : ChunkQueue α).contents ++ data := by
  have hle : position ≤ chunks.flatten.length := h.position_le_length
  constructor
  · constructor
    · cases chunks with
      | nil =>
        have hz : position ≤ 0 := h.position_le
        exact Nat.le_trans hz (Nat.zero_le _)
      | cons d rest => exact h.position_le
    · rcases hda with hni | ⟨hda, hal⟩
      · left
        rw [hni]
        exact Nat.le_refl 1
      right
      intro d hd
      rcases mem_append.mp hd with hd | hd
      · exact hal d hd
      · rw [mem_singleton.mp hd]
        exact hda
  · rw [contents, contents, ← drop_append_of_le_length hle]
    simp

end ChunkQueue

end BengProxy.Base
