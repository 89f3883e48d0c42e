import Mathlib.Algebra.BigOperators.Group.List.Basic
import Mathlib.Algebra.GroupWithZero.Nat

/-!
# Blocks on a line and the gaps between them

An ordered list of named blocks tiles the line from a start position on. `gaps` lists
the free ranges before, and between, the blocks together with the names of the two
neighbours of each; there is no gap behind the last block.
-/

namespace BengProxy.Base

open List

universe u

variable {ι : Type u}

/-- A named range `[offset, offset + size)`. -/
structure Block (ι : Type u) where
  id : ι
  offset : Nat
  size : Nat
  deriving DecidableEq

variable {pos : Nat} {bs : List (Block ι)} {b : Block ι}

/-- The first position behind a block. -/
def Block.stop (b : Block ι) : Nat := b.offset + b.size

/-- A free range between the blocks named `left` and `right`. -/
structure Gap (ι : Type u) where
  offset : Nat
  size : Nat
  left : ι
  right : ι
  deriving DecidableEq

/-- The first position behind a gap. -/
def Gap.stop (g : Gap ι) : Nat := g.offset + g.size

namespace Tiling

/-- The blocks follow each other from `pos` on, none of them empty. -/
def Ordered : Nat → List (Block ι) → Prop
  | _, [] => True
  | pos, b :: bs => pos ≤ b.offset ∧ 0 < b.size ∧ Ordered b.stop bs

variable (left : ι)

/-- The free range between position `pos`, where block `left` ends, and block `b`. -/
def gapBefore (pos : Nat) (b : Block ι) : List (Gap ι) :=
  if pos < b.offset then [⟨pos, b.offset - pos, left, b.id⟩] else []

/-- All free ranges before the blocks, where `left` names what ends at `pos`. -/
def gaps : ι → Nat → List (Block ι) → List (Gap ι)
  | _, _, [] => []
  | left, pos, b :: bs => gapBefore left pos b ++ gaps b.id b.stop bs

/-- The position behind the last block. -/
def stop : Nat → List (Block ι) → Nat
  | pos, [] => pos
  | _, b :: bs => stop b.stop bs

/-- The position of the first block. -/
def start : Nat → List (Block ι) → Nat
  | pos, [] => pos
  | _, b :: _ => b.offset

/-- The name of the last block. -/
def lastId (bs : List (Block ι)) : ι := (bs.map Block.id).getLastD left

/-- The name of the first block. -/
def firstId (right : ι) (bs : List (Block ι)) : ι := (bs.map Block.id).headD right

/-- Move the blocks together, the first one to `pos`. -/
def compact : Nat → List (Block ι) → List (Block ι)
  | _, [] => []
  | pos, b :: bs => { b with offset := pos } :: compact (pos + b.size) bs

/-- Every block starts at a multiple of `n` and has such a size. -/
def Aligned (n : Nat) (bs : List (Block ι)) : Prop := ∀ b ∈ bs, n ∣ b.offset ∧ n ∣ b.size

/-- The sum of the sizes of the blocks. -/
def total (bs : List (Block ι)) : Nat := (bs.map Block.size).sum

/-- The sum of the sizes of the gaps. -/
def totalGaps (gs : List (Gap ι)) : Nat := (gs.map Gap.size).sum

@[simp] theorem lastId_nil : lastId left [] = left := rfl

@[simp] theorem lastId_cons (b : Block ι) (bs : List (Block ι)) :
    lastId left (b :: bs) = lastId b.id bs := by
  simp only [lastId, map_cons, getLastD_cons]

@[simp] theorem total_nil : total ([] : List (Block ι)) = 0 := rfl

@[simp] theorem total_cons (b : Block ι) (bs : List (Block ι)) :
    total (b :: bs) = b.size + total bs := by
  simp [total]

@[simp] theorem total_append (xs ys : List (Block ι)) :
    total (xs ++ ys) = total xs + total ys := by
  simp [total]

@[simp] theorem totalGaps_append (xs ys : List (Gap ι)) :
    totalGaps (xs ++ ys) = totalGaps xs + totalGaps ys := by
  simp [totalGaps]

/-- Cutting the blocks in two cuts the gaps in two. -/
theorem gaps_append (pos : Nat) (xs ys : List (Block ι)) :
    gaps left pos (xs ++ ys) = gaps left pos xs ++ gaps (lastId left xs) (stop pos xs) ys := by
  induction xs generalizing left pos with
  | nil => rfl
  | cons x xs ih => simp only [cons_append, gaps, stop, ih, lastId_cons, append_assoc]

theorem stop_append (pos : Nat) (xs ys : List (Block ι)) :
    stop pos (xs ++ ys) = stop (stop pos xs) ys := by
  induction xs generalizing pos with
  | nil => rfl
  | cons x xs ih => simp only [cons_append, stop, ih]

theorem ordered_append {xs ys : List (Block ι)} :
    Ordered pos (xs ++ ys) ↔ Ordered pos xs ∧ Ordered (stop pos xs) ys := by
  induction xs generalizing pos with
  | nil => simp [Ordered, stop]
  | cons x xs ih => simp only [cons_append, Ordered, stop, ih, and_assoc]

theorem Ordered.mono {pos' : Nat} (h : Ordered pos bs) (hp : pos' ≤ pos) : Ordered pos' bs := by
  cases bs with
  | nil => exact True.intro
  | cons b bs => exact ⟨Nat.le_trans hp h.1, h.2⟩

section

variable (h : Ordered pos bs)
include h

private theorem Ordered.le_stop : pos ≤ stop pos bs := by
  induction bs generalizing pos with
  | nil => exact Nat.le_refl _
  | cons b bs ih =>
    have hb := ih h.2.2
    have := h.1
    simp only [stop, Block.stop] at hb ⊢
    omega

/-- Every block lies between the start position and the end. -/
theorem Ordered.mem_bounds (hb : b ∈ bs) : pos ≤ b.offset ∧ 0 < b.size ∧ b.stop ≤ stop pos bs := by
  obtain ⟨xs, ys, rfl⟩ := append_of_mem hb
  obtain ⟨hx, hy⟩ := ordered_append.mp h
  refine ⟨Nat.le_trans hx.le_stop hy.1, hy.2.1, ?_⟩
  rw [stop_append]
  exact hy.2.2.le_stop

theorem Ordered.start_le (hb : b ∈ bs) (pos' : Nat) : start pos' bs ≤ b.offset := by
  cases bs with
  | nil => simp at hb
  | cons c bs =>
    rcases mem_cons.mp hb with rfl | hb
    · exact Nat.le_refl _
    · have hc := (h.2.2.mem_bounds hb).1
      simp only [start, Block.stop] at hc ⊢
      omega

/-- Every block ends before the next one starts. -/
theorem Ordered.pairwise : bs.Pairwise fun a b => a.stop ≤ b.offset := by
  induction bs generalizing pos with
  | nil => exact List.Pairwise.nil
  | cons b bs ih =>
    refine pairwise_cons.mpr ⟨?_, ih h.2.2⟩
    intro c hc
    exact (h.2.2.mem_bounds hc).1

omit h in
theorem mem_middle {xs ys : List (Block ι)} {c : Block ι} :
    c ∈ xs ++ b :: ys ↔ c = b ∨ c ∈ xs ++ ys :=
  perm_middle.mem_iff.trans mem_cons

theorem Ordered.disjoint {c : Block ι}
    (hb : b ∈ bs) (hc : c ∈ bs) (hne : b ≠ c) : b.stop ≤ c.offset ∨ c.stop ≤ b.offset := by
  obtain ⟨xs, ys, rfl⟩ := append_of_mem hb
  have hp := h.pairwise
  rw [pairwise_append, pairwise_cons] at hp
  simp only [mem_append, mem_cons] at hc
  rcases hc with hc | rfl | hc
  · exact .inr (hp.2.2 c hc b (by simp))
  · exact absurd rfl hne
  · exact .inl (hp.2.1.1 c hc)

/-- A gap lies between the start position and the end, and is not empty. -/
theorem Ordered.gap_bounds {left : ι} {g : Gap ι} (hg : g ∈ gaps left pos bs) :
    pos ≤ g.offset ∧ 0 < g.size ∧ g.stop ≤ stop pos bs := by
  induction bs generalizing pos left with
  | nil => simp [gaps] at hg
  | cons b bs ih =>
    rw [gaps, mem_append] at hg
    have hs := h.2.2.le_stop
    have hp := h.1
    simp only [stop, Block.stop] at hs ⊢
    rcases hg with hg | hg
    · unfold gapBefore at hg
      split at hg
      · next hlt =>
        obtain rfl := mem_singleton.mp hg
        simp only [Gap.stop]
        omega
      · simp at hg
    · have hb := ih h.2.2 hg
      simp only [Block.stop] at hb
      omega

theorem Ordered.gap_disjoint {left : ι} {g : Gap ι} (hg : g ∈ gaps left pos bs) (hb : b ∈ bs) :
    g.stop ≤ b.offset ∨ b.stop ≤ g.offset := by
  obtain ⟨xs, ys, rfl⟩ := append_of_mem hb
  obtain ⟨hx, hy⟩ := ordered_append.mp h
  rw [gaps_append, mem_append, gaps, mem_append] at hg
  rcases hg with hg | hg | hg
  · exact .inl (Nat.le_trans (hx.gap_bounds hg).2.2 hy.1)
  · unfold gapBefore at hg
    split at hg
    · obtain rfl := mem_singleton.mp hg
      simp only [Gap.stop]
      omega
    · simp at hg
  · exact .inr (hy.2.2.gap_bounds hg).1

/-- Blocks and gaps together fill the line up to the end. -/
theorem Ordered.stop_eq (left : ι) :
    stop pos bs = pos + total bs + totalGaps (gaps left pos bs) := by
  induction bs generalizing pos left with
  | nil => simp [stop, gaps, totalGaps]
  | cons b bs ih =>
    have hb := ih h.2.2 b.id
    have hp := h.1
    rw [stop, hb, gaps, totalGaps_append, total_cons, Block.stop]
    have hg : totalGaps (gapBefore left pos b) = b.offset - pos := by
      unfold gapBefore
      split
      · simp [totalGaps]
      · simp only [totalGaps, map_nil, sum_nil]; omega
    omega

end

/-- A gap separates two blocks that follow each other. -/
theorem mem_gaps_iff {left : ι} {g : Gap ι} :
    g ∈ gaps left pos bs ↔
      ∃ xs b ys, bs = xs ++ b :: ys ∧ g ∈ gapBefore (lastId left xs) (stop pos xs) b := by
  constructor
  · intro hg
    induction bs generalizing pos left with
    | nil => simp [gaps] at hg
    | cons b bs ih =>
      rw [gaps, mem_append] at hg
      rcases hg with hg | hg
      · exact ⟨[], b, bs, rfl, hg⟩
      · obtain ⟨xs, c, ys, rfl, hc⟩ := ih hg
        exact ⟨b :: xs, c, ys, rfl, by simpa only [lastId_cons, stop] using hc⟩
  · rintro ⟨xs, b, ys, rfl, hg⟩
    rw [gaps_append, mem_append, gaps, mem_append]
    exact .inr (.inl hg)

theorem aligned_append {n : Nat} {xs ys : List (Block ι)} :
    Aligned n (xs ++ ys) ↔ Aligned n xs ∧ Aligned n ys := by
  simp only [Aligned, mem_append, or_imp]
  exact forall_and

theorem aligned_cons {n : Nat} :
    Aligned n (b :: bs) ↔ (n ∣ b.offset ∧ n ∣ b.size) ∧ Aligned n bs := by
  simp only [Aligned, mem_cons, forall_eq_or_imp]

theorem Aligned.stop {n : Nat} (h : Aligned n bs) (hp : n ∣ pos) :
    n ∣ stop pos bs := by
  induction bs generalizing pos with
  | nil => exact hp
  | cons b bs ih =>
    obtain ⟨hb, hs⟩ := aligned_cons.mp h
    exact ih hs (Nat.dvd_add hb.1 hb.2)

@[simp] theorem map_id_compact (pos : Nat) (bs : List (Block ι)) :
    (compact pos bs).map Block.id = bs.map Block.id := by
  induction bs generalizing pos with
  | nil => rfl
  | cons b bs ih => simp only [compact, map_cons, ih]

@[simp] theorem total_compact (pos : Nat) (bs : List (Block ι)) :
    total (compact pos bs) = total bs := by
  induction bs generalizing pos with
  | nil => rfl
  | cons b bs ih => simp only [compact, total_cons, ih]

/-- Compacted blocks leave no gap. -/
@[simp] theorem gaps_compact (pos : Nat) (bs : List (Block ι)) :
    gaps left pos (compact pos bs) = [] := by
  induction bs generalizing left pos with
  | nil => rfl
  | cons b bs ih => simp [compact, gaps, gapBefore, Block.stop, ih]

theorem Ordered.compact {pos' : Nat} (h : Ordered pos bs) :
    Ordered pos' (compact pos' bs) := by
  induction bs generalizing pos pos' with
  | nil => exact True.intro
  | cons b bs ih => exact ⟨Nat.le_refl _, h.2.1, ih h.2.2⟩

theorem stop_compact (pos : Nat) (bs : List (Block ι)) :
    stop pos (compact pos bs) = pos + total bs := by
  induction bs generalizing pos with
  | nil => rfl
  | cons b bs ih =>
    have hb : Block.stop { b with offset := pos } = pos + b.size := rfl
    rw [Tiling.compact, stop, hb, ih, total_cons, add_assoc]

theorem Ordered.compact_eq (h : Ordered pos bs) (left : ι)
    (hg : totalGaps (gaps left pos bs) = 0) : Tiling.compact pos bs = bs := by
  induction bs generalizing pos left with
  | nil => rfl
  | cons b bs ih =>
    rw [gaps, totalGaps_append] at hg
    have hb : b.offset = pos := by
      have hp := h.1
      unfold gapBefore at hg
      split at hg
      · simp only [totalGaps, map_cons, sum_cons] at hg
        omega
      · omega
    rw [← hb]
    have hs := ih h.2.2 b.id (by omega)
    exact congrArg (b :: ·) hs

theorem Aligned.compact {n : Nat} (h : Aligned n bs) (hp : n ∣ pos) :
    Aligned n (compact pos bs) := by
  induction bs generalizing pos with
  | nil => exact h
  | cons b bs ih =>
    obtain ⟨hb, hs⟩ := aligned_cons.mp h
    exact aligned_cons.mpr ⟨⟨hp, hb.2⟩, ih hs (Nat.dvd_add hp hb.2)⟩

/-- The neighbours in a list of blocks, where `left` stands before the first one. -/
theorem infix_iff {left a b : ι} : [a, b] <:+: left :: bs.map Block.id ↔
      ∃ xs c ys, bs = xs ++ c :: ys ∧ a = lastId left xs ∧ b = c.id := by
  induction bs generalizing left with
  | nil => simp [infix_cons_iff]
  | cons x bs ih =>
    rw [map_cons, infix_cons_iff, ih]
    constructor
    · rintro (hp | ⟨xs, c, ys, rfl, rfl, rfl⟩)
      · simp only [cons_prefix_cons, nil_prefix, and_true] at hp
        exact ⟨[], x, bs, rfl, hp.1, hp.2⟩
      · exact ⟨x :: xs, c, ys, rfl, by rw [lastId_cons], rfl⟩
    · rintro ⟨xs, c, ys, he, rfl, rfl⟩
      cases xs with
      | nil =>
        obtain ⟨rfl, rfl⟩ := List.cons.inj he
        left
        simp
      | cons y xs =>
        obtain ⟨rfl, rfl⟩ := List.cons.inj he
        exact .inr ⟨xs, c, ys, rfl, by rw [lastId_cons], rfl⟩

end Tiling
end BengProxy.Base
