import Mathlib.Data.List.Infix

/-!
# Bucket lists

Models `IstreamBucketList`, `src/istream/Bucket.hxx`, and the result of
`Istream::ConsumeBucketList`, `src/istream/istream.hxx`. The only type of bucket is a buffer,
so a bucket is its bytes.
-/

namespace BengProxy.Istream

open List

/-- `Istream::ConsumeBucketResult`, `istream.hxx:352-364`. -/
structure ConsumeBucketResult where
  consumed : Nat
  eof : Bool
  deriving DecidableEq, Repr

/-- `IstreamBucketList`, `Bucket.hxx:46-52`. -/
structure IstreamBucketList where
  list : List (List UInt8) := []
  more : Bool := false
  fallback : Bool := false
  deriving DecidableEq, Repr

namespace IstreamBucketList

/-- The capacity of the list, `Bucket.hxx:47`. -/
def maxBuckets : Nat := 64

section

variable (l : IstreamBucketList)

/-- `IstreamBucketList::SetMore`, `Bucket.hxx:60-62`. -/
def setMore : IstreamBucketList := { l with more := true }

/-- `IstreamBucketList::EnableFallback`, `Bucket.hxx:68-71`. -/
def enableFallback : IstreamBucketList :=
  { l with more := true, fallback := true }

/-- `IstreamBucketList::Push`, `Bucket.hxx:98-105`. -/
def push (bucket : List UInt8) : IstreamBucketList :=
  if maxBuckets ≤ l.list.length then l.setMore else { l with list := l.list ++ [bucket] }

variable (buckets : List (List UInt8))

/-- Push several buckets. -/
def pushAll : IstreamBucketList :=
  buckets.foldl push l

/-- `IstreamBucketList::Mark`, `Bucket.hxx:115-117`. -/
def mark : Nat := l.list.length - l.more.toNat

/-- `IstreamBucketList::EmptySinceMark`, `Bucket.hxx:119-121`. -/
def emptySinceMark (m : Nat) : Bool := !l.more && l.list.length == m

/-- `IstreamBucketList::GetTotalBufferSize`, `Bucket.hxx:140-148`. -/
def getTotalBufferSize : Nat := l.list.flatten.length

private theorem pushAll_eq : l.pushAll buckets = { l with
      list := l.list ++ buckets.take (maxBuckets - l.list.length)
      more := l.more || decide (maxBuckets - l.list.length < buckets.length) } := by
  induction buckets generalizing l with
  | nil => simp [pushAll]
  | cons b buckets ih =>
    rw [pushAll, foldl_cons, ← pushAll, ih]
    by_cases hfu : maxBuckets ≤ l.list.length
    · have hro : maxBuckets - l.list.length = 0 := by omega
      simp [push, if_pos hfu, setMore, hro]
    · have hro : maxBuckets - l.list.length = maxBuckets - (l.list.length + 1) + 1 := by omega
      simp [push, if_neg hfu, hro]

/-- What was pushed is a prefix, and all of it unless `more` is set. -/
theorem pushAll_spec : ∃ kept, (l.pushAll buckets).list = l.list ++ kept ∧ kept <+: buckets ∧
      ((l.pushAll buckets).more = false → l.more = false ∧ kept = buckets) := by
  refine ⟨buckets.take (maxBuckets - l.list.length), ?_, take_prefix _ _, ?_⟩
  · rw [pushAll_eq]
  · intro h
    rw [pushAll_eq, Bool.or_eq_false_iff, decide_eq_false_iff_not, not_lt] at h
    exact ⟨h.1, take_of_length_le h.2⟩

end

/-- The loop of `IstreamBucketList::SpliceBuffersFrom`, `Bucket.hxx:183-202`: the
number of bytes in all moved buffers, and the list. -/
def spliceLoop : IstreamBucketList → List (List UInt8) → Nat → Nat × IstreamBucketList
  | l, [], _ => (0, l)
  | l, b :: bs, maxSize =>
    if maxSize = 0 then (0, l.setMore)
    else
      let l := if maxSize < b.length then l.setMore else l
      let buffer := b.take maxSize
      let (total, l) := spliceLoop (l.push buffer) bs (maxSize - buffer.length)
      (buffer.length + total, l)

/-- `IstreamBucketList::SpliceBuffersFrom` with the flag `copy_more_flag`,
`Bucket.hxx:173-205`. -/
def spliceBuffersFrom (l src : IstreamBucketList) (maxSize : Nat) : Nat × IstreamBucketList :=
  let l :=
    if src.more then
      if src.fallback && src.list.isEmpty then l.setMore.enableFallback else l.setMore
    else l
  l.spliceLoop src.list maxSize

/-- The loop of `IstreamBucketList::SpliceBuffersFrom` without the flag `copy_more_flag`. -/
def spliceBuffersOnly : IstreamBucketList → List (List UInt8) → Nat → Nat × IstreamBucketList
  | l, [], _ => (0, l)
  | l, b :: bs, maxSize =>
    if maxSize = 0 then (0, l)
    else
      let buffer := b.take maxSize
      let (total, l) := spliceBuffersOnly (l.push buffer) bs (maxSize - buffer.length)
      (buffer.length + total, l)

/-- `IstreamBucketList::SpliceBuffersFrom` without a maximum size,
`Bucket.hxx:213-233`. -/
def spliceAll (l src : IstreamBucketList) : IstreamBucketList :=
  (if src.more then
    if src.fallback && src.list.isEmpty then l.setMore.enableFallback else l.setMore
  else l).pushAll src.list

/-- The contract of `Istream::FillBucketList`: the buckets are the beginning of what the stream
still has to deliver, and all of it unless `more` is set. -/
structure Presents (l : IstreamBucketList) (bytes : List UInt8) : Prop where
  is_prefix : l.list.flatten <+: bytes
  complete : l.more = false → l.list.flatten = bytes

/-- From `l` to `l'`, buckets with the bytes `out` were added, or only a part of them because
the list is full. -/
structure Adds (l l' : IstreamBucketList) (out : List UInt8) : Prop where
  kept : ∃ kept, l'.list = l.list ++ kept ∧ kept.flatten <+: out ∧
    (kept.flatten = out ∨ maxBuckets ≤ l'.list.length ∧ l'.more = true) ∧
    (maxBuckets ≤ l.list.length → kept = [])
  more_mono : l.more = true → l'.more = true

theorem Adds.refl (l : IstreamBucketList) : Adds l l [] :=
  ⟨⟨[], by simp, by simp, .inl rfl, fun _ => rfl⟩, id⟩

theorem Adds.trans {l l' l'' : IstreamBucketList} {xs ys : List UInt8} (h : Adds l l' xs)
    (h' : Adds l' l'' ys) : Adds l l'' (xs ++ ys) where
  kept := by
    obtain ⟨k, hk, hpr, hal, hfu⟩ := h.kept
    obtain ⟨k', hk', hp', ha', hf'⟩ := h'.kept
    refine ⟨k ++ k', by rw [hk', hk, append_assoc], ?_, ?_, ?_⟩
    · rw [flatten_append]
      rcases hal with he | ⟨hle, -⟩
      · rw [he]
        exact (prefix_append_right_inj _).mpr hp'
      · rw [hf' hle, flatten_nil, append_nil]
        exact hpr.trans (prefix_append _ _)
    · rw [flatten_append]
      rcases hal with he | ⟨hle, hm⟩
      · apply ha'.imp_left
        intro he'
        rw [he, he']
      · right
        rw [hk', length_append]
        exact ⟨Nat.le_add_right_of_le hle, h'.more_mono hm⟩
    · intro hle
      rw [hfu hle, hf' (by rw [hk, length_append]; omega), append_nil]
  more_mono hm := h'.more_mono (h.more_mono hm)

theorem Adds.push (l : IstreamBucketList) (b : List UInt8) : Adds l (l.push b) b := by
  unfold IstreamBucketList.push
  by_cases hfu : maxBuckets ≤ l.list.length
  · rw [if_pos hfu]
    exact ⟨⟨[], by simp [setMore], nil_prefix, .inr ⟨hfu, rfl⟩, fun _ => rfl⟩, fun _ => rfl⟩
  · rw [if_neg hfu]
    exact ⟨⟨[b], rfl, by simp, .inl (by simp), fun h => absurd h hfu⟩, id⟩

theorem Adds.setMore (l : IstreamBucketList) : Adds l l.setMore [] :=
  ⟨⟨[], by simp [IstreamBucketList.setMore], by simp, .inl rfl, fun _ => rfl⟩, fun _ => rfl⟩

theorem Adds.enableFallback (l : IstreamBucketList) : Adds l l.enableFallback [] :=
  ⟨⟨[], by simp [IstreamBucketList.enableFallback], by simp, .inl rfl, fun _ => rfl⟩, fun _ => rfl⟩

/-- A list with `more` clear holds everything that was added. -/
theorem Adds.complete {l l' : IstreamBucketList} {out : List UInt8} (h : Adds l l' out)
    (hm : l'.more = false) : (l'.list.drop l.list.length).flatten = out := by
  obtain ⟨kept, hk, -, hal, -⟩ := h.kept
  rw [hk, drop_left]
  rcases hal with he | ⟨-, hm'⟩
  · exact he
  · rw [hm] at hm'
    cases hm'

/-- What was added, in any case. -/
theorem Adds.added {l l' : IstreamBucketList} {out : List UInt8} (h : Adds l l' out) :
    (l'.list.drop l.list.length).flatten <+: out := by
  obtain ⟨kept, hk, hpr, -, -⟩ := h.kept
  rwa [hk, drop_left]

private theorem spliceLoop_spec (bs : List (List UInt8)) :
    ∀ (l : IstreamBucketList) (m : Nat), (∀ b ∈ bs, b ≠ []) →
      ∃ l', l.spliceLoop bs m = (min m bs.flatten.length, l') ∧
        Adds l l' (bs.flatten.take m) ∧
        (m < bs.flatten.length → l'.more = true) := by
  induction bs with
  | nil =>
    intro l m _
    exact ⟨l, by simp [spliceLoop], by simpa using Adds.refl l, by simp⟩
  | cons b bs ih =>
    intro l m hne
    rw [flatten_cons, length_append]
    by_cases h0 : m = 0
    · subst h0
      exact ⟨l.setMore, by simp [spliceLoop], by simpa using Adds.setMore l, fun _ => rfl⟩
    rw [spliceLoop, if_neg h0]
    obtain ⟨l', hs, ha, hm⟩ := ih ((if m < b.length then l.setMore else l).push
      (b.take m)) (m - (b.take m).length)
      fun c hc => hne c (mem_cons_of_mem _ hc)
    have hl : Adds l (if m < b.length then l.setMore else l) [] := by
      split
      · exact Adds.setMore l
      · exact Adds.refl l
    refine ⟨l', ?_, ?_, ?_⟩
    · simp only [hs, Prod.mk.injEq, and_true]
      rw [length_take]
      omega
    · have ho : (b ++ bs.flatten).take m =
          [] ++ b.take m ++ bs.flatten.take (m - (b.take m).length) := by
        rw [take_append, length_take]
        congr 2
        omega
      rw [ho]
      exact (hl.trans (Adds.push _ _)).trans ha
    · intro hlt
      by_cases hlo : m < b.length
      · apply ha.more_mono
        rw [if_pos hlo]
        exact (Adds.push _ _).more_mono rfl
      · apply hm
        rw [length_take]
        omega

/-- Without the flag, the loop moves the first `maxSize` bytes as well. -/
theorem spliceBuffersOnly_spec (bs : List (List UInt8)) :
    ∀ (l : IstreamBucketList) (maxSize : Nat),
      ∃ l', l.spliceBuffersOnly bs maxSize = (min maxSize bs.flatten.length, l') ∧
        Adds l l' (bs.flatten.take maxSize) := by
  induction bs with
  | nil =>
    intro l maxSize
    exact ⟨l, by simp [spliceBuffersOnly], by simpa using Adds.refl l⟩
  | cons b bs ih =>
    intro l maxSize
    rw [flatten_cons, length_append, spliceBuffersOnly]
    by_cases h0 : maxSize = 0
    · subst h0
      exact ⟨l, by simp, by simpa using Adds.refl l⟩
    rw [if_neg h0]
    obtain ⟨l', hs, ha⟩ := ih (l.push (b.take maxSize)) (maxSize - (b.take maxSize).length)
    refine ⟨l', ?_, ?_⟩
    · simp only [hs, Prod.mk.injEq, and_true]
      rw [length_take]
      omega
    · have ho : (b ++ bs.flatten).take maxSize =
          b.take maxSize ++ bs.flatten.take (maxSize - (b.take maxSize).length) := by
        rw [take_append, length_take]
        congr 2
        omega
      rw [ho]
      exact (Adds.push _ _).trans ha

private theorem Adds.pushAll (bs : List (List UInt8)) :
    ∀ l : IstreamBucketList, Adds l (l.pushAll bs) bs.flatten := by
  induction bs with
  | nil => exact Adds.refl
  | cons b bs ih => exact fun l => (Adds.push l b).trans (ih (l.push b))

/-- `SpliceBuffersFrom` without a maximum size moves everything. -/
theorem Adds.spliceAll (l src : IstreamBucketList) :
    Adds l (l.spliceAll src) src.list.flatten ∧
      (src.more = true → (l.spliceAll src).more = true) := by
  unfold IstreamBucketList.spliceAll
  cases src.more with
  | false => exact ⟨Adds.pushAll _ l, nofun⟩
  | true =>
    simp only [if_true]
    split
    · exact ⟨((Adds.setMore l).trans (Adds.enableFallback _)).trans (Adds.pushAll _ _),
        fun _ => (Adds.pushAll _ _).more_mono rfl⟩
    · exact ⟨(Adds.setMore l).trans (Adds.pushAll _ _), fun _ => (Adds.pushAll _ _).more_mono rfl⟩

/-- `SpliceBuffersFrom` moves the first `maxSize` bytes, and copies the flag `more`. -/
theorem spliceBuffersFrom_spec (l src : IstreamBucketList) (maxSize : Nat)
    (hne : ∀ b ∈ src.list, b ≠ []) :
    ∃ l', l.spliceBuffersFrom src maxSize = (min maxSize src.list.flatten.length, l') ∧
      Adds l l' (src.list.flatten.take maxSize) ∧
      (src.more = true ∨ maxSize < src.list.flatten.length → l'.more = true) := by
  unfold spliceBuffersFrom
  generalize hl1 : (if src.more then
    if src.fallback && src.list.isEmpty then l.setMore.enableFallback else l.setMore
    else l) = l1
  have ha : Adds l l1 [] ∧ (src.more = true → l1.more = true) := by
    subst hl1
    cases src.more with
    | false => exact ⟨Adds.refl l, nofun⟩
    | true =>
      simp only [if_true]
      split
      · exact ⟨(Adds.setMore l).trans (Adds.enableFallback _), fun _ => rfl⟩
      · exact ⟨Adds.setMore l, fun _ => rfl⟩
  obtain ⟨l', hs, ha', hm⟩ := spliceLoop_spec src.list l1 maxSize hne
  refine ⟨l', hs, ha.1.trans ha', ?_⟩
  rintro (h | h)
  · exact ha'.more_mono (ha.2 h)
  · exact hm h

end IstreamBucketList
end BengProxy.Istream
