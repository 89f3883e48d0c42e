import BengProxy.Base.Run
import BengProxy.Istream.ChunkedInvariant
import BengProxy.Istream.DechunkBuckets

/-!
# Chunking by any mix of calls

Whatever the input presents, lists and promises, and whatever the consumer accepts or
consumes, a `ChunkedIstream` emits an encoding of the input.
-/

namespace BengProxy.Istream

open Base Segments Http ChunkedIstream List HttpChunkParser

variable {sub : IstreamBucketList}

namespace ChunkedIstream

variable {format : Nat → List UInt8} {bytes emitted left : List UInt8} {c : ChunkedIstream}

private theorem read_coding (hfo : FormatsHex format) {h : Handler} {a : Nat}
    (hc : Coding format bytes h.received left c) (hd : h.destroyed = false)
    (hav : c.hasInput = true → a ≤ left.length) :
    ∃ b c' h', c.read format h a = (b, c', h') ∧ Coding format bytes h'.received left c' ∧
      h'.accept = h.accept ∧ c'.hasInput = c.hasInput ∧
      (b = true → c'.hasInput = false ∧ c'.buffer = []) ∧
      (¬ h.Refuses bufferSize → c'.buffer = [] ∧ h.received ++ c.buffer <+: h'.received ∧
        (c.hasInput = false → b = true) ∧ (c.hasInput = true → 0 < a → 0 < c'.missing)) := by
  obtain ⟨b, c1, h₁, hse, hc1, -, hi1, ha1, hs, hbl⟩ := sendBuffer_spec h hc hd
  simp only [read, hse]
  cases b with
  | false => exact ⟨false, c1, h₁, rfl, hc1, ha1, hi1, nofun, fun hre => absurd (hbl rfl) hre⟩
  | true =>
    obtain ⟨hb1, hd1, hr1⟩ := hs rfl
    rw [← hi1, ← hr1]
    cases hi : c1.hasInput with
    | false =>
      exact ⟨true, c1, h₁, by simp only [hi]; rfl, hc1, ha1, hi, fun _ => ⟨hi, hb1⟩,
        fun _ => ⟨hb1, prefix_refl _, fun _ => rfl, nofun⟩⟩
    | true =>
      simp only [hi]
      by_cases hst : (c1.buffer.isEmpty && c1.missing == 0 && decide (0 < a)) = true
      · rw [if_pos hst]
        simp only [Bool.and_eq_true, beq_iff_eq, decide_eq_true_eq] at hst
        obtain ⟨hc2, hpo⟩ := hc1.start hfo hi hst.1.2 hb1 hst.2
          (hav (hi1.symm.trans hi))
        obtain ⟨b, c3, h₃, hs', hc3, hm3, hi3, ha3, hs3, hbl3⟩ := sendBuffer_spec h₁ hc2 hd1
        simp only [hs']
        refine ⟨false, c3, h₃, rfl, hc3, ha3.trans ha1, hi3.trans hi, nofun, fun hre => ?_⟩
        cases b with
        | false => exact absurd ((hbl3 rfl).mono ha1.symm (Nat.le_refl _)) hre
        | true =>
          obtain ⟨hb3, -, hr3⟩ := hs3 rfl
          exact ⟨hb3, hr3 ▸ prefix_append _ _, nofun, fun _ _ => hm3 ▸ hpo⟩
      · rw [if_neg hst]
        refine ⟨false, c1, h₁, rfl, hc1, ha1, hi, nofun,
          fun _ => ⟨hb1, prefix_refl _, nofun, fun _ hpo => ?_⟩⟩
        rw [hb1] at hst
        simpa [hpo, Nat.pos_iff_ne_zero] using hst

/-- `OnEof` reports the end if the handler accepts the last chunk. -/
theorem onEof_coding {h : Handler} (hc : Coding format bytes h.received [] c)
    (hd : h.destroyed = false) (hin : c.hasInput = true) :
    ∃ b c' h', c.onEof h = some (b, c', h') ∧ Coding format bytes h'.received [] c' ∧
      h'.accept = h.accept ∧ c'.hasInput = false ∧ (b = true → c'.buffer = []) ∧
      (b = false → h.Refuses bufferSize) := by
  obtain ⟨b, c', h', hse, hc', -, hi, hac, hs, hbl⟩ := sendBuffer_spec h (hc.finish hin) hd
  refine ⟨b, c', h', ?_, hc', hac, hi, fun hb => (hs hb).1, hbl⟩
  rw [onEof, hc.appendToBuffer hin, Option.map_some, hse]

/-- The rest of a chunk, as far as it can be listed if the input lists its next `k` bytes,
which are the last ones if `last`. -/
def chunkRest (missing : Nat) (left : List UInt8) (k : Nat) (last : Bool) : List UInt8 :=
  if 0 < missing then
    left.take (min k missing) ++
      if missing ≤ k then crlf ++ if last && left.length == missing then eofChunk else [] else []
  else []

/-- What comes next, as far as it can be listed. -/
def upcoming (c : ChunkedIstream) (left : List UInt8) (k : Nat) (last : Bool) : List UInt8 :=
  c.buffer ++ chunkRest c.missing left k last

theorem upcoming_of_missing_eq_zero (hm : c.missing = 0) (k : Nat) (last : Bool) :
    c.upcoming left k last = c.buffer := by
  simp [upcoming, chunkRest, hm]

private theorem chunkRest_advance {missing k t : Nat} (left : List UInt8) (last : Bool)
    (ht : t < missing)
    (htk : t ≤ k) (hl : missing ≤ left.length) :
    (chunkRest missing left k last).take t = left.take t ∧
      chunkRest (missing - t) (left.drop t) (k - t) last =
        (chunkRest missing left k last).drop t := by
  have hle : t ≤ (left.take (min k missing)).length := by
    rw [length_take]
    omega
  have hmi : min (k - t) (missing - t) = min k missing - t := by omega
  have hla : ((left.drop t).length == missing - t) = (left.length == missing) := by
    rw [length_drop, Bool.eq_iff_iff, beq_iff_eq, beq_iff_eq]
    omega
  have hpo : 0 < missing := by omega
  have hp' : 0 < missing - t := by omega
  simp only [chunkRest, if_pos hpo, if_pos hp']
  constructor
  · rw [take_append_of_le_length hle, take_take, min_eq_left (by omega)]
  · rw [drop_append_of_le_length hle, hmi, ← drop_take, hla]
    by_cases hx : missing ≤ k
    · rw [if_pos hx, if_pos (by omega)]
    · rw [if_neg hx, if_neg (by omega)]

open IstreamBucketList in
private theorem adds_buffer (c : ChunkedIstream) (list : IstreamBucketList) :
    Adds list (if c.buffer.isEmpty then list else list.push c.buffer) c.buffer := by
  cases hb : c.buffer with
  | nil => exact Adds.refl list
  | cons ch buffer => exact Adds.push list _

private theorem not_more_of_splice {l : IstreamBucketList} {n : Nat}
    (h : sub.more = true ∨ n < sub.list.flatten.length → l.more = true) (hl : l.more = false) :
    sub.more = false ∧ ¬ n < sub.list.flatten.length := by
  rw [← Bool.not_eq_true, ← not_or]
  intro hx
  rw [h hx] at hl
  cases hl

open IstreamBucketList in
private theorem listChunk_adds (list : IstreamBucketList) (hli : DechunkIstream.Lists sub left) :
    ∃ out, Adds list (c.listChunk list sub) out ∧
      out <+: c.upcoming left sub.getTotalBufferSize (!sub.more) ∧
      ((c.listChunk list sub).more = false →
        out = c.upcoming left sub.getTotalBufferSize (!sub.more)) := by
  have hb := adds_buffer c list
  have hto : sub.getTotalBufferSize = sub.list.flatten.length := rfl
  rw [hto]
  unfold listChunk
  generalize hl1 : (if c.buffer.isEmpty then list else list.push c.buffer) = l1 at hb ⊢
  by_cases hm : 0 < c.missing
  · simp only [if_pos hm]
    obtain ⟨l2, hs, ha, hmo⟩ := l1.spliceBuffersFrom_spec sub c.missing hli.no_empty
    have ht : sub.list.flatten.take c.missing =
        left.take (min sub.list.flatten.length c.missing) := by
      rw [prefix_iff_eq_take.mp hli.is_prefix, take_take, length_take_of_le
        hli.is_prefix.length_le, Nat.min_comm]
    have hal := hb.trans ha
    rw [ht] at hal
    simp only [hs, upcoming, chunkRest, if_pos hm]
    by_cases hfu : c.missing ≤ sub.list.flatten.length
    · simp only [Nat.le_min.mpr ⟨le_rfl, hfu⟩, if_pos hfu]
      cases hm2 : l2.more with
      | true =>
        simp only [if_true]
        refine ⟨_, hal.trans (Adds.push l2 crlf), ?_, ?_⟩
        · simp only [append_assoc, prefix_append_right_inj]
          exact prefix_append _ _
        · intro hc
          rw [(Adds.push l2 crlf).more_mono hm2] at hc
          cases hc
      | false =>
        -- the input is complete, and ends with this chunk
        have hc := not_more_of_splice hmo hm2
        have hle : left.length = c.missing := by
          rw [← hli.complete hc.1]
          omega
        have he : (!sub.more && left.length == c.missing) = true := by
          rw [hc.1, hle]
          simp
        simp only [he]
        rw [← append_assoc c.buffer]
        exact ⟨_, hal.trans (Adds.push l2 (crlf ++ eofChunk)), prefix_refl _, fun _ => rfl⟩
    · have hsh : ¬ c.missing ≤ min c.missing sub.list.flatten.length := by omega
      simp only [if_neg hsh, if_neg hfu, append_nil]
      exact ⟨_, hal, prefix_refl _, fun _ => rfl⟩
  · have hm0 : c.missing = 0 := by omega
    rw [if_neg hm, upcoming_of_missing_eq_zero hm0]
    refine ⟨c.buffer, ?_, prefix_refl _, fun _ => rfl⟩
    have hse := hb.trans (Adds.setMore l1)
    rw [append_nil] at hse
    split
    · split
      · have hfb := hse.trans (Adds.enableFallback _)
        rwa [append_nil] at hfb
      · exact hse
    · split
      · exact hse
      · exact hb

private theorem startNewChunk_coding (hfo : FormatsHex format)
    {a : Nat} (hc : Coding format bytes emitted left c)
    (hsu : sub.getTotalBufferSize ≤ left.length) (hav : a ≤ left.length) :
    Coding format bytes emitted left (c.startNewChunk format sub a) := by
  unfold startNewChunk
  by_cases hi : (c.buffer.isEmpty && c.missing == 0 && c.hasInput) = true
  · rw [if_pos hi]
    simp only [Bool.and_eq_true, List.isEmpty_iff, beq_iff_eq] at hi
    generalize hma : (if a < sub.getTotalBufferSize then sub.getTotalBufferSize
      else a) = n
    have hn : n ≤ left.length := by
      split at hma <;> omega
    by_cases hpo : 0 < n
    · simp only [if_pos hpo]
      exact (hc.start hfo hi.2 hi.1.2 hi.1.1 hpo hn).1
    · simp only [if_neg hpo]
      exact hc
  · rw [if_neg hi]
    exact hc

/-- What can be listed is all that will be emitted: the input has ended, or it lists the rest of a
chunk, which is its end. -/
def Complete (c : ChunkedIstream) (left : List UInt8) (k : Nat) (last : Bool) : Prop :=
  c.hasInput = false ∨ 0 < c.missing ∧ left.length = c.missing ∧ c.missing ≤ k ∧ last = true

open IstreamBucketList in
private theorem listChunk_complete (list : IstreamBucketList) (hli : DechunkIstream.Lists sub left)
    (hmi : c.missing ≤ left.length) (hne : ¬ (sub.list.isEmpty && !sub.more) = true)
    (hmo : (c.listChunk list sub).more = false) :
    c.Complete left sub.getTotalBufferSize (!sub.more) := by
  unfold listChunk at hmo
  generalize (if c.buffer.isEmpty then list else list.push c.buffer) = l1 at hmo
  by_cases hm : 0 < c.missing
  · obtain ⟨l2, hs, -, hm2⟩ := l1.spliceBuffersFrom_spec sub c.missing hli.no_empty
    have hl2 : l2.more = false := by
      by_contra hx
      rw [Bool.not_eq_false] at hx
      simp only [if_pos hm, hs] at hmo
      split at hmo
      · rw [(Adds.push l2 _).more_mono hx] at hmo
        cases hmo
      · exact absurd hmo (by rw [hx]; decide)
    obtain ⟨hsu, hle⟩ := not_more_of_splice hm2 hl2
    have hto : sub.getTotalBufferSize = left.length := congrArg length (hli.complete hsu)
    rw [hli.complete hsu] at hle
    exact .inr ⟨hm, by omega, by omega, by rw [hsu]; rfl⟩
  · rw [if_neg hm] at hmo
    split at hmo
    · split at hmo <;> cases hmo
    · split at hmo
      · cases hmo
      next hx he => simp_all

/-- A chunk does not need more than the input has. -/
theorem Coding.missing_le_length (hc : Coding format bytes emitted left c) :
    c.missing ≤ left.length := by
  cases hc.phase with
  | between _ _ _ hm | ending _ _ _ hm =>
    rw [hm]
    exact Nat.zero_le _
  | inside _ _ _ _ _ hl => exact hl

/-- After the end of the input, there is no chunk and nothing left. -/
theorem Coding.of_not_hasInput (hc : Coding format bytes emitted left c)
    (hin : c.hasInput = false) : c.missing = 0 ∧ left = [] := by
  cases hc.phase with
  | between _ _ hi | inside _ _ _ hi =>
    rw [hin] at hi
    cases hi
  | ending _ _ _ hm hl => exact ⟨hm, hl⟩

private theorem fillBucketList_coding (hfo : FormatsHex format) (list : IstreamBucketList)
    {a : Nat} (hc : Coding format bytes emitted left c)
    (hli : c.hasInput = true → DechunkIstream.Lists sub left)
    (hv : c.hasInput = true → a ≤ left.length) :
    ∃ c' list' out, c.fillBucketList format list sub a = some (c', list') ∧
      Coding format bytes emitted left c' ∧ IstreamBucketList.Adds list list' out ∧
      out <+: c'.upcoming left sub.getTotalBufferSize (!sub.more) ∧
      (list'.more = false → out = c'.upcoming left sub.getTotalBufferSize (!sub.more) ∧
        c'.Complete left sub.getTotalBufferSize (!sub.more)) := by
  cases hin : c.hasInput with
  | false =>
    obtain ⟨hm, -⟩ := hc.of_not_hasInput hin
    refine ⟨c, _, c.buffer, by rw [fillBucketList, hin]; rfl, hc, adds_buffer c list, ?_, ?_⟩
    · rw [upcoming_of_missing_eq_zero hm]
    · intro _
      rw [upcoming_of_missing_eq_zero hm]
      exact ⟨rfl, .inl hin⟩
  | true =>
    have hsu := hli hin
    have hav := hv hin
    by_cases he : (sub.list.isEmpty && !sub.more) = true
    · -- the input has ended
      rw [Bool.and_eq_true, List.isEmpty_iff, Bool.not_eq_true'] at he
      have hl : left = [] := by rw [← hsu.complete he.2, he.1]; rfl
      subst hl
      have hc' := startNewChunk_coding hfo (hc.finish hin) hsu.is_prefix.length_le hav
      obtain ⟨out, ha, hpr, hal⟩ := listChunk_adds list hsu
      refine ⟨_, _, out, ?_, hc', ha, hpr, fun hm => ⟨hal hm, .inl ?_⟩⟩
      · rw [fillBucketList, hin, he.1, he.2]
        simp only [Bool.not_true, Bool.false_eq_true, if_false, isEmpty_nil, Bool.not_false,
          Bool.and_self, if_true, hc.appendToBuffer hin, Option.map_some]
      · simp [startNewChunk]
    · have hc' := startNewChunk_coding hfo hc hsu.is_prefix.length_le hav
      obtain ⟨out, ha, hpr, hal⟩ := listChunk_adds list hsu
      refine ⟨_, _, out, ?_, hc', ha, hpr,
        fun hm => ⟨hal hm, listChunk_complete list hsu hc'.missing_le_length he hm⟩⟩
      rw [fillBucketList, hin]
      simp only [Bool.not_true, Bool.false_eq_true, if_false, he, Option.map_some]

/-- An input that lists its next `k` bytes, which are the last ones if `last`. -/
def inputConsume (left : List UInt8) (k : Nat) (last : Bool) (size : Nat) :
    ConsumeBucketResult where
  consumed := min size k
  eof := last && min size k == left.length

private theorem Coding.closeChunk (hc : Coding format bytes emitted left c)
    (hb : c.buffer = [])
    (hpo : 0 < c.missing) (eof : Bool) (he : eof = true → left.length = c.missing) :
    Coding format bytes (emitted ++ left.take c.missing) (left.drop c.missing) {
      missing := 0
      hasInput := if eof then false else c.hasInput
      buffer := if (if eof then false else c.hasInput) then crlf else crlf ++ eofChunk } := by
  have hin : c.hasInput = true := by
    cases hc.phase with
    | between _ _ hi | inside _ _ _ hi => exact hi
    | ending _ _ _ hm =>
      rw [hm] at hpo
      exact absurd hpo (lt_irrefl 0)
  have hd := hc.data hb hpo (le_refl c.missing)
  rw [Nat.sub_self] at hd
  cases eof with
  | false =>
    simp only [hin]
    rwa [hin] at hd
  | true =>
    have hni : left.drop c.missing = [] := drop_eq_nil_of_le (le_of_eq (he rfl))
    rw [hni] at hd ⊢
    exact hd.finish hin

private theorem consumeInput_coding (k : Nat) (last : Bool)
    (hc : Coding format bytes emitted left c)
    {n : Nat} (hbu : 0 < n → c.buffer = []) :
    ∃ more taken c', c.consumeInput n (inputConsume left k last) = (more, taken, c') ∧
      more = min n (chunkRest c.missing left k last).length ∧ taken ≤ k ∧
      Coding format bytes (emitted ++ (chunkRest c.missing left k last).take more)
        (left.drop taken) c' ∧
      c'.upcoming (left.drop taken) (k - taken) last =
        c.buffer ++ (chunkRest c.missing left k last).drop more := by
  by_cases hs : 0 < min n c.missing
  · have hpo : 0 < c.missing := by omega
    have hb := hbu (by omega)
    have hi : c.missing ≤ left.length ∧ c.hasInput = true := by
      cases hc.phase with
      | between _ _ _ hm | ending _ _ _ hm => omega
      | inside _ _ _ hin _ hl => exact ⟨hl, hin⟩
    obtain ⟨t, eof, hr, ht, he⟩ : ∃ t eof,
        inputConsume left k last (min n c.missing) = ⟨t, eof⟩ ∧ t = min (min n c.missing) k ∧
          eof = (last && t == left.length) := ⟨_, _, rfl, rfl, rfl⟩
    simp only [consumeInput, if_pos hs, hr, hb, nil_append]
    by_cases hd : c.missing - t = 0
    · -- the chunk is complete
      have htm : t = c.missing := by omega
      subst htm
      have hcl := hc.closeChunk hb hpo eof (by
        intro htr
        rw [htr, eq_comm, Bool.and_eq_true, beq_iff_eq] at he
        exact he.2.symm)
      have hre : chunkRest c.missing left k last = left.take c.missing ++
          (if (if eof then false else c.hasInput) then crlf else crlf ++ eofChunk) := by
        have hfu : c.missing ≤ k := by omega
        rw [chunkRest, if_pos hpo, if_pos hfu, min_eq_right hfu, hi.2, he, BEq.comm]
        cases last && c.missing == left.length
        · simp
        · simp
      have hle : (left.take c.missing).length = c.missing := length_take_of_le hi.1
      rw [if_pos hd, hre]
      generalize (if (if eof then false else c.hasInput) then crlf else crlf ++ eofChunk) = buffer
        at hcl ⊢
      simp only [consumeBuffer]
      have hem := hcl.emit (min (n - c.missing) buffer.length)
      refine ⟨_, _, _, rfl, ?_, by omega, ?_, ?_⟩
      · rw [length_append]
        omega
      · rwa [take_append, take_of_length_le (by omega), hle, Nat.add_sub_cancel_left,
          ← append_assoc]
      · have hg : (left.take c.missing).drop (c.missing + min (n - c.missing) buffer.length) =
            [] := drop_eq_nil_of_le (by omega)
        rw [upcoming_of_missing_eq_zero rfl, drop_append, hg, hle, Nat.add_sub_cancel_left,
          nil_append]
    · have hlt : t < c.missing := by omega
      obtain ⟨hta, hdr⟩ := chunkRest_advance left last hlt (k := k) (by omega) hi.1
      have hda := hc.data hb hpo (le_of_lt hlt)
      rw [if_neg hd, hb] at hda
      have hn : eof = false := by
        have hne : ¬ t = left.length := by omega
        rw [he, beq_false_of_ne hne, Bool.and_false]
      have hmo : t = min n (chunkRest c.missing left k last).length := by
        simp only [chunkRest, if_pos hpo, length_append, length_take]
        by_cases hfu : c.missing ≤ k
        · omega
        · rw [if_neg hfu, length_nil]
          omega
      simp only [if_neg hd, hn, Bool.false_eq_true]
      refine ⟨t, t, _, rfl, hmo, by omega, ?_, ?_⟩
      · rw [hta]
        exact hda
      · rw [← hdr, upcoming, nil_append]
  · -- nothing is taken from the input
    refine ⟨0, 0, c, by rw [consumeInput, if_neg hs], ?_, Nat.zero_le _, ?_, ?_⟩
    · have ho : n = 0 ∨ c.missing = 0 := by omega
      rcases ho with rfl | hm
      · rw [Nat.zero_min]
      · simp [chunkRest, hm]
    · rwa [take_zero, append_nil]
    · rw [drop_zero, drop_zero, Nat.sub_zero, upcoming]

/-- `_ConsumeBucketList` consumes what comes next. -/
theorem consumeBucketList_coding (k : Nat) (last : Bool)
    (hc : Coding format bytes emitted left c) (n : Nat) :
    ∃ total eof taken c', c.consumeBucketList n (inputConsume left k last) =
        (⟨total, eof⟩, taken, c') ∧
      total = min n (c.upcoming left k last).length ∧ taken ≤ k ∧
      Coding format bytes (emitted ++ (c.upcoming left k last).take total) (left.drop taken) c' ∧
      c'.upcoming (left.drop taken) (k - taken) last = (c.upcoming left k last).drop total ∧
      eof = (c'.missing == 0 && c'.buffer.isEmpty && !c'.hasInput) := by
  generalize hs : min n c.buffer.length = size
  have hc1 := hc.emit size
  obtain ⟨more, taken, c', hca, hm, ht, hc', hu⟩ :=
    consumeInput_coding k last hc1 (n := n - size) (by
      intro hpo
      apply drop_eq_nil_of_le
      omega)
  simp only at hm hc' hu
  -- either the buffer is used up, or nothing behind it is consumed
  have hsp : (c.upcoming left k last).take (size + more) =
        c.buffer.take size ++ (chunkRest c.missing left k last).take more ∧
      (c.upcoming left k last).drop (size + more) =
        c.buffer.drop size ++ (chunkRest c.missing left k last).drop more := by
    rw [upcoming]
    by_cases hle : n ≤ c.buffer.length
    · obtain rfl : more = 0 := by omega
      have hl' : size + 0 ≤ c.buffer.length := by omega
      rw [take_append_of_le_length hl', drop_append_of_le_length hl']
      simp
    obtain rfl : size = c.buffer.length := by omega
    rw [take_append, drop_append, Nat.add_sub_cancel_left]
    constructor <;> congr 1
    · rw [take_of_length_le (by omega), take_length]
    · rw [drop_eq_nil_of_le (by omega), drop_length]
  refine ⟨size + more, c'.missing == 0 && c'.buffer.isEmpty && !c'.hasInput, taken, c', ?_, ?_,
    ht, ?_, ?_, rfl⟩
  · simp only [consumeBucketList, consumeBuffer, hs]
    rw [hca]
  · rw [upcoming, length_append]
    omega
  · rw [hsp.1, ← append_assoc]
    exact hc'
  · rw [hsp.2]
    exact hu

private theorem consumeInput_complete {k n more taken : Nat} {last : Bool} {c' : ChunkedIstream}
    (hc : c.Complete left k last)
    (hca : c.consumeInput n (inputConsume left k last) = (more, taken, c')) :
    c'.Complete (left.drop taken) (k - taken) last := by
  unfold consumeInput inputConsume at hca
  by_cases hs : 0 < min n c.missing
  · rw [if_pos hs] at hca
    simp only at hca
    split at hca
    all_goals cases hca
    · left
      rcases hc with hin | ⟨-, hle, hk, hla⟩
      · simp [consumeBuffer, hin]
      · have ht : min (min n c.missing) k = left.length := by omega
        simp [consumeBuffer, hla, ht]
    · rcases hc with hin | ⟨-, hle, hk, hla⟩
      · left
        simp [hin]
      · refine .inr ⟨?_, by rw [length_drop, hle], ?_, hla⟩
        all_goals
          simp only
          omega
  · rw [if_neg hs] at hca
    cases hca
    exact hc

private theorem consumeBucketList_complete {k n taken : Nat} {last : Bool} {c' : ChunkedIstream}
    {r : ConsumeBucketResult} (hc : c.Complete left k last)
    (hca : c.consumeBucketList n (inputConsume left k last) = (r, taken, c')) :
    c'.Complete (left.drop taken) (k - taken) last := by
  have hb : Complete (c.consumeBuffer n).2 left k last := hc
  rcases hi : (c.consumeBuffer n).2.consumeInput (n - (c.consumeBuffer n).1)
    (inputConsume left k last) with ⟨more, taken', c''⟩
  simp only [consumeBucketList, hi] at hca
  cases hca
  exact consumeInput_complete hb hi

private theorem Complete.end {k : Nat} {last : Bool} (h : c.Complete left k last)
    (hc : Coding format bytes emitted left c) (hu : c.upcoming left k last = []) :
    (c.missing == 0 && c.buffer.isEmpty && !c.hasInput) = true := by
  obtain ⟨hb, hr⟩ := append_eq_nil_iff.mp hu
  rcases h with hin | ⟨hpo, -, hk, -⟩
  · simp [hc.of_not_hasInput hin, hb, hin]
  · simp [chunkRest, hpo, hk, crlf] at hr

end ChunkedIstream

/-- A call: data or the end from the input, or `_Read`, `_FillBucketList` or
`_ConsumeBucketList` by the consumer, with what the input promises and lists. -/
inductive ChunkedCall where
  | onData (src : List UInt8)
  | onEof
  | read (available : Nat)
  | fillBucketList (list sub : IstreamBucketList) (available : Nat)
  | consumeBucketList (nbytes : Nat)

/-- A stream in use: its handler, the rest of the input, whether the end was reported, how
many bytes the input has listed and whether they are its last ones, and the bytes that are
listed but not yet consumed, with the flag `more` of that list. -/
structure Chunking where
  stream : ChunkedIstream := {}
  handler : Handler
  left : List UInt8
  ended : Bool := false
  inputListed : Nat := 0
  inputLast : Bool := false
  listed : List UInt8 := []
  more : Bool := true

namespace Chunking

/-- The state after a call of the input or of `_Read`, which makes all lists stale. -/
def record (s : Chunking) (stream : ChunkedIstream) (handler : Handler) (consumed : Nat)
    (ended : Bool) : Chunking where
  stream
  handler
  left := s.left.drop consumed
  ended

/-- The state after `_FillBucketList`. -/
def recordFill (s : Chunking) (stream : ChunkedIstream) (list list' sub : IstreamBucketList) :
    Chunking :=
  { s with
    stream
    inputListed := sub.getTotalBufferSize
    inputLast := !sub.more
    listed := (list'.list.drop list.list.length).flatten
    more := list'.more }

/-- The state after `_ConsumeBucketList`, which takes `taken` bytes from the input. -/
def recordConsume (s : Chunking) (result : ConsumeBucketResult) (taken : Nat)
    (stream : ChunkedIstream) : Chunking :=
  { s with
    stream
    handler := { s.handler with
      received := s.handler.received ++ s.listed.take result.consumed }
    left := s.left.drop taken
    ended := result.eof
    inputListed := s.inputListed - taken
    listed := s.listed.drop result.consumed }

/-- The state after a call. -/
def apply (format : Nat → List UInt8) (s : Chunking) : ChunkedCall → Option Chunking
  | .onData src => (s.stream.onData format s.handler src).map fun (n, c, h) => s.record c h n false
  | .onEof => (s.stream.onEof s.handler).map fun (ended, c, h) => s.record c h 0 ended
  | .read available =>
    let (ended, c, h) := s.stream.read format s.handler available
    some (s.record c h 0 ended)
  | .fillBucketList list sub available =>
    (s.stream.fillBucketList format list sub available).map fun (c, list') =>
      s.recordFill c list list' sub
  | .consumeBucketList nbytes =>
    let (result, taken, c) := s.stream.consumeBucketList nbytes
      (inputConsume s.left s.inputListed s.inputLast)
    some (s.recordConsume result taken c)

/-- What the input and the consumer guarantee. The input presents and lists its next bytes, and
promises no more than there are; more than was listed is consumed only if `more` is clear. -/
def Allowed (s : Chunking) : ChunkedCall → Prop
  | .onData src => s.stream.hasInput = true ∧ src ≠ [] ∧ src <+: s.left
  | .onEof => s.stream.hasInput = true ∧ s.left = []
  | .read available => s.stream.hasInput = true → available ≤ s.left.length
  | .fillBucketList _ sub available =>
    s.stream.hasInput = true → DechunkIstream.Lists sub s.left ∧ available ≤ s.left.length
  | .consumeBucketList nbytes => nbytes ≤ s.listed.length ∨ s.more = false

/-- A call on a stream that was neither destroyed nor has ended. -/
def Step (format : Nat → List UInt8) (s : Chunking) (call : ChunkedCall) (s' : Chunking) : Prop :=
  s.handler.destroyed = false ∧ s.ended = false ∧ s.Allowed call ∧ s.apply format call = some s'

/-- What holds in a run; `left` is the rest of the input, also if the stream was destroyed in a
call of `OnData`. -/
structure Inv (format : Nat → List UInt8) (bytes : List UInt8) (s : Chunking)
    (left : List UInt8) : Prop where
  coding : s.stream.Coding format bytes s.handler.received left
  left_eq : s.handler.destroyed = false → s.left = left
  listed_eq : s.handler.destroyed = false →
    s.listed <+: s.stream.upcoming left s.inputListed s.inputLast ∧
      (s.more = false → s.listed = s.stream.upcoming left s.inputListed s.inputLast)
  complete : s.handler.destroyed = false → s.more = false →
    s.stream.Complete left s.inputListed s.inputLast
  ended_eq : s.ended = true → s.stream.hasInput = false ∧ s.stream.buffer = []

variable {format : Nat → List UInt8} {bytes left : List UInt8} {s : Chunking}

/-- A call that makes all lists stale. -/
theorem Inv.record {c : ChunkedIstream} {h : Handler} {n : Nat} {ended : Bool}
    (hc : c.Coding format bytes h.received left)
    (hl : h.destroyed = false → s.left.drop n = left)
    (he : ended = true → c.hasInput = false ∧ c.buffer = []) :
    Inv format bytes (s.record c h n ended) left where
  coding := hc
  left_eq := hl
  listed_eq _ := ⟨List.nil_prefix, nofun⟩
  complete _ := nofun
  ended_eq := he

/-- Every allowed call returns and keeps the invariant. -/
theorem Inv.step (h : Inv format bytes s left) (hfo : FormatsHex format)
    (ha : s.handler.destroyed = false) (hen : s.ended = false) {call : ChunkedCall}
    (hal : s.Allowed call) :
    ∃ s' left', s.apply format call = some s' ∧ Inv format bytes s' left' ∧
      s'.handler.accept = s.handler.accept := by
  have hl := h.left_eq ha
  subst hl
  cases call with
  | onData src =>
    obtain ⟨hin, hne, more, hmo⟩ := hal
    have hc := h.coding
    rw [← hmo] at hc
    obtain ⟨n, c, hd, hca, hn, hc', hac, -, -⟩ := onData_coding hfo hc ha hin hne
    refine ⟨s.record c hd (if hd.destroyed then 0 else n) false, _, by rw [apply, hca]; rfl,
      Inv.record hc' ?_ nofun, hac⟩
    intro hnd
    rw [hnd, ← hmo]
    exact drop_append_of_le_length hn
  | onEof =>
    obtain ⟨hin, hni⟩ := hal
    have hc := h.coding
    rw [hni] at hc
    obtain ⟨b, c, hd, hca, hc', hac, hi, hb, -⟩ := onEof_coding hc ha hin
    refine ⟨_, _, by rw [apply, hca]; rfl, Inv.record hc' ?_ (fun he => ⟨hi, hb he⟩), hac⟩
    intro _
    rw [hni]
    rfl
  | read available =>
    obtain ⟨b, c, hd, hca, hc', hac, -, hb, -⟩ := read_coding hfo h.coding ha hal
    exact ⟨_, _, by rw [apply, hca], Inv.record hc' (fun _ => rfl) hb, hac⟩
  | fillBucketList list sub available =>
    obtain ⟨c, list', out, hca, hc', had, hpr, hall⟩ :=
      fillBucketList_coding hfo list h.coding
        (fun hi => (hal hi).1) (fun hi => (hal hi).2)
    refine ⟨s.recordFill c list list' sub, s.left, by rw [apply, hca]; rfl,
      ⟨hc', fun _ => rfl, fun _ => ⟨?_, ?_⟩, fun _ hm => (hall hm).2, ?_⟩, rfl⟩
    · exact had.added.trans hpr
    · intro hm
      exact (had.complete hm).trans (hall hm).1
    · intro he
      rw [show s.ended = true from he] at hen
      cases hen
  | consumeBucketList n =>
    obtain ⟨hpr, hall⟩ := h.listed_eq ha
    obtain ⟨total, eof, taken, c, hca, hto, -, hc', hu, heo⟩ :=
      consumeBucketList_coding s.inputListed s.inputLast h.coding n
    -- what is consumed was listed
    have ht : (s.stream.upcoming s.left s.inputListed s.inputLast).take total =
        s.listed.take total := by
      rcases hal with hle | hm
      · obtain ⟨rest, hr⟩ := hpr
        rw [← hr, take_append_of_le_length (by omega)]
      · rw [hall hm]
    rw [ht] at hc'
    refine ⟨s.recordConsume ⟨total, eof⟩ taken c, s.left.drop taken, by rw [apply, hca],
      ⟨hc', fun _ => rfl, fun _ => ⟨?_, ?_⟩,
        fun _ hm => consumeBucketList_complete (h.complete ha hm) hca, ?_⟩, rfl⟩
    · show s.listed.drop total <+:
        c.upcoming (s.left.drop taken) (s.inputListed - taken) s.inputLast
      rw [hu]
      exact hpr.drop total
    · intro hm
      show s.listed.drop total = c.upcoming (s.left.drop taken) (s.inputListed - taken) s.inputLast
      rw [hu, hall hm]
    · intro he
      rw [show eof = true from he, eq_comm] at heo
      simp only [Bool.and_eq_true, List.isEmpty_iff, Bool.not_eq_true'] at heo
      exact ⟨heo.2, heo.1.2⟩

/-- Listed bytes are consumed, and with the last ones of a list without `more` the end is
reported. -/
theorem Inv.consume (h : Inv format bytes s left) (ha : s.handler.destroyed = false) {n : Nat}
    (hn : n ≤ s.listed.length) :
    ∃ s', s.apply format (.consumeBucketList n) = some s' ∧
      s'.handler.received = s.handler.received ++ s.listed.take n ∧
      s'.listed = s.listed.drop n ∧
      (s.more = false → n = s.listed.length → s'.ended = true) := by
  have hl := h.left_eq ha
  subst hl
  obtain ⟨hpr, hall⟩ := h.listed_eq ha
  obtain ⟨total, eof, taken, c, hca, hto, -, hc', hu, heo⟩ :=
    consumeBucketList_coding s.inputListed s.inputLast h.coding n
  obtain rfl : total = n := by
    have := hpr.length_le
    omega
  refine ⟨s.recordConsume ⟨total, eof⟩ taken c, by rw [apply, hca], rfl, rfl, fun hm hn => ?_⟩
  show eof = true
  rw [heo]
  apply (consumeBucketList_complete (h.complete ha hm) hca).end hc'
  rw [hu, ← hall hm, hn, drop_length]

/-- The invariant holds in every state of a run. -/
theorem Inv.of_run {accept : Nat → Option Nat} {calls : List ChunkedCall} (hfo : FormatsHex format)
    (h : Run (Step format) { handler := { accept }, left := bytes } calls s) :
    (∃ left, Inv format bytes s left) ∧ s.handler.accept = accept := by
  apply h.invariant (P := fun s => (∃ left, Inv format bytes s left) ∧ s.handler.accept = accept)
  · exact ⟨⟨bytes, ChunkedIstream.Coding.new format bytes, fun _ => rfl,
      fun _ => ⟨List.nil_prefix, nofun⟩, fun _ => nofun, nofun⟩, rfl⟩
  · intro s call s' hi hst
    obtain ⟨⟨left, hi⟩, hac⟩ := hi
    obtain ⟨hal, hen, ha, hs⟩ := hst
    obtain ⟨s'', left', hs', hi', ha'⟩ := hi.step hfo hal hen ha
    rw [hs] at hs'
    cases hs'
    exact ⟨⟨left', hi'⟩, ha'.trans hac⟩

end Chunking

/-- A byte string is chunked by any mix of calls. The buffer never overflows, and what was
emitted is the beginning of an encoding: chunks of at most 0x8000 bytes and one last chunk.
When the end is reported, it is a complete encoding, which the parser decodes to the byte string
and whose end is the end of the body. Every further call returns, and listed bytes can be consumed,
up to the end of the stream if `more` was clear. If the handler accepts everything, then `_Read`
sends what is in the buffer and a header for the bytes that are promised, `OnData` consumes its
input, and `OnEof` reports the end. -/
theorem chunked_decodes {format : Nat → List UInt8} (hfo : FormatsHex format)
    {bytes : List UInt8} {accept : Nat → Option Nat} {calls : List ChunkedCall} {s : Chunking}
    (h : Run (Chunking.Step format) { handler := { accept }, left := bytes } calls s) :
    s.stream.buffer.length ≤ bufferSize ∧
    (∃ encoded, Encodes format maxChunkSize encoded bytes ∧ s.handler.received <+: encoded) ∧
    (s.ended = true → Encodes format maxChunkSize s.handler.received bytes ∧
      decode s.handler.received = some (.ok (bytes, []))) ∧
    (s.handler.destroyed = false → s.ended = false →
      (∀ call, s.Allowed call → ∃ s', Chunking.Step format s call s') ∧
      (∀ n ≤ s.listed.length, ∃ s', Chunking.Step format s (.consumeBucketList n) s' ∧
        s'.handler.received = s.handler.received ++ s.listed.take n ∧
        s'.listed = s.listed.drop n ∧
        (s.more = false → n = s.listed.length → s'.ended = true)) ∧
      (¬ s.handler.Refuses (s.left.length + bufferSize) → ∀ s',
        (∀ available, Chunking.Step format s (.read available) s' → s'.stream.buffer = [] ∧
          s.handler.received ++ s.stream.buffer <+: s'.handler.received ∧
          (s.stream.hasInput = false → s'.ended = true) ∧
          (s.stream.hasInput = true → 0 < available → 0 < s'.stream.missing)) ∧
        (Chunking.Step format s (.onData s.left) s' → s'.left = []) ∧
        (Chunking.Step format s .onEof s' → s'.ended = true))) := by
  obtain ⟨⟨left, hi⟩, -⟩ := Chunking.Inv.of_run hfo h
  refine ⟨hi.coding.buffer_le, hi.coding.exists_encodes, ?_, ?_⟩
  · intro he
    obtain ⟨hin, hb⟩ := hi.ended_eq he
    have hen := hi.coding.encodes hin hb
    refine ⟨hen, ?_⟩
    have hde := decode_of_body (hen.chunkedBody hfo (by decide)) []
    rwa [append_nil] at hde
  · intro hal he
    refine ⟨fun call hallo => ?_, fun n hn => ?_,
      fun hre s' => ⟨fun available hst => ?_, fun hst => ?_, fun hst => ?_⟩⟩
    · obtain ⟨s', -, hs, -, -⟩ := hi.step hfo hal he hallo
      exact ⟨s', hal, he, hallo, hs⟩
    · obtain ⟨s', hs, hco⟩ := hi.consume hal hn
      exact ⟨s', ⟨hal, he, .inl hn, hs⟩, hco⟩
    · obtain ⟨-, -, hav, hs⟩ := hst
      have hc := hi.coding
      rw [← hi.left_eq hal] at hc
      obtain ⟨b, c, hd, hca, -, -, -, -, hfl⟩ := read_coding hfo hc hal hav
      rw [Chunking.apply, hca] at hs
      cases hs
      exact hfl fun hx => hre (hx.mono rfl (Nat.le_add_left _ _))
    · obtain ⟨-, -, ⟨hinput, hne, -⟩, hs⟩ := hst
      have hc := hi.coding
      rw [← hi.left_eq hal, ← append_nil s.left] at hc
      obtain ⟨n, c, hd, hca, hn, -, -, -, hall⟩ := onData_coding hfo hc hal hinput hne
      have hfu : ¬ (n < s.left.length ∨ hd.destroyed = true) := fun hx => hre (hall hx)
      rw [not_or, Bool.not_eq_true] at hfu
      rw [Chunking.apply, hca, hfu.2] at hs
      cases hs
      exact drop_eq_nil_of_le (not_lt.mp hfu.1)
    · obtain ⟨-, -, ⟨hinput, hni⟩, hs⟩ := hst
      have hc := hi.coding
      rw [← hi.left_eq hal, hni] at hc
      obtain ⟨b, c, hd, hca, -, -, -, -, hbl⟩ := onEof_coding hc hal hinput
      rw [Chunking.apply, hca] at hs
      cases hs
      cases b with
      | true => rfl
      | false => exact absurd ((hbl rfl).mono rfl (Nat.le_add_left _ _)) hre

/-- A header is sent by `_Read`, and the rest is listed and consumed: the first chunk, and then the
second one with the end. -/
theorem chunked_decodes_sample :
    let first : IstreamBucketList := { list := [[97, 98]] }
    let second : IstreamBucketList := { list := [[98]] }
    let calls : List ChunkedCall := [.read 1, .fillBucketList {} first 2, .consumeBucketList 3,
      .fillBucketList {} second 1]
    ∃ s s', Run (Chunking.Step hexFormat)
        { handler := { accept := fun _ => some 9 }, left := [97, 98] } calls s ∧
      s.listed.length = 14 ∧ Chunking.Step hexFormat s (.consumeBucketList 14) s' ∧
      s'.ended = true ∧ decode s'.handler.received = some (.ok ([97, 98], [])) := by
  intro first second calls
  have hfi : DechunkIstream.Lists first [97, 98] :=
    ⟨show ∀ b ∈ first.list, b ≠ [] by decide, prefix_refl _, fun _ => rfl⟩
  have hse : DechunkIstream.Lists second [98] :=
    ⟨show ∀ b ∈ second.list, b ≠ [] by decide, prefix_refl _, fun _ => rfl⟩
  let h : Handler := { accept := fun _ => some 9 }
  let h1 : Handler := { h with calls := 1, received := chunkHeader hexFormat 1 }
  let s1 : Chunking := { stream := { missing := 1 }, handler := h1, left := [97, 98] }
  let s2 : Chunking := { s1 with inputListed := 2, inputLast := true, listed := 97 :: crlf }
  let h3 : Handler := { h with calls := 1, received := chunkHeader hexFormat 1 ++ 97 :: crlf }
  let s3 : Chunking := { handler := h3, left := [98], inputListed := 1, inputLast := true }
  let c4 : ChunkedIstream := { missing := 1, buffer := chunkHeader hexFormat 1 }
  let s4 : Chunking := { s3 with stream := c4, listed := c4.buffer ++ 98 :: (crlf ++ eofChunk),
                                 more := false }
  have st1 : Chunking.Step hexFormat { handler := h, left := [97, 98] } (.read 1) s1 :=
    ⟨rfl, rfl, fun _ => by decide, rfl⟩
  have st2 : Chunking.Step hexFormat s1 (.fillBucketList {} first 2) s2 :=
    ⟨rfl, rfl, fun _ => ⟨hfi, by decide⟩, rfl⟩
  have st3 : Chunking.Step hexFormat s2 (.consumeBucketList 3) s3 :=
    ⟨rfl, rfl, .inl (by decide), rfl⟩
  have st4 : Chunking.Step hexFormat s3 (.fillBucketList {} second 1) s4 :=
    ⟨rfl, rfl, fun _ => ⟨hse, by decide⟩, rfl⟩
  have hru := (((Run.nil.snoc st1).snoc st2).snoc st3).snoc st4
  obtain ⟨-, hco, -⟩ := (chunked_decodes formatsHex_hexFormat hru).2.2.2 rfl rfl
  obtain ⟨s', hst, -, -, hen⟩ := hco 14 (by decide)
  have he := hen rfl rfl
  exact ⟨s4, s', hru, rfl, hst, he,
    ((chunked_decodes formatsHex_hexFormat (hru.snoc hst)).2.2.1 he).2⟩

end BengProxy.Istream
