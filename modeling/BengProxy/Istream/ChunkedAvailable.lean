import BengProxy.Istream.ChunkedExchange

/-!
# The length of a chunked body

What `ChunkedIstream::_GetAvailable`, `src/istream/ChunkedIstream.cxx`, promises, compared with what
the stream emits. The promise is made for one more chunk behind the current one, whatever the length
of the rest of the input is, and however the input delivers it.
-/

namespace BengProxy.Istream

open Base Http ChunkedIstream List Option

variable {emitted : List UInt8}

namespace ChunkedIstream

variable {format : Nat → List UInt8} {c c' : ChunkedIstream} {h h' : Handler}

/-- The answer of `_GetAvailable(false)` if `left` bytes are left in the input. -/
def remaining (c : ChunkedIstream) (left : Nat) : Nat :=
  c.buffer.length + (if 0 < c.missing then 2 else 0) +
    if c.hasInput then left + (if c.missing < left then 8 else 0) + 5 else 0

private theorem getAvailable_eq {a : Option Nat} {left v : Nat}
    (hav : a = none ∨ a = some left)
    (h : c.getAvailable false a = some v) : v = c.remaining left := by
  unfold getAvailable at h
  unfold remaining
  cases hi : c.hasInput with
  | false =>
    rw [hi] at h
    by_cases hm : 0 < c.missing <;>
      simp only [hm, Bool.false_eq_true, if_false, if_true, some.injEq] at h ⊢ <;>
      omega
  | true =>
    rw [hi] at h
    rcases hav with rfl | rfl
    · cases h
    · by_cases hm : 0 < c.missing <;> by_cases hl : c.missing < left <;>
        simp only [hm, hl, if_true, if_false, some.injEq] at h ⊢ <;>
        omega

private theorem sendBuffer_length {b : Bool} (hse : c.sendBuffer h = (b, c', h')) :
    c'.missing = c.missing ∧ c'.hasInput = c.hasInput ∧
      h'.received.length + c'.buffer.length = h.received.length + c.buffer.length ∧
      (b = true → c'.buffer = []) := by
  unfold sendBuffer at hse
  cases hb : c.buffer with
  | nil =>
    rw [hb] at hse
    cases hse
    exact ⟨rfl, rfl, by rw [hb], fun _ => hb⟩
  | cons ch buffer =>
    obtain ⟨n, h1, hi, hn, hc, -, -⟩ := h.invokeData_spec c.buffer
    rw [hi, hb] at hse
    rw [hb] at hn hc
    cases hse
    refine ⟨rfl, rfl, ?_, ?_⟩
    · rw [hc.received_eq, length_append, length_take, length_drop]
      omega
    · intro hal
      rw [eq_of_beq hal]
      exact drop_length

private theorem sendBuffer_remaining {b : Bool} (hse : c.sendBuffer h = (b, c', h')) (left : Nat) :
    h'.received.length + c'.remaining left = h.received.length + c.remaining left := by
  obtain ⟨hm, hi, hle, -⟩ := sendBuffer_length hse
  unfold remaining
  rw [hm, hi]
  omega

private theorem startChunk_remaining (hfo : FormatsHex format) (hi : c.hasInput = true)
    (hm : c.missing = 0) (hb : c.buffer = []) {left : Nat} (hpo : 0 < left)
    (hle : left ≤ maxChunkSize) :
    (c.startChunk format left).remaining left = c.remaining left := by
  have hlt : left < 0x10000 := lt_of_le_of_lt hle (by decide)
  have hl : (chunkHeader format left).length = 6 := by
    rw [chunkHeader, length_append, (hfo left hlt).1]
    rfl
  unfold startChunk remaining
  simp only [if_neg (not_lt.mpr hle), hi, hm, hb, if_true, if_pos hpo,
    lt_irrefl, if_false, length_nil]
  omega

private theorem data_remaining (hi : c.hasInput = true) (hb : c.buffer = []) (n left : Nat)
    (hpo : 0 < n) (hn : n ≤ c.missing) (hl : n ≤ left) :
    n + remaining { c with
        missing := c.missing - n
        buffer := if c.missing - n = 0 then crlf else c.buffer } (left - n) =
      c.remaining left := by
  have hc : crlf.length = 2 := rfl
  unfold remaining
  simp only [hb, length_nil]
  by_cases hd : c.missing - n = 0
  · simp only [if_pos hd]
    split <;> split <;> split <;> split <;> omega
  · simp only [if_neg hd, length_nil]
    split <;> split <;> split <;> split <;> omega

/-- A chunk is started in a call of `Feed` for the whole rest of the input only. -/
structure Covers (c : ChunkedIstream) (src more : Nat) : Prop where
  no_more : c.missing < src → more = 0
  size_le : src - c.missing ≤ maxChunkSize

private theorem feedLoop_remaining (hfo : FormatsHex format) (more fuel : Nat) :
    ∀ {c : ChunkedIstream} {h : Handler} {src : List UInt8} {t n : Nat},
      feedLoop format fuel c h src t = some (n, c', h') → c.hasInput = true →
      Covers c src.length more → (src = [] → c.buffer ≠ []) → h'.destroyed = false →
      c'.hasInput = true ∧ t ≤ n ∧ n ≤ t + src.length ∧
        c.missing ≤ c'.missing + (n - t) ∧
        h'.received.length + c'.remaining (t + src.length - n + more) =
          h.received.length + c.remaining (src.length + more) := by
  induction fuel with
  | zero =>
    intro c h src t n hlo
    cases hlo
  | succ fuel ih =>
    intro c h src t n hlo hin hc hsr hd
    -- a chunk that is started is what was promised
    obtain ⟨c1, hc1, hi1, hco1, hl1, hr1⟩ : ∃ c1,
        (if c.buffer.isEmpty && c.missing == 0 then c.startChunk format src.length else c) = c1 ∧
          c1.hasInput = true ∧ Covers c1 src.length more ∧ c.missing ≤ c1.missing ∧
          c1.remaining (src.length + more) = c.remaining (src.length + more) := by
      by_cases hl : (c.buffer.isEmpty && c.missing == 0) = true
      · rw [if_pos hl]
        rw [Bool.and_eq_true, List.isEmpty_iff, beq_iff_eq] at hl
        obtain ⟨hb, hmi⟩ := hl
        have hpo : 0 < src.length := by
          apply length_pos_iff.mpr
          intro hni
          exact hsr hni hb
        have hmo : more = 0 := hc.no_more (by omega)
        have hle : src.length ≤ maxChunkSize := by
          have := hc.size_le
          omega
        subst hmo
        refine ⟨_, rfl, hin, ⟨fun _ => rfl, by omega⟩, by omega, ?_⟩
        exact startChunk_remaining hfo hin hmi hb hpo hle
      · exact ⟨c, if_neg hl, hin, hc, le_rfl, rfl⟩
    simp only [feedLoop, hc1] at hlo
    rw [← hr1]
    cases hse : c1.sendBuffer h with
    | mk b sent =>
      obtain ⟨c2, h2⟩ := sent
      obtain ⟨hmissing2, hi2, -, hs⟩ := sendBuffer_length hse
      rw [← sendBuffer_remaining hse]
      have hc2 : Covers c2 src.length more := by
        constructor <;> rw [hmissing2]
        · exact hco1.no_more
        · exact hco1.size_le
      rw [hse] at hlo
      cases b with
      | false =>
        cases hlo
        rw [hd]
        exact ⟨hi2.trans hi1, le_rfl, by simp, by omega, by simp⟩
      | true =>
        have hbuffer2 := hs rfl
        simp only at hlo
        by_cases hz : c2.missing = 0
        · -- the trailer of the previous chunk was written
          rw [if_pos hz] at hlo
          by_cases hni : src = []
          · subst hni
            cases hlo
            exact ⟨hi2.trans hi1, le_rfl, by simp, by omega, by simp⟩
          · rw [if_neg (by simpa using hni)] at hlo
            obtain ⟨hi', hle, hl', hmissing', hre⟩ :=
              ih hlo (hi2.trans hi1) hc2 (fun h0 => absurd h0 hni) hd
            exact ⟨hi', hle, hl', by omega, hre⟩
        rw [if_neg hz] at hlo
        obtain ⟨m, h3, hi, hm, hco, -, -⟩ :=
          h2.invokeData_spec (src.take (min src.length c2.missing))
        rw [hi] at hlo
        rw [length_take] at hm
        have hr : h3.received.length = h2.received.length + m := by
          rw [hco.received_eq, length_append, length_take, length_take]
          omega
        simp only at hlo
        by_cases hm0 : m = 0
        · rw [if_pos hm0] at hlo
          cases hlo
          rw [hd, hr, hm0]
          exact ⟨hi2.trans hi1, le_rfl, by simp, by omega, by simp⟩
        rw [if_neg hm0] at hlo
        have hda := data_remaining (hi2.trans hi1) hbuffer2 m (src.length + more)
          (Nat.pos_of_ne_zero hm0) (by omega) (by omega)
        have hlf : src.length + more - m = (src.drop m).length + more := by
          rw [length_drop]
          omega
        rw [hlf] at hda
        generalize hc3 : ({ c2 with
          missing := c2.missing - m
          buffer := if c2.missing - m = 0 then crlf else c2.buffer } : ChunkedIstream) = c3
          at hda hlo
        have hbuffer3 : (if c2.missing - m = 0 then crlf else c2.buffer) = c3.buffer := by
          rw [← hc3]
        have hi3 : c3.hasInput = true := by
          rw [← hc3]
          exact hi2.trans hi1
        have hmissing3 : c3.missing = c2.missing - m := by rw [← hc3]
        have hco3 : Covers c3 (src.drop m).length more := by
          have hsi := hc2.size_le
          constructor <;> rw [hmissing3]
          · intro hlt
            exact hc2.no_more (by omega)
          · omega
        rw [hbuffer3] at hlo
        by_cases hg : ((!c3.buffer.isEmpty || !(src.drop m).isEmpty) &&
            m == min src.length c2.missing) = true
        · rw [if_pos hg] at hlo
          have hn : src.drop m = [] → c3.buffer ≠ [] := by
            intro hni hb
            rw [hni, hb] at hg
            cases hg
          obtain ⟨hi', hle, hl', hmissing', hre⟩ := ih hlo hi3 hco3 hn hd
          have ht : t + m + (src.drop m).length - n + more = t + src.length - n + more := by
            omega
          refine ⟨hi', by omega, by omega, by omega, ?_⟩
          rw [← ht, hre]
          omega
        · rw [if_neg hg] at hlo
          cases hlo
          have ht : t + src.length - (t + m) + more = (src.drop m).length + more := by
            omega
          refine ⟨hi3, by omega, by omega, by omega, ?_⟩
          rw [ht]
          omega

private theorem read_remaining (hfo : FormatsHex format) {b : Bool} {a left : Nat}
    (hre : c.read format h a = (b, c', h'))
    (hc : c.hasInput = true → c.missing = 0 → 0 < a →
      a = left ∧ left ≤ maxChunkSize) :
    c.missing ≤ c'.missing ∧
      h'.received.length + c'.remaining left = h.received.length + c.remaining left := by
  unfold read at hre
  cases hse : c.sendBuffer h with
  | mk b1 sent =>
    obtain ⟨c1, h1⟩ := sent
    obtain ⟨hmissing1, hi1, -, hs⟩ := sendBuffer_length hse
    rw [← sendBuffer_remaining hse]
    rw [hse] at hre
    cases b1 with
    | false =>
      cases hre
      exact ⟨le_of_eq hmissing1.symm, rfl⟩
    | true =>
      simp only at hre
      by_cases hi : c1.hasInput = true
      · rw [if_neg (by simp [hi])] at hre
        by_cases hst : (c1.buffer.isEmpty && c1.missing == 0 && decide (0 < a)) = true
        · rw [if_pos hst] at hre
          rw [Bool.and_eq_true, Bool.and_eq_true, beq_iff_eq, decide_eq_true_eq] at hst
          obtain ⟨rfl, hle⟩ := hc (hi1 ▸ hi) (hmissing1 ▸ hst.1.2) hst.2
          rw [← startChunk_remaining hfo hi hst.1.2 (hs rfl) hst.2 hle]
          cases hs2 : (c1.startChunk format a).sendBuffer h1 with
          | mk b2 sent =>
            rw [hs2] at hre
            cases hre
            exact ⟨by omega, sendBuffer_remaining hs2 a⟩
        · rw [if_neg hst] at hre
          cases hre
          exact ⟨le_of_eq hmissing1.symm, rfl⟩
      · rw [if_pos (by simpa using hi)] at hre
        cases hre
        exact ⟨le_of_eq hmissing1.symm, rfl⟩

private theorem onEof_remaining {b : Bool} (he : c.onEof h = some (b, c', h'))
    (hi : c.hasInput = true) (hm : c.missing = 0) :
    c.missing ≤ c'.missing ∧
      h'.received.length + c'.remaining 0 = h.received.length + c.remaining 0 := by
  rw [onEof, map_eq_some_iff] at he
  obtain ⟨c1, hap, hse⟩ := he
  refine ⟨by omega, ?_⟩
  rw [sendBuffer_remaining hse]
  unfold appendToBuffer at hap
  split at hap
  · cases hap
    simp [remaining, hi, hm, eofChunk]
  · cases hap

private theorem fillBucketList_remaining (hfo : FormatsHex format)
    {list list' sub : IstreamBucketList} {available left : Nat}
    (hfi : c.fillBucketList format list sub available = some (c', list'))
    (he : c.hasInput = true → sub.list.isEmpty = true → sub.more = false → left = 0 ∧ c.missing = 0)
    (hco : c.hasInput = true → c.missing = 0 → c.buffer = [] →
      0 < max sub.getTotalBufferSize available →
      max sub.getTotalBufferSize available = left ∧ left ≤ maxChunkSize) :
    c.missing ≤ c'.missing ∧ c'.remaining left = c.remaining left := by
  unfold fillBucketList at hfi
  by_cases hin : c.hasInput = true
  · rw [if_neg (by simp [hin])] at hfi
    by_cases hc : (sub.list.isEmpty && !sub.more) = true
    · simp only [if_pos hc] at hfi
      rw [Bool.and_eq_true, Bool.not_eq_true'] at hc
      obtain ⟨rfl, hm⟩ := he hin hc.1 hc.2
      unfold appendToBuffer at hfi
      split at hfi
      · cases hfi
        refine ⟨by omega, ?_⟩
        simp [startNewChunk, remaining, hin, hm, eofChunk]
      · cases hfi
    simp only [if_neg hc] at hfi
    cases hfi
    unfold startNewChunk
    have hma : (if available < sub.getTotalBufferSize then sub.getTotalBufferSize
        else available) = max sub.getTotalBufferSize available := by
      split <;> omega
    rw [hma]
    split
    next hi =>
      rw [Bool.and_eq_true, Bool.and_eq_true, List.isEmpty_iff, beq_iff_eq] at hi
      obtain ⟨⟨hb, hm⟩, -⟩ := hi
      simp only
      split
      next hpo =>
        obtain ⟨heq, hle⟩ := hco hin hm hb hpo
        rw [heq] at hpo ⊢
        exact ⟨by omega, startChunk_remaining hfo hin hm hb hpo hle⟩
      · exact ⟨le_rfl, rfl⟩
    · exact ⟨le_rfl, rfl⟩
  · rw [if_pos (by simpa using hin)] at hfi
    cases hfi
    exact ⟨le_rfl, rfl⟩

variable {left : List UInt8}

private theorem consumeInput_remaining {k n more ta : Nat} {last : Bool}
    (hc : c.consumeInput n (inputConsume left k last) = (more, ta, c'))
    (hbu : 0 < n → c.buffer = [])
    (hi : 0 < c.missing → c.hasInput = true ∧ c.missing ≤ left.length) :
    c.missing ≤ c'.missing + ta ∧
      more + c'.remaining (left.length - ta) = c.remaining left.length := by
  unfold consumeInput at hc
  by_cases hs : 0 < min n c.missing
  · have hm : 0 < c.missing := by omega
    have hb := hbu (by omega)
    obtain ⟨hin, hl⟩ := hi hm
    obtain ⟨t, eof, hr, ht, heo⟩ : ∃ t eof,
        inputConsume left k last (min n c.missing) = ⟨t, eof⟩ ∧ t = min (min n c.missing) k ∧
          (eof = true → t = left.length) := by
      refine ⟨_, _, rfl, rfl, ?_⟩
      intro he
      rw [Bool.and_eq_true, beq_iff_eq] at he
      exact he.2
    simp only [if_pos hs, hr] at hc
    by_cases hd : c.missing - t = 0
    · -- the chunk is complete, and perhaps the input
      rw [if_pos hd] at hc
      cases eof with
      | true =>
        have hle := heo rfl
        cases hc
        refine ⟨by omega, ?_⟩
        simp only [remaining, consumeBuffer, hin, hb, hm, crlf, eofChunk, if_true,
          Bool.false_eq_true, if_false, length_drop, length_append, length_cons,
          length_nil, lt_irrefl]
        rw [if_neg (by omega)]
        omega
      | false =>
        cases hc
        refine ⟨by omega, ?_⟩
        simp only [remaining, consumeBuffer, hin, hb, hm, crlf, if_true,
          Bool.false_eq_true, if_false, length_drop, length_cons, lt_irrefl]
        by_cases hla : c.missing < left.length
        · rw [if_pos hla, if_pos (by omega)]
          omega
        · rw [if_neg hla, if_neg (by omega)]
          omega
    · rw [if_neg hd] at hc
      have hn : eof = false := by
        apply Bool.eq_false_iff.mpr
        intro he
        have := heo he
        omega
      subst hn
      cases hc
      refine ⟨by simp only; omega, ?_⟩
      simp only [remaining, hin, hm, if_true, Bool.false_eq_true, if_false,
        Nat.pos_of_ne_zero hd]
      by_cases hla : c.missing < left.length
      · rw [if_pos hla, if_pos (by omega)]
        omega
      · rw [if_neg hla, if_neg (by omega)]
        omega
  · rw [if_neg hs] at hc
    cases hc
    exact ⟨le_rfl, by rw [zero_add, Nat.sub_zero]⟩

private theorem consumeBucketList_remaining {k n t : Nat} {last : Bool}
    {r : ConsumeBucketResult}
    (hc : c.consumeBucketList n (inputConsume left k last) = (r, t, c'))
    (hi : 0 < c.missing → c.hasInput = true ∧ c.missing ≤ left.length) :
    c.missing ≤ c'.missing + t ∧
      r.consumed + c'.remaining (left.length - t) = c.remaining left.length := by
  unfold consumeBucketList consumeBuffer at hc
  generalize hs : min n c.buffer.length = size at hc
  cases hin : consumeInput { c with buffer := c.buffer.drop size } (n - size)
      (inputConsume left k last) with
  | mk more rest =>
    obtain ⟨taken', c1⟩ := rest
    simp only [hin] at hc
    cases hc
    obtain ⟨hm, hre⟩ := consumeInput_remaining hin
      (by
        intro hpo
        apply drop_eq_nil_of_le
        omega)
      hi
    have hb : size + remaining { c with buffer := c.buffer.drop size } left.length =
        c.remaining left.length := by
      simp only [remaining, length_drop]
      omega
    refine ⟨hm, ?_⟩
    show size + more + c'.remaining (left.length - t) = _
    omega

private theorem Coding.missing_le {bytes : List UInt8} (hc : Coding format bytes emitted left c)
    (hpo : 0 < c.missing) :
    c.hasInput = true ∧ c.missing ≤ left.length := by
  cases hc.phase with
  | between _ _ _ hm => omega
  | inside _ _ _ hi _ hl => exact ⟨hi, hl⟩
  | ending _ _ _ hm => omega

private theorem Coding.truncate {bytes src more : List UInt8}
    (hc : Coding format bytes emitted (src ++ more) c) (hin : c.hasInput = true)
    (hle : c.missing ≤ src.length) : ∃ bytes', Coding format bytes' emitted src c := by
  cases hc.phase with
  | between chunks hs _ hm hb _ he =>
    exact ⟨_, .between chunks hs hin hm hb rfl he, hc.buffer_le⟩
  | inside chunks part hs _ hm _ hsi _ he =>
    exact ⟨_, .inside chunks part hs hin hm hle hsi rfl he, hc.buffer_le⟩
  | ending _ _ hi =>
    rw [hin] at hi
    cases hi

end ChunkedIstream

namespace Chunking

variable {format : Nat → List UInt8} {bytes left : List UInt8} {s s' : Chunking}

/-- What was emitted, and what is promised. -/
def total (s : Chunking) : Nat := s.handler.received.length + s.stream.remaining s.left.length

/-- The number of bytes behind the current chunk for which a call may start another one. -/
def offered (s : Chunking) : ChunkedCall → Nat
  | .onData src => src.length - s.stream.missing
  | .read available => if s.stream.hasInput ∧ s.stream.missing = 0 then available else 0
  | .fillBucketList _ sub available =>
    if s.stream.hasInput ∧ s.stream.missing = 0 ∧ s.stream.buffer = [] then
      max sub.getTotalBufferSize available
    else 0
  | .onEof | .consumeBucketList _ => 0

/-- A chunk is started for everything that is left behind the current one only. -/
def Covers (s : Chunking) (call : ChunkedCall) : Prop :=
  s.offered call = 0 ∨ s.offered call = s.left.length - s.stream.missing ∧
    s.offered call ≤ maxChunkSize

/-- A call that covers the rest of the input. -/
def CoveringStep (format : Nat → List UInt8) (s : Chunking) (call : ChunkedCall) (s' : Chunking) :
    Prop :=
  Step format s call s' ∧ s.Covers call

section

variable (h : Inv format bytes s left)
include h

private theorem Inv.total_step (hfo : FormatsHex format)
    {call : ChunkedCall} (hst : CoveringStep format s call s') :
    (s'.handler.destroyed = true ∧ s'.ended = false) ∨
      (s.stream.missing + s'.left.length ≤ s'.stream.missing + s.left.length ∧
        s'.total = s.total) := by
  obtain ⟨⟨ha, hen, hal, hap⟩, hco⟩ := hst
  obtain rfl := h.left_eq ha
  cases call with
  | onData src =>
    obtain ⟨hin, hne, more, hm⟩ := hal
    simp only [apply, map_eq_some_iff] at hap
    obtain ⟨⟨n, c, hd⟩, hc, rfl⟩ := hap
    cases hde : hd.destroyed with
    | true => exact .inl ⟨hde, rfl⟩
    | false =>
      right
      have hl : s.left.length = src.length + more.length := by
        rw [← hm, length_append]
      have hc' : s.stream.Covers src.length more.length := by
        simp only [Covers, offered] at hco
        constructor <;> omega
      obtain ⟨-, -, hn, hmi, hre⟩ := feedLoop_remaining hfo more.length _
        hc hin hc' (fun hni => absurd hni hne) hde
      have hlf : (s.left.drop n).length = 0 + src.length - n + more.length := by
        rw [length_drop]
        omega
      constructor
      · show s.stream.missing + (s.left.drop n).length ≤ c.missing + s.left.length
        omega
      · show hd.received.length + c.remaining (s.left.drop n).length = _
        rw [hlf, hre, total, hl]
  | onEof =>
    obtain ⟨hin, hni⟩ := hal
    simp only [apply, map_eq_some_iff] at hap
    obtain ⟨⟨b, c, hd⟩, hc, rfl⟩ := hap
    right
    have hmi : s.stream.missing = 0 := by
      by_contra hne
      have hle := (h.coding.missing_le (Nat.pos_of_ne_zero hne)).2
      rw [hni, length_nil] at hle
      omega
    obtain ⟨hle, hre⟩ := onEof_remaining hc hin hmi
    refine ⟨Nat.add_le_add_right hle _, ?_⟩
    show hd.received.length + c.remaining (s.left.drop 0).length = _
    rw [total, hni]
    exact hre
  | read available =>
    cases hr : s.stream.read format s.handler available with
    | mk b rest =>
      simp only [apply, hr, some.injEq] at hap
      subst hap
      right
      have hw : s.stream.hasInput = true → s.stream.missing = 0 → 0 < available →
          available = s.left.length ∧ s.left.length ≤ maxChunkSize := by
        intro hin hmi hpo
        simp only [Covers, offered, hin, hmi, and_self, if_true] at hco
        omega
      obtain ⟨hle, hre⟩ := read_remaining hfo hr hw
      exact ⟨Nat.add_le_add_right hle _, hre⟩
  | fillBucketList list sub available =>
    simp only [apply, map_eq_some_iff] at hap
    obtain ⟨⟨c, list'⟩, hc, rfl⟩ := hap
    right
    have hre : s.stream.missing ≤ c.missing ∧
        c.remaining s.left.length = s.stream.remaining s.left.length := by
      apply fillBucketList_remaining hfo hc
      · intro hin he hm
        have hni : s.left = [] := by
          rw [← (hal hin).1.complete hm, List.isEmpty_iff.mp he]
          rfl
        refine ⟨by rw [hni]; rfl, ?_⟩
        by_contra hne
        have hle := (h.coding.missing_le (Nat.pos_of_ne_zero hne)).2
        rw [hni, length_nil] at hle
        omega
      · intro hin hmi hb hpo
        simp only [Covers, offered, hin, hmi, hb, and_self, if_true] at hco
        omega
    refine ⟨Nat.add_le_add_right hre.1 _, ?_⟩
    show s.handler.received.length + c.remaining s.left.length = _
    rw [hre.2]
    rfl
  | consumeBucketList n =>
    obtain ⟨hpr, hall⟩ := h.listed_eq ha
    obtain ⟨consumed, eof, taken, c, hc, ho, -⟩ :=
      consumeBucketList_coding s.inputListed s.inputLast h.coding n
    simp only [apply, hc, some.injEq] at hap
    subst hap
    right
    obtain ⟨hmi, hre⟩ := consumeBucketList_remaining hc h.coding.missing_le
    -- what is consumed was listed
    have hle : consumed ≤ s.listed.length := by
      rcases hal with hle | hm
      · omega
      · rw [hall hm]
        omega
    have hi := h.coding.missing_le_length
    constructor
    · show s.stream.missing + (s.left.drop taken).length ≤ c.missing + s.left.length
      rw [length_drop]
      omega
    show (s.handler.received ++ s.listed.take consumed).length +
      c.remaining (s.left.drop taken).length = _
    rw [length_append, length_take, length_drop, min_eq_left hle, add_assoc, hre, total]

private theorem Inv.total_run (hfo : FormatsHex format)
    {ca : List ChunkedCall} (hru : Run (CoveringStep format) s ca s') :
    (∃ left', Inv format bytes s' left') ∧
      ((s'.handler.destroyed = true ∧ s'.ended = false) ∨ s'.total = s.total) := by
  induction hru with
  | nil => exact ⟨⟨left, h⟩, .inr rfl⟩
  | snoc _ hst ih =>
    obtain ⟨⟨left', h'⟩, ht⟩ := ih
    obtain ⟨s'', left'', hap, h'', -⟩ := h'.step hfo hst.1.1 hst.1.2.1 hst.1.2.2.1
    rw [hst.1.2.2.2] at hap
    cases hap
    refine ⟨⟨left'', h''⟩, ?_⟩
    rcases ht with ⟨hd, -⟩ | ht
    · rw [hst.1.1] at hd
      cases hd
    · rw [← ht]
      exact (h'.total_step hfo hst).imp_right And.right

omit h in
private theorem Covers.of_le {call : ChunkedCall} (hal : s.Allowed call)
    (hle : s.left.length ≤ s.stream.missing + 1) : s.Covers call := by
  have hma : 1 ≤ maxChunkSize := by decide
  unfold Covers
  cases call with
  | onData src =>
    have hl := hal.2.2.length_le
    simp only [offered]
    omega
  | onEof => exact .inl rfl
  | read available =>
    simp only [offered]
    split
    next hi =>
      have hl := hal hi.1
      omega
    · exact .inl rfl
  | fillBucketList list sub available =>
    simp only [offered]
    split
    next hi =>
      obtain ⟨hli, hl⟩ := hal hi.1
      have ht : sub.getTotalBufferSize ≤ s.left.length := hli.is_prefix.length_le
      omega
    · exact .inl rfl
  | consumeBucketList n => exact .inl rfl

private theorem Inv.covering_run (hfo : FormatsHex format)
    (hle : s.left.length ≤ s.stream.missing + 1) {ca : List ChunkedCall}
    (hru : Run (Step format) s ca s') :
    Run (CoveringStep format) s ca s' ∧ (∃ left', Inv format bytes s' left') ∧
      (s'.handler.destroyed = false → s'.left.length ≤ s'.stream.missing + 1) := by
  induction hru with
  | nil => exact ⟨.nil, ⟨left, h⟩, fun _ => hle⟩
  | snoc _ hst ih =>
    obtain ⟨hr', ⟨left', h'⟩, hl'⟩ := ih
    obtain ⟨hal, he, ha, hap⟩ := id hst
    obtain ⟨s'', left'', ha', h'', -⟩ := h'.step hfo hal he ha
    rw [hap] at ha'
    cases ha'
    have hc : CoveringStep format _ _ _ := ⟨hst, Covers.of_le ha (hl' hal)⟩
    refine ⟨.snoc hr' hc, ⟨left'', h''⟩, ?_⟩
    intro hal'
    rcases h'.total_step hfo hc with ⟨hd, -⟩ | ⟨hsl, -⟩
    · rw [hal'] at hd
      cases hd
    · have := hl' hal
      omega

private theorem Inv.total_of_ended (he : s.ended = true) :
    s.total = s.handler.received.length := by
  obtain ⟨hi, hb⟩ := h.ended_eq he
  obtain ⟨hm, -⟩ := h.coding.of_not_hasInput hi
  simp [total, remaining, hi, hb, hm]

private theorem Inv.deliver (hfo : FormatsHex format)
    (hal : s.handler.destroyed = false) (he : s.ended = false)
    (hin : s.stream.hasInput = true) {j : Nat} (hpo : 0 < j) (hj : j ≤ s.stream.missing + 1)
    (hl : j ≤ s.left.length)
    (hac : ¬ s.handler.Refuses (s.left.length + bufferSize)) :
    ∃ s', Step format s (.onData (s.left.take j)) s' ∧ s'.handler.destroyed = false ∧
      s'.ended = false ∧ s'.handler.accept = s.handler.accept ∧ s'.left = s.left.drop j ∧
      s'.stream.hasInput = true ∧ Inv format bytes s' s'.left ∧
      s'.total = s.total + if s.stream.missing < j ∧ j < s.left.length then 8 else 0 := by
  obtain rfl := h.left_eq hal
  have hln : (s.left.take j).length = j := length_take_of_le hl
  have hne : s.left.take j ≠ [] := by
    apply length_pos_iff.mp
    omega
  have ha : s.Allowed (.onData (s.left.take j)) := ⟨hin, hne, take_prefix j s.left⟩
  have hc := h.coding
  rw [← take_append_drop j s.left] at hc
  obtain ⟨n, c, hd, hca, hn, hc', hacc, hi, hall⟩ := onData_coding hfo hc hal hin hne
  have hfu : ¬ (n < (s.left.take j).length ∨ hd.destroyed = true) := by
    intro hx
    apply hac
    exact (hall hx).mono rfl (by omega)
  rw [not_or, Bool.not_eq_true] at hfu
  obtain rfl : n = j := by omega
  rw [hfu.2] at hca
  simp only [Bool.false_eq_true] at hca
  have hap : s.apply format (.onData (s.left.take n)) = some (s.record c hd n false) := by
    rw [apply, hca]
    rfl
  have hst : Step format s (.onData (s.left.take n)) (s.record c hd n false) :=
    ⟨hal, he, ha, hap⟩
  rw [drop_of_length_le (by omega)] at hc'
  refine ⟨_, hst, hfu.2, rfl, hacc, rfl, hi, Inv.record hc' (fun _ => rfl)
    (fun hf => Bool.noConfusion hf), ?_⟩
  by_cases hsp : s.stream.missing < n ∧ n < s.left.length
  · -- seen from the stream, this is the last byte of the input
    rw [if_pos hsp]
    have hco : s.stream.Covers (s.left.take n).length 0 := by
      have hma : 1 ≤ maxChunkSize := by decide
      constructor
      · exact fun _ => rfl
      · omega
    obtain ⟨-, -, -, hre⟩ := feedLoop_remaining hfo 0 _ hca hin hco
      (fun hni => absurd hni hne) hfu.2
    obtain ⟨bytes', ht⟩ := hc.truncate hin (by omega)
    rw [← append_nil (s.left.take n)] at ht
    obtain ⟨n', c', hd', hca', -, hc'', -⟩ := onData_coding hfo ht hal hin hne
    rw [hca] at hca'
    obtain ⟨hn', rfl, rfl⟩ : n = (if hd'.destroyed then 0 else n') ∧ c = c' ∧ hd = hd' := by
      simpa using hca'
    rw [hfu.2] at hn'
    simp only [Bool.false_eq_true, if_false] at hn'
    have hm : c.missing = 0 := by
      by_contra hne'
      have hle := (hc''.missing_le (Nat.pos_of_ne_zero hne')).2
      rw [append_nil, length_drop] at hle
      omega
    have hb : (s.left.drop n).length = s.left.length - n := length_drop
    show hd.received.length + c.remaining (s.left.drop n).length = _
    simp only [total, remaining, hi, hin, hm, hln, hb, if_true,
      lt_irrefl, if_false, add_zero] at hre ⊢
    rw [if_neg (by omega), if_pos hsp.1] at hre
    rw [if_pos (show 0 < s.left.length - n by omega),
      if_pos (show s.stream.missing < s.left.length by omega)]
    omega
  · rw [if_neg hsp]
    have hco : s.Covers (.onData (s.left.take n)) := by
      have hma : 1 ≤ maxChunkSize := by decide
      simp only [Covers, offered]
      omega
    rcases h.total_step hfo ⟨hst, hco⟩ with ⟨hde, -⟩ | hto
    · rw [show hd.destroyed = true from hde] at hfu
      cases hfu.2
    · exact hto.2

end

private theorem Inv.exists_run {N : Nat} (hfo : FormatsHex format) (n : Nat) :
    ∀ {s : Chunking}, Inv format bytes s s.left → s.handler.destroyed = false → s.ended = false →
      s.stream.hasInput = true → (s.handler.accept = fun _ => some N) →
      s.left.length + bufferSize ≤ N → s.left.length = n →
      ∃ calls s', Run (Step format) s calls s' ∧ s'.ended = true ∧
        s.total ≤ s'.handler.received.length := by
  induction n with
  | zero =>
    intro s h hal hen hip hac hN hn
    have hni : s.left = [] := eq_nil_of_length_eq_zero hn
    have hc := h.coding
    rw [hni] at hc
    obtain ⟨b, c, hd, hca, hc', -, hin, hbu, hbl⟩ := onEof_coding hc hal hip
    have hst : Step format s .onEof (s.record c hd 0 b) := by
      refine ⟨hal, hen, ⟨hip, hni⟩, ?_⟩
      rw [apply, hca]
      rfl
    have hb : b = true := by
      by_contra hne
      obtain ⟨k, hk⟩ := hbl (Bool.eq_false_iff.mpr hne)
      have hlt := hk N (by rw [hac])
      omega
    refine ⟨_, _, .snoc .nil hst, hb, ?_⟩
    rcases h.total_step hfo ⟨hst, .inl rfl⟩ with ⟨-, hf⟩ | ht
    · rw [hb] at hf
      cases hf
    · have hi : Inv format bytes (s.record c hd 0 b) [] :=
        Inv.record hc' (fun _ => by rw [hni]; rfl) (fun he => ⟨hin, hbu he⟩)
      rw [← ht.2, hi.total_of_ended hb]
  | succ n ih =>
    intro s h hal hen hip hac hN hn
    have ha : ¬ s.handler.Refuses (s.left.length + bufferSize) := by
      rintro ⟨k, hk⟩
      have := hk N (by rw [hac])
      omega
    obtain ⟨s1, hst, ha1, he1, hac1, hleft1, hi1, h1, ht⟩ :=
      h.deliver hfo hal hen hip Nat.one_pos (by omega) (by omega) ha
    obtain ⟨calls, s', hru, hed, hle⟩ := ih h1 ha1 he1 hi1 (hac1.trans hac)
      (by rw [hleft1, length_drop]; omega) (by rw [hleft1, length_drop]; omega)
    exact ⟨_, s', .cons hst hru, hed, by omega⟩

end Chunking

/-- In every state of every run, the answer of `_GetAvailable(false)` is the number of bytes that
will be emitted before the end, however the input delivers its rest, exactly if at most one byte of
the input is left behind the current chunk. It is also that number in every run in which a chunk is
started for the whole rest of the input only. -/
theorem chunked_available_iff {format : Nat → List UInt8} (hfo : FormatsHex format)
    {bytes : List UInt8} {accept : Nat → Option Nat} {calls : List ChunkedCall} {s : Chunking}
    (h : Run (Chunking.Step format) { handler := { accept }, left := bytes } calls s)
    (hal : s.handler.destroyed = false) (hen : s.ended = false) {available : Option Nat}
    {value : Nat} (hav : available = none ∨ available = some s.left.length)
    (hvalue : s.stream.getAvailable false available = some value) :
    ((∀ accept' calls' s', Run (Chunking.Step format)
          { s with handler := { s.handler with accept := accept' } } calls' s' →
        s'.ended = true → s'.handler.received.length = s.handler.received.length + value) ↔
      s.left.length ≤ s.stream.missing + 1) ∧
    (∀ calls' s', Run (Chunking.CoveringStep format) s calls' s' → s'.ended = true →
      s'.handler.received.length = s.handler.received.length + value) := by
  obtain ⟨⟨left, hi⟩, -⟩ := Chunking.Inv.of_run hfo h
  obtain rfl := hi.left_eq hal
  obtain rfl := getAvailable_eq hav hvalue
  -- the handler may accept something else from now on
  have ho (accept' : Nat → Option Nat) : Chunking.Inv format bytes
      { s with handler := { s.handler with accept := accept' } } s.left :=
    ⟨hi.coding, hi.left_eq, hi.listed_eq, hi.complete, hi.ended_eq⟩
  refine ⟨⟨?_, ?_⟩, ?_⟩
  · intro hall
    by_contra hlt
    have hinput : s.stream.hasInput = true := by
      by_contra hno
      have hni := (hi.coding.of_not_hasInput (Bool.eq_false_iff.mpr hno)).2
      rw [hni, length_nil] at hlt
      omega
    -- the first byte behind the current chunk gets a chunk of its own
    obtain ⟨N, hN⟩ : ∃ N, N = s.left.length + bufferSize := ⟨_, rfl⟩
    obtain ⟨s1, hst, ha1, he1, hac1, hleft1, hin1, hi1, ht1⟩ :=
      (ho fun _ => some N).deliver hfo hal hen hinput (Nat.succ_pos s.stream.missing)
        (le_rfl) (by show s.stream.missing + 1 ≤ s.left.length; omega)
        (by
          rintro ⟨k, hk⟩
          have hl' : N < s.left.length + bufferSize := hk N rfl
          omega)
    have hl1 : s1.left.length ≤ s.left.length := by
      rw [hleft1, length_drop]
      exact Nat.sub_le _ _
    obtain ⟨calls2, s2, hr2, he2, hl2⟩ := hi1.exists_run hfo _ ha1 he1 hin1
      hac1 (by omega) rfl
    have hre := hall _ _ s2 (.cons hst hr2) he2
    rw [if_pos ⟨Nat.lt_succ_self _, by show s.stream.missing + 1 < s.left.length; omega⟩] at ht1
    have ht : Chunking.total { s with handler := { s.handler with accept := fun _ => some N } } =
        s.handler.received.length + s.stream.remaining s.left.length := rfl
    omega
  · intro hle accept' calls' s' hru he
    obtain ⟨hc, ⟨left', hi'⟩, -⟩ := (ho accept').covering_run hfo hle hru
    rcases ((ho accept').total_run hfo hc).2 with ⟨-, hf⟩ | ht
    · rw [he] at hf
      cases hf
    · rw [← hi'.total_of_ended he, ht]
      rfl
  · intro calls' s' hru he
    obtain ⟨⟨left', hi'⟩, ht⟩ := hi.total_run hfo hru
    rcases ht with ⟨-, hf⟩ | ht
    · rw [he] at hf
      cases hf
    · rw [← hi'.total_of_ended he, ht]
      rfl

/-- A stream with this input, and a handler that accepts everything. -/
def plainChunking (bytes : List UInt8) : Chunking where
  handler := { accept := fun _ => some 9 }
  left := bytes

/-- One byte: 14 bytes are promised and emitted. -/
theorem chunked_available_one : (plainChunking [97]).stream.getAvailable false (some 1) = some 14 ∧
      ∃ s', Run (Chunking.CoveringStep hexFormat) (plainChunking [97]) [.onData [97], .onEof] s' ∧
        s'.ended = true ∧ s'.handler.received.length = 0 + 14 := by
  have hru : ∃ s', Run (Chunking.CoveringStep hexFormat) (plainChunking [97])
      [.onData [97], .onEof] s' ∧ s'.ended = true :=
    ⟨_, .cons ⟨⟨rfl, rfl, ⟨rfl, by simp, prefix_refl _⟩, rfl⟩, .inr ⟨rfl, by decide⟩⟩
      (.cons ⟨⟨rfl, rfl, ⟨rfl, rfl⟩, rfl⟩, .inl rfl⟩ .nil), rfl⟩
  obtain ⟨s', hru, he⟩ := hru
  refine ⟨rfl, s', hru, he, ?_⟩
  have hst : Run (Chunking.Step hexFormat) (plainChunking [97]) [] (plainChunking [97]) := .nil
  exact (chunked_available_iff formatsHex_hexFormat hst rfl rfl (.inr rfl) rfl).2 _ _ hru he

/-- Two bytes that are delivered one by one: 15 bytes are promised, but 23 are emitted. -/
theorem chunked_available_split :
    (plainChunking [97, 98]).stream.getAvailable false (some 2) = some 15 ∧
      ∃ s', Run (Chunking.Step hexFormat) (plainChunking [97, 98])
          [.onData [97], .onData [98], .onEof] s' ∧
        s'.ended = true ∧ s'.handler.received.length = 23 := by
  refine ⟨rfl, _, .cons ⟨rfl, rfl, ⟨rfl, by simp, ⟨[98], rfl⟩⟩, rfl⟩
    (.cons ⟨rfl, rfl, ⟨rfl, by simp, prefix_refl _⟩, rfl⟩
      (.cons ⟨rfl, rfl, ⟨rfl, rfl⟩, rfl⟩ .nil)), rfl, rfl⟩

end BengProxy.Istream
