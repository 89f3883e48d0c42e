import BengProxy.Base.Run
import BengProxy.Memory.GrowingBuffer

/-!
# Contents of growing buffers

A growing buffer is a queue of bytes, whatever the capacity of its chunks is. A reader that is
constructed from it reads the queue, unless the first chunk is nothing but reserved space and the
data begins in the next one: the constructor drops that chunk and keeps its position.
-/

namespace BengProxy.Memory

open Base ChunkQueue List GrowingBuffer

variable {data : List UInt8}

/-- What a call means for the queue of bytes. -/
def GrowingBufferEvent.apply (queue : List UInt8) : GrowingBufferEvent → List UInt8
  | .reserve _ => queue
  | .prepend data => data ++ queue
  | .write src => queue ++ src
  | .writeSmall data => queue ++ data
  | .consume length => queue.drop length
  | .skip length => queue.drop length
  | .consumeBucketList nbytes => queue.drop nbytes

/-- The bytes that have been written and not been consumed. -/
def queueOf (es : List GrowingBufferEvent) : List UInt8 := es.foldl GrowingBufferEvent.apply []

/-- How many bytes a call consumes at most. -/
def ReaderEvent.length : ReaderEvent → Nat
  | .consume length => length
  | .skip length => length
  | .consumeBucketList nbytes => nbytes

/-- What is left of a queue after the calls of a reader. -/
def queueAfter (queue : List UInt8) (es : List ReaderEvent) : List UInt8 :=
  es.foldl (fun q e => q.drop e.length) queue

private theorem foldl_length (p : List (List UInt8)) :
    (p.map List.length).foldl (· + ·) 0 = p.flatten.length := by
  rw [← sum_eq_foldl_nat, length_flatten]

namespace GrowingBuffer

variable {capacity : ChunkCapacity} {b : GrowingBuffer}

private theorem getSize_eq (b : GrowingBuffer) : b.getSize = b.contents.length := by
  rw [getSize, foldl_length, forEachBuffer, flatten_pieces]
  rfl

private theorem dup_eq (b : GrowingBuffer) : b.dup = b.contents := by
  rw [dup]
  split
  next hz =>
    rw [getSize_eq] at hz
    exact (length_eq_zero_iff.mp hz).symm
  · rw [forEachBuffer, flatten_pieces]
    rfl

private theorem flatten_fillBucketListLoop (p : List (List UInt8)) :
    ∀ skip, (fillBucketListLoop skip p).flatten = p.flatten.drop skip := by
  induction p with
  | nil =>
    intro skip
    exact drop_nil.symm
  | cons c rest ih =>
    intro skip
    rw [fillBucketListLoop, flatten_cons]
    split
    next hle => rw [ih, drop_append, drop_eq_nil_of_le hle, nil_append]
    next hle =>
      have hd : (if 0 < skip then c.drop skip else c) = c.drop skip := by
        split
        · rfl
        next hz =>
          have hsk : skip = 0 := by omega
          rw [hsk, drop_zero]
      rw [flatten_cons, ih, drop_zero, hd, drop_append_of_le_length (Nat.le_of_not_le hle)]

private theorem fillBucketList_eq (b : GrowingBuffer) (skip : Nat) :
    (b.fillBucketList skip).flatten = b.contents.drop skip := by
  rw [fillBucketList, flatten_fillBucketListLoop, forEachBuffer, flatten_pieces]
  rfl

/-- The position is in the first chunk, and no chunk is fuller than it can be. -/
structure Inv (capacity : ChunkCapacity) (b : GrowingBuffer) : Prop where
  wf : b.toChunkQueue.WF
  fill_le : ∀ c ∈ b.chunks, c.length ≤ capacity.size

private theorem inv_empty : Inv capacity empty :=
  ⟨wf_nil, forall_mem_nil _⟩

section

variable (h : b.Inv capacity)
include h

private theorem Inv.of_subset {q : ChunkQueue UInt8} (hw : q.WF)
    (hsu : ∀ c ∈ q.chunks, c ∈ b.chunks) : Inv capacity ⟨q⟩ :=
  ⟨hw, fun c hc => h.fill_le c (hsu c hc)⟩

private theorem Inv.commitWrite (hne : b.chunks ≠ [])
    (hro : b.tailFill + data.length ≤ capacity.size) :
    (b.commitWrite data).Inv capacity ∧ (b.commitWrite data).contents = b.contents ++ data := by
  obtain ⟨chunks, position⟩ := b
  rcases eq_nil_or_concat chunks with hni | ⟨xs, c, rfl⟩
  · exact absurd hni hne
  have hw := h.wf
  have hfi := h.fill_le
  rw [tailFill] at hro
  simp only [concat_eq_append, getLastD_concat] at hw hfi hro
  simp only [commitWrite, concat_eq_append, appendLast_concat]
  have hap := hw.append data
  refine ⟨⟨hap.1, fun d hd => ?_⟩, hap.2⟩
  rcases mem_append.mp hd with hd | hd
  · exact hfi d (mem_append_left [c] hd)
  · rw [mem_singleton.mp hd, length_append]
    exact hro

private theorem Inv.appendBuffer_commitWrite (hro : data.length ≤ capacity.size)
    (hda : b.chunks = [] ∨ 0 < b.tailFill ∧ data ≠ []) :
    (b.appendBuffer.commitWrite data).Inv capacity ∧
      (b.appendBuffer.commitWrite data).contents = b.contents ++ data := by
  have hal : b.chunks = [] ∨ data ≠ [] ∧ ∀ c ∈ b.chunks, c ≠ [] := by
    rcases hda with hni | ⟨hfi, hda⟩
    · exact .inl hni
    right
    refine ⟨hda, ?_⟩
    rcases h.wf.ne_nil with ho | hal
    · -- a single chunk is the last one
      intro c hc hcn
      have hsi : b.chunks = [c] := by
        obtain ⟨d, hd⟩ := length_eq_one_iff.mp
          (Nat.le_antisymm ho (length_pos_of_mem hc))
        rw [hd] at hc ⊢
        rw [mem_singleton.mp hc]
      rw [tailFill, hsi, hcn] at hfi
      exact absurd hfi (Nat.lt_irrefl 0)
    · exact hal
  simp only [GrowingBuffer.commitWrite, appendBuffer, appendLast_concat]
  have hpu := h.wf.push hal
  refine ⟨⟨hpu.1, fun d hd => ?_⟩, hpu.2⟩
  rcases mem_append.mp hd with hd | hd
  · exact h.fill_le d hd
  · rw [mem_singleton.mp hd]
    exact hro

private theorem Inv.tailFill_le : b.tailFill ≤ capacity.size := by
  rw [tailFill]
  rcases eq_nil_or_concat b.chunks with hni | ⟨xs, c, hc⟩
  · rw [hni]
    exact Nat.zero_le _
  · rw [hc, concat_eq_append, getLastD_concat]
    apply h.fill_le
    rw [hc, concat_eq_append]
    exact mem_append_right xs mem_cons_self

private theorem Inv.writeSmall (hro : data.length ≤ capacity.size) :
    (b.writeSmall capacity data).Inv capacity ∧
      (b.writeSmall capacity data).contents = b.contents ++ data := by
  have hf := h.tailFill_le
  rw [GrowingBuffer.writeSmall, beginWrite]
  split
  next hfu =>
    apply h.appendBuffer_commitWrite hro
    rcases hfu with hni | hfu
    · exact .inl hni
    right
    constructor
    · omega
    · intro hd
      rw [hd, length_nil] at hfu
      omega
  next hfi =>
    apply h.commitWrite
    · exact fun hni => hfi (.inl hni)
    · have hle : ¬capacity.size < b.tailFill + data.length := fun hlt => hfi (.inr hlt)
      omega

private theorem Inv.writeSome {src : List UInt8} (hsr : src ≠ []) :
    (b.writeSome capacity src).1.Inv capacity ∧
      (b.writeSome capacity src).1.contents = b.contents ++ src.take (b.writeSome capacity src).2 ∧
      0 < (b.writeSome capacity src).2 := by
  have hf := h.tailFill_le
  have hc := capacity.size_pos
  have hle : 0 < src.length := length_pos_iff.mpr hsr
  have hn : b.appendBuffer.tailFill = 0 := by
    rw [tailFill, appendBuffer, getLastD_concat]
    rfl
  rw [GrowingBuffer.writeSome, writable]
  split
  next hfu =>
    rw [hn]
    have ht : 0 < min capacity.size src.length := by omega
    have hw : (b.appendBuffer.commitWrite (src.take (min capacity.size src.length))).Inv
          capacity ∧
        (b.appendBuffer.commitWrite (src.take (min capacity.size src.length))).contents =
          b.contents ++ src.take (min capacity.size src.length) := by
      apply h.appendBuffer_commitWrite
      · rw [length_take]
        omega
      · rcases hfu with hni | hfu
        · exact .inl hni
        right
        constructor
        · omega
        · apply length_pos_iff.mp
          rw [length_take]
          omega
    exact ⟨hw.1, hw.2, ht⟩
  next hfi =>
    have hd : b.tailFill + (src.take (min (capacity.size - b.tailFill) src.length)).length ≤
        capacity.size := by
      rw [length_take]
      omega
    have hw := h.commitWrite (fun hni => hfi (.inl hni)) hd
    refine ⟨hw.1, hw.2, ?_⟩
    omega

omit h in
private theorem writeLoop_spec (fuel : Nat) :
    ∀ {b : GrowingBuffer} {src : List UInt8}, b.Inv capacity → src.length ≤ fuel →
      ∃ b', writeLoop capacity fuel b src = some b' ∧ b'.Inv capacity ∧
        b'.contents = b.contents ++ src := by
  induction fuel with
  | zero =>
    intro b src h hle
    rw [length_eq_zero_iff.mp (Nat.le_zero.mp hle), append_nil]
    exact ⟨b, by rw [writeLoop], h, rfl⟩
  | succ fuel ih =>
    intro b src h hle
    cases src with
    | nil =>
      rw [append_nil]
      exact ⟨b, by rw [writeLoop], h, rfl⟩
    | cons c src =>
      obtain ⟨hi, hc, hpo⟩ := h.writeSome (cons_ne_nil c src)
      have hr : ((c :: src).drop (b.writeSome capacity (c :: src)).2).length ≤ fuel := by
        rw [length_drop]
        omega
      obtain ⟨b', hlo, hi', hc'⟩ := ih hi hr
      refine ⟨b', hlo, hi', ?_⟩
      rw [hc', hc, append_assoc, take_append_drop]

private theorem Inv.write (src : List UInt8) :
    ∃ b', b.write capacity src = some b' ∧ b'.Inv capacity ∧ b'.contents = b.contents ++ src :=
  writeLoop_spec src.length h (Nat.le_refl _)

private theorem Inv.reserve (hni : b.chunks = []) {junk : List UInt8}
    (hro : junk.length ≤ capacity.size) :
    (b.reserve capacity junk).Inv capacity ∧ (b.reserve capacity junk).contents = b.contents := by
  have hc : (b.writeSmall capacity junk).chunks = [junk] := by
    rw [GrowingBuffer.writeSmall, beginWrite, appendBuffer, hni]
    rfl
  have hfi := (h.writeSmall hro).1.fill_le
  constructor
  · constructor
    · constructor
      · show junk.length ≤ ((b.writeSmall capacity junk).chunks.headD []).length
        rw [hc]
        exact Nat.le_refl _
      · left
        show (b.writeSmall capacity junk).chunks.length ≤ 1
        rw [hc]
        exact Nat.le_refl 1
    · exact hfi
  · show (b.writeSmall capacity junk).chunks.flatten.drop junk.length = b.chunks.flatten.drop _
    rw [hc, hni, flatten_singleton, drop_length, flatten_nil, drop_nil]

private theorem Inv.prepend (hle : data.length ≤ b.position) (hne : b.chunks ≠ []) :
    (b.prepend data).Inv capacity ∧ (b.prepend data).contents = data ++ b.contents := by
  obtain ⟨⟨chunks, position⟩⟩ := b
  cases chunks with
  | nil => exact absurd rfl hne
  | cons c rest =>
    have hpo : position ≤ c.length := h.wf.position_le
    have hda : data.length ≤ position := hle
    have hl : (c.take (position - data.length) ++ data ++
        c.drop (position - data.length + data.length)).length = c.length := by
      rw [length_append, length_append, length_take, length_drop]
      omega
    have hb : position - data.length + data.length = position := by omega
    have hp' : position - data.length ≤ c.length := by omega
    constructor
    · constructor
      · constructor
        · show position - data.length ≤ (c.take (position - data.length) ++ data ++
            c.drop (position - data.length + data.length)).length
          rw [hl]
          exact hp'
        · rcases h.wf.ne_nil with ho | hal
          · exact .inl ho
          right
          intro d hd
          rcases mem_cons.mp hd with rfl | hd
          · apply length_pos_iff.mp
            rw [hl]
            exact length_pos_iff.mpr (hal c mem_cons_self)
          · exact hal d (mem_cons_of_mem c hd)
      · intro d hd
        rcases mem_cons.mp hd with rfl | hd
        · rw [hl]
          exact h.fill_le c mem_cons_self
        · exact h.fill_le d (mem_cons_of_mem c hd)
    · show contents { chunks := _ :: rest, position := position - data.length } = _
      rw [contents_cons (hl.symm ▸ hp'), hb, append_assoc,
        drop_append, drop_eq_nil_of_le (length_take_le _ _), nil_append,
        length_take, Nat.min_eq_left hp', Nat.sub_self, drop_zero,
        contents_cons hpo, append_assoc]

private theorem Inv.call {e : GrowingBufferEvent} (hl : b.Legal capacity e) :
    ∃ b', b.call capacity e = some b' ∧ b'.Inv capacity ∧ b'.contents = e.apply b.contents := by
  cases e with
  | reserve junk => exact ⟨_, rfl, h.reserve hl.1 hl.2⟩
  | prepend data => exact ⟨_, rfl, h.prepend hl.1 hl.2⟩
  | write src => exact h.write src
  | writeSmall data => exact ⟨_, rfl, h.writeSmall hl⟩
  | consume length =>
    have hsp := consume_spec h.wf hl
    have hsu := consume_suffix b.toChunkQueue length
    exact ⟨_, rfl, h.of_subset hsp.1 fun c hc => hsu.subset hc, hsp.2.2⟩
  | skip length =>
    have hle : length ≤ b.contents.length := b.getSize_eq ▸ hl
    obtain ⟨q', hsk, hw, -, hco⟩ := skipLoop_spec b.chunks h.wf hle
    have hsu := skipLoop_suffix b.chunks hsk
    refine ⟨⟨q'⟩, ?_, h.of_subset hw fun c hc => hsu.subset hc, hco⟩
    show (skipLoop b.chunks b.position length).map _ = _
    rw [hsk]
    rfl
  | consumeBucketList nbytes =>
    have hsp := consumeUpToLoop_spec b.chunks nbytes 0 h.wf
    have hsu := consumeUpToLoop_suffix b.chunks b.position nbytes 0
    exact ⟨_, rfl, h.of_subset hsp.1 fun c hc => hsu.subset hc, hsp.2.2.1⟩

end

private theorem run_spec {es : List GrowingBufferEvent} (h : Run (Step capacity) empty es b) :
    b.Inv capacity ∧ b.contents = queueOf es := by
  induction h with
  | nil => exact ⟨inv_empty, rfl⟩
  | snoc _ hst ih =>
    obtain ⟨b', hca, hi, hc⟩ := ih.1.call hst.1
    rw [Option.some.inj (hst.2.symm.trans hca), queueOf, foldl_append, ← queueOf, ← ih.2]
    exact ⟨hi, hc⟩

/-- The first chunk is nothing but reserved space, and there is another one. -/
def ReservedFirst (b : GrowingBuffer) : Prop :=
  2 ≤ b.chunks.length ∧ (b.chunks.headD []).length ≤ b.position
  deriving Decidable

end GrowingBuffer

namespace GrowingBufferReader

variable {r : GrowingBufferReader}

/-- What a reader that has a queue in front of it does: it counts and shows the bytes, it reads a
beginning of them, and every call that is allowed returns. -/
structure Shows (r : GrowingBufferReader) (queue : List UInt8) : Prop where
  available_eq : r.available = queue.length
  fillBucketList_eq : r.fillBucketList.flatten = queue
  read_prefix : r.read <+: queue
  eq_nil_of_read : r.read = [] → queue = []
  isEof_iff : r.isEof = true ↔ queue = []
  consumed_eq : ∀ nbytes, (r.consumeBucketList nbytes).2 = min nbytes queue.length
  returns : ∀ e, r.Legal e → ∃ r', r.call e = some r'

/-- At the end, or in a chunk that the contents begin in. -/
def Ready (r : GrowingBufferReader) : Prop :=
  r.chunks = [] ∨ r.toChunkQueue.WF ∧ r.toChunkQueue.Live

private theorem flatten_fillBucketList (r : GrowingBufferReader) :
    r.fillBucketList.flatten = r.contents := by
  rw [fillBucketList, forEachBuffer, flatten_pieces]
  rfl

private theorem available_eq (r : GrowingBufferReader) : r.available = r.contents.length := by
  rw [available, foldl_length, ← flatten_fillBucketList]
  rfl

/-- Every call that is allowed returns, keeps the reader ready and consumes what it says. -/
theorem Ready.call (h : r.Ready) {e : ReaderEvent} (hl : r.Legal e) :
    ∃ r', r.call e = some r' ∧ r'.Ready ∧ r'.contents = r.contents.drop e.length := by
  obtain ⟨⟨chunks, position⟩⟩ := r
  rcases h with hni | ⟨hw, hli⟩
  · -- nothing is left, and no call changes that
    have hc : chunks = [] := hni
    subst hc
    have he : ∀ n, ({ chunks := [], position } : ChunkQueue UInt8).contents.drop n =
        ({ chunks := [], position } : ChunkQueue UInt8).contents := by
      intro n
      rw [contents, flatten_nil, drop_nil, drop_nil]
    cases e with
    | consume length =>
      have hz : length = 0 := Nat.le_zero.mp hl
      subst hz
      exact ⟨_, rfl, .inl rfl, (he 0).symm⟩
    | skip length =>
      have hz : length = 0 := by
        have hle : length ≤ available ⟨⟨[], position⟩⟩ := hl
        exact Nat.le_zero.mp hle
      subst hz
      exact ⟨_, rfl, .inl rfl, (he 0).symm⟩
    | consumeBucketList nbytes => exact ⟨_, rfl, .inl rfl, (he nbytes).symm⟩
  · cases e with
    | consume length =>
      have hsp := consume_spec hw hl
      exact ⟨_, rfl, .inr ⟨hsp.1, hsp.2.1 hli⟩, hsp.2.2⟩
    | skip length =>
      have hle : length ≤ ({ chunks, position } : ChunkQueue UInt8).contents.length :=
        available_eq ⟨⟨chunks, position⟩⟩ ▸ hl
      obtain ⟨q', hsk, hw', hl', hco⟩ := skipLoop_spec chunks hw hle
      refine ⟨⟨q'⟩, ?_, .inr ⟨hw', hl' hli⟩, hco⟩
      show (skipLoop chunks position length).map _ = _
      rw [hsk]
      rfl
    | consumeBucketList nbytes =>
      have hsp := consumeUpToLoop_spec chunks nbytes 0 hw
      exact ⟨_, rfl, .inr ⟨hsp.1, hsp.2.1 hli⟩, hsp.2.2.1⟩

private theorem Ready.run (h : r.Ready) {es : List ReaderEvent} {r' : GrowingBufferReader}
    (hru : Run Step r es r') : r'.Ready ∧ r'.contents = queueAfter r.contents es := by
  induction hru with
  | nil => exact ⟨h, rfl⟩
  | snoc _ hst ih =>
    obtain ⟨r'', hca, hre, hc⟩ := ih.1.call hst.1
    rw [Option.some.inj (hst.2.symm.trans hca), queueAfter, foldl_append]
    refine ⟨hre, ?_⟩
    rw [hc, ih.2]
    rfl

/-- A reader that is ready shows its contents. -/
theorem Ready.shows (h : r.Ready) : r.Shows r.contents where
  available_eq := r.available_eq
  fillBucketList_eq := r.flatten_fillBucketList
  read_prefix := by
    rcases h with hni | ⟨hw, -⟩
    · rw [read, ChunkQueue.read, hni]
      exact nil_prefix
    · exact read_prefix hw
  eq_nil_of_read := by
    intro hre
    rcases h with hni | ⟨-, hli⟩
    · rw [contents, hni, flatten_nil, drop_nil]
    · exact contents_eq_nil_of_read hli hre
  isEof_iff := by
    obtain ⟨⟨chunks, position⟩⟩ := r
    cases chunks with
    | nil => simp [isEof, contents]
    | cons c rest =>
      rcases h with hni | ⟨-, hli⟩
      · exact absurd hni (cons_ne_nil c rest)
      have hlt : position < c.length := hli (cons_ne_nil c rest)
      rw [contents_cons (Nat.le_of_lt hlt)]
      have hne : c.drop position ≠ [] := by
        intro hd
        have hle := drop_eq_nil_iff.mp hd
        omega
      simp only [isEof, beq_iff_eq, append_eq_nil_iff, hne, false_and, iff_false]
      omega
  consumed_eq := by
    intro nbytes
    obtain ⟨⟨chunks, position⟩⟩ := r
    rcases h with hni | ⟨hw, -⟩
    · have hu : chunks = [] := hni
      subst hu
      show 0 = min nbytes (contents { chunks := [], position }).length
      rw [contents, flatten_nil, drop_nil, length_nil, Nat.min_zero]
    · have hsp := consumeUpToLoop_spec chunks nbytes 0 hw
      rw [Nat.zero_add] at hsp
      exact hsp.2.2.2
  returns := by
    intro e hl
    obtain ⟨r', hc, -⟩ := h.call hl
    exact ⟨r', hc⟩

/-- A new reader has the contents of the buffer, if the buffer does not begin with a chunk of
reserved space before another one. -/
theorem ready_new {b : GrowingBuffer} (h : b.toChunkQueue.WF) (hfi : ¬b.ReservedFirst) :
    (new b).Ready ∧ (new b).contents = b.contents := by
  obtain ⟨⟨chunks, position⟩⟩ := b
  cases chunks with
  | nil => exact ⟨.inl rfl, rfl⟩
  | cons c rest =>
    rw [new]
    simp only
    split
    next hle =>
      cases rest with
      | nil =>
        refine ⟨.inl rfl, ?_⟩
        rw [contents, contents, flatten_nil, drop_nil, flatten_singleton, drop_eq_nil_of_le hle]
      | cons d rest =>
        apply absurd _ hfi
        exact ⟨by simp, hle⟩
    next hlt => exact ⟨.inr ⟨h, fun _ => Nat.lt_of_not_le hlt⟩, rfl⟩

private theorem available_new_lt {b : GrowingBuffer} (h : b.toChunkQueue.WF)
    (hfi : b.ReservedFirst) :
    (new b).available < b.contents.length := by
  obtain ⟨⟨chunks, position⟩⟩ := b
  rcases h.ne_nil with ho | hal
  · have ht := hfi.1
    omega
  match chunks, h, hfi, hal with
  | c :: d :: rest, h, hfi, hal =>
    have hpo : position ≤ c.length := h.position_le
    have hle : c.length ≤ position := hfi.2
    have hc : 0 < c.length := length_pos_iff.mpr (hal c mem_cons_self)
    have hd : 0 < d.length := length_pos_iff.mpr (hal d (mem_cons_of_mem c mem_cons_self))
    have hn : new ⟨⟨c :: d :: rest, position⟩⟩ = ⟨⟨d :: rest, position⟩⟩ := if_pos hle
    rw [available_eq, hn, contents_cons hpo, contents, length_drop, length_append,
      flatten_cons, length_append]
    show d.length + rest.flatten.length - position < _
    omega

/-- **A growing buffer is a queue of bytes.** After every run of allowed calls the contents are
the bytes that have been written and not been consumed, and further calls return. A reader that is
constructed from the buffer reads them, along every run of its own, if and only if the buffer does
not begin with a chunk of reserved space before another one. -/
theorem growingBuffer_queue_iff {capacity : ChunkCapacity} {es : List GrowingBufferEvent}
    {b : GrowingBuffer} (h : Run (GrowingBuffer.Step capacity) .empty es b) :
    (b.getSize = (queueOf es).length ∧ b.dup = queueOf es ∧
      (∀ skip, (b.fillBucketList skip).flatten = (queueOf es).drop skip) ∧
      ∀ e, b.Legal capacity e → ∃ b', b.call capacity e = some b') ∧
    ((∀ rs r, Run Step (new b) rs r → r.Shows (queueAfter (queueOf es) rs)) ↔
      ¬b.ReservedFirst) := by
  obtain ⟨hi, hco⟩ := run_spec h
  rw [← hco]
  refine ⟨⟨b.getSize_eq, b.dup_eq, b.fillBucketList_eq, fun e hle => ?_⟩, ?_, ?_⟩
  · obtain ⟨b', hc, -⟩ := hi.call hle
    exact ⟨b', hc⟩
  · intro hsh hfi
    have hlt := available_new_lt hi.wf hfi
    have he : (new b).available = b.contents.length := (hsh [] (new b) .nil).available_eq
    omega
  · intro hfi rs r hru
    obtain ⟨hre, hnew⟩ := ready_new hi.wf hfi
    obtain ⟨hr', hr⟩ := hre.run hru
    rw [← hnew, ← hr]
    exact hr'.shows

/-- Chunks of four bytes. -/
def fourBytes : ChunkCapacity := ⟨4, by decide⟩

private theorem run_reserve_write {junk : List UInt8} {c : UInt8} {b : GrowingBuffer}
    (hj : junk.length ≤ 4)
    (hb : (empty.reserve fourBytes junk).write fourBytes [c] = some b) :
    Run (GrowingBuffer.Step fourBytes) .empty [.reserve junk, .write [c]] b :=
  .cons ⟨⟨rfl, hj⟩, rfl⟩ (.cons ⟨trivial, hb⟩ .nil)

/-- A reader of a buffer with three reserved bytes and one that follows them. -/
theorem growingBuffer_queue_same_chunk :
    (new { chunks := [[0, 0, 0, 1]], position := 3 }).Shows [1] := by
  have hru : Run (GrowingBuffer.Step fourBytes) .empty [.reserve [0, 0, 0], .write [1]]
      { chunks := [[0, 0, 0, 1]], position := 3 } :=
    run_reserve_write (by decide) (by decide +kernel)
  exact (growingBuffer_queue_iff hru).2.mpr (by decide) [] _ .nil

/-- Four bytes are reserved and one is written: it is in the buffer, and the reader does not see
it. -/
theorem reserved_first_lost :
    Run (GrowingBuffer.Step fourBytes) .empty [.reserve [0, 0, 0, 0], .write [1]]
        { chunks := [[0, 0, 0, 0], [1]], position := 4 } ∧
      dup { chunks := [[0, 0, 0, 0], [1]], position := 4 } = [1] ∧
      (new { chunks := [[0, 0, 0, 0], [1]], position := 4 }).available = 0 ∧
      (new { chunks := [[0, 0, 0, 0], [1]], position := 4 }).fillBucketList = [] :=
  ⟨run_reserve_write (by decide) (by decide +kernel), by decide, by decide, by decide⟩

end GrowingBufferReader

end BengProxy.Memory
