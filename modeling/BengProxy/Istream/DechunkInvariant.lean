import BengProxy.Istream.Dechunk
import Mathlib.Algebra.BigOperators.Group.List.Basic
import Mathlib.Data.List.Infix

/-!
# What the queue of chunk boundaries means

`Ahead d seen todo`: `seen` is the part of the body that was parsed but not yet consumed, and
`todo` is what comes behind it. The queue, with the pending header behind it, gives the marks
of `seen`, and the parser accepts `todo`.
-/

namespace BengProxy.Istream

open Base Marked Http List

variable {chunk : ParsedChunk} {chunks : List ParsedChunk} {rest : List UInt8}

/-- The marks of the bytes that the queue describes. -/
def chunkMarks (chunks : List ParsedChunk) : List Bool :=
  chunks.flatMap fun chunk => replicate chunk.header false ++ replicate chunk.data true

@[simp] theorem chunkMarks_nil : chunkMarks [] = [] := rfl

@[simp] theorem chunkMarks_cons (chunk : ParsedChunk) (chunks : List ParsedChunk) :
    chunkMarks (chunk :: chunks) =
      replicate chunk.header false ++ replicate chunk.data true ++ chunkMarks chunks :=
  rfl

@[simp] theorem chunkMarks_append (xs ys : List ParsedChunk) :
    chunkMarks (xs ++ ys) = chunkMarks xs ++ chunkMarks ys := flatMap_append

/-- A well-formed queue: no chunk is empty, and there are at most eight. -/
structure QueueOk (chunks : List ParsedChunk) : Prop where
  chunk_pos : ∀ chunk ∈ chunks, 0 < chunk.header + chunk.data
  length_le : chunks.length ≤ maxChunks

private theorem QueueOk.single (h : 0 < chunk.header + chunk.data) :
    QueueOk [chunk] where
  chunk_pos c hc := by rwa [mem_singleton.mp hc]
  length_le := Nat.succ_le_of_lt (Nat.zero_lt_succ 7)

theorem QueueOk.tail (h : QueueOk (chunk :: chunks)) : QueueOk chunks where
  chunk_pos c hc := h.chunk_pos c (mem_cons_of_mem _ hc)
  length_le := Nat.le_of_succ_le h.length_le

theorem QueueOk.replace_front {chunk' : ParsedChunk}
    (h : QueueOk (chunk :: chunks)) (hc : 0 < chunk'.header + chunk'.data) :
    QueueOk (chunk' :: chunks) where
  chunk_pos c hm := by
    rcases mem_cons.mp hm with rfl | hm
    · exact hc
    · exact h.chunk_pos c (mem_cons_of_mem _ hm)
  length_le := h.length_le

private theorem QueueOk.replace_back {init : List ParsedChunk} {back : ParsedChunk}
    (h : QueueOk (init ++ [back])) (hc : 0 < chunk.header + chunk.data) :
    QueueOk (init ++ [chunk]) where
  chunk_pos c hm := by
    rcases mem_append.mp hm with hm | hm
    · exact h.chunk_pos c (mem_append_left _ hm)
    · rwa [mem_singleton.mp hm]
  length_le := by
    have hl := h.length_le
    rwa [length_append] at hl ⊢

private theorem QueueOk.push (h : QueueOk chunks)
    (hle : chunks.length < maxChunks) (hc : 0 < chunk.header + chunk.data) :
    QueueOk (chunks ++ [chunk]) where
  chunk_pos c hm := by
    rcases mem_append.mp hm with hm | hm
    · exact h.chunk_pos c hm
    · rwa [mem_singleton.mp hm]
  length_le := by
    rw [length_append]
    exact hle

namespace DechunkIstream

/-- The queue describes `seen`, and the parser is in front of `todo`. -/
structure Describes (d : DechunkIstream) (seen todo : List (UInt8 × Bool)) : Prop where
  marks_eq : marks seen = chunkMarks d.chunks ++ replicate d.pendingHeader false
  accepts : d.parser.Accepts todo
  parsed : d.parsedInput = seen.length
  endSeen : d.endSeen = if d.parser.hasEnded then 1 else 0

/-- The same, with a well-formed queue. -/
structure Ahead (d : DechunkIstream) (seen todo : List (UInt8 × Bool)) : Prop
    extends Describes d seen todo where
  queue : QueueOk d.chunks

/-- `parsed_input` accounts for the queue and the pending header. -/
def Balanced (d : DechunkIstream) : Prop :=
  d.parsedInput = d.pendingHeader + (d.chunks.map fun chunk => chunk.header + chunk.data).sum

/-- A pending header means that the queue is not empty. -/
def Settled (d : DechunkIstream) : Prop := d.chunks = [] → d.pendingHeader = 0

variable {d d' : DechunkIstream} {seen todo : List (UInt8 × Bool)}

private theorem length_chunkMarks (chunks : List ParsedChunk) :
    (chunkMarks chunks).length = (chunks.map fun chunk => chunk.header + chunk.data).sum := by
  induction chunks with
  | nil => rfl
  | cons chunk chunks ih =>
    simp only [chunkMarks_cons, length_append, length_replicate, ih, map_cons, sum_cons]

theorem Describes.balanced (h : Describes d seen todo) : d.Balanced := by
  have hl := congrArg length h.marks_eq
  rw [length_marks, length_append, length_chunkMarks, length_replicate] at hl
  rw [Balanced, h.parsed, hl, add_comm]

private theorem addHeader_cases (d : DechunkIstream) {size : Nat} (h0 : 0 < size)
    (hq : QueueOk d.chunks) :
    (d.addHeader size = none ∧ d.chunks ≠ []) ∨
      ∃ chunks, d.addHeader size = some { d with chunks } ∧ QueueOk chunks ∧
        chunkMarks chunks = chunkMarks d.chunks ++ replicate size false := by
  rcases eq_nil_or_concat d.chunks with hni | ⟨init, back, hc⟩
  · right
    refine ⟨[{ header := size }], by simp [addHeader, hni], ?_, by simp [hni]⟩
    exact QueueOk.single (by simpa using h0)
  rw [concat_eq_append] at hc
  have hla : d.chunks.getLast? = some back := by simp [hc]
  have hd : d.chunks.dropLast = init := by simp [hc]
  simp only [addHeader, hla, hd]
  by_cases hb : back.data = 0
  · right
    refine ⟨init ++ [{ back with header := back.header + size }], by rw [if_pos hb], ?_, ?_⟩
    · rw [hc] at hq
      apply hq.replace_back
      simp only
      omega
    · rw [hc]
      simp [hb]
  rw [if_neg hb]
  by_cases hfu : d.chunks.length < maxChunks
  · right
    refine ⟨d.chunks ++ [{ header := size }], by rw [if_pos hfu], ?_, by simp⟩
    exact hq.push hfu (by simpa using h0)
  · left
    exact ⟨by rw [if_neg hfu], by simp [hc]⟩

private theorem addData_spec (d : DechunkIstream) {size : Nat} (h0 : 0 < size)
    (hq : QueueOk d.chunks) :
    ∃ chunks, d.addData size = { d with chunks } ∧ QueueOk chunks ∧
      chunkMarks chunks = chunkMarks d.chunks ++ replicate size true := by
  rcases eq_nil_or_concat d.chunks with hni | ⟨init, back, hc⟩
  · refine ⟨[{ data := size }], by simp [addData, hni], ?_, by simp [hni]⟩
    exact QueueOk.single (by simpa using h0)
  rw [concat_eq_append] at hc
  have hla : d.chunks.getLast? = some back := by simp [hc]
  have hd : d.chunks.dropLast = init := by simp [hc]
  refine ⟨init ++ [{ back with data := back.data + size }], ?_, ?_, ?_⟩
  · simp only [addData, hla, hd]
  · rw [hc] at hq
    apply hq.replace_back
    simp only
    omega
  · rw [hc]
    simp

/-- Applying the pending header fails only if the queue is not empty. -/
theorem Ahead.applyPending (h : Ahead d seen todo) : (d.applyPending = none ∧ d.chunks ≠ []) ∨
      ∃ chunks, d.applyPending = some { d with chunks, pendingHeader := 0 } ∧
        Ahead { d with chunks, pendingHeader := 0 } seen todo := by
  unfold DechunkIstream.applyPending
  by_cases h0 : 0 < d.pendingHeader
  · rw [if_pos h0]
    obtain ⟨hn, hc⟩ | ⟨chunks, hs, hq, hm⟩ := addHeader_cases d h0 h.queue
    · left
      exact ⟨by rw [hn]; rfl, hc⟩
    · right
      refine ⟨chunks, by rw [hs]; rfl, ⟨?_, h.accepts, h.parsed, h.endSeen⟩, hq⟩
      rw [h.marks_eq, ← hm]
      simp
  · right
    have hp : d.pendingHeader = 0 := by omega
    refine ⟨d.chunks, ?_, ⟨?_, h.accepts, h.parsed, h.endSeen⟩, h.queue⟩
    · rw [if_neg h0, ← hp]
    · rw [h.marks_eq, hp]

/-- Parsing does not touch the handler state. -/
structure Frames (d d' : DechunkIstream) : Prop where
  eofPending_eq : d'.eofPending = d.eofPending
  hasInput_eq : d'.hasInput = d.hasInput
  ends_eq : d'.ends = d.ends

theorem Frames.refl (d : DechunkIstream) : Frames d d := ⟨rfl, rfl, rfl⟩

theorem Frames.trans {d'' : DechunkIstream} (h : Frames d d') (h' : Frames d' d'') :
    Frames d d'' :=
  ⟨h'.1.trans h.1, h'.2.trans h.2, h'.3.trans h.3⟩

private theorem Ahead.chunks_ne_nil (h : Ahead d seen todo) (hp : d.pendingHeader = 0)
    (hs : seen ≠ []) :
    d.chunks ≠ [] := by
  intro hc
  have hm := h.marks_eq
  rw [hc, hp] at hm
  exact hs (map_eq_nil_iff.mp hm)

private theorem Ahead.parseOnce {src : List UInt8} (h : Ahead d seen todo)
    (he : d.parser.hasEnded = false) (hsr : src <+: raw todo ++ rest) (hne : src ≠ []) :
    ∃ d' new todo' next, d.parseOnce src = .ok (d', next) ∧ todo = new ++ todo' ∧
      new.length ≤ src.length ∧ Ahead d' (seen ++ new) todo' ∧ d'.chunks ≠ [] ∧ Frames d d' ∧
      ∀ src', next = some src' →
        src' = src.drop new.length ∧ 0 < new.length ∧ d'.parser.hasEnded = false := by
  obtain ⟨xs, ys, p', todo', hp, hf⟩ := h.accepts.parse he hsr 0
  have hle := hf.length_le
  have hpr := hf.progress hne
  have hse := h.endSeen
  rw [he] at hse
  simp only [DechunkIstream.parseOnce, hp, zero_add]
  generalize hd1 : ({ d with
    parser := p'
    endSeen := if p'.hasEnded then d.endSeen + 1 else d.endSeen
    parsedInput := d.parsedInput + xs.length
    pendingHeader := d.pendingHeader + xs.length } : DechunkIstream) = d1
  have h1 : Ahead d1 (seen ++ framing xs) (data ys ++ todo') := by
    subst hd1
    refine ⟨⟨?_, hf.accepts, ?_, ?_⟩, h.queue⟩
    · rw [marks_append, h.marks_eq, marks_framing, append_assoc, replicate_append_replicate]
    · simp [h.parsed, framing]
    · simp only [hse]
      rfl
  have hfr : Frames d d1 := by
    subst hd1
    exact ⟨rfl, rfl, rfl⟩
  have hp1 : d1.parser = p' := by rw [← hd1]
  obtain ⟨hn, hc⟩ | ⟨chunks, hs, h2⟩ := h1.applyPending
  · -- no room for the header: stop in front of the data
    refine ⟨d1, framing xs, data ys ++ todo', none, by rw [hn], ?_, ?_, h1, hc, hfr, by simp⟩
    · rw [hf.todo_eq, append_assoc]
    · simp only [framing, length_map]
      omega
  rw [hs]
  by_cases hy : ys = []
  · subst hy
    have hxs : xs ≠ [] := by
      intro hx
      rw [hx] at hpr
      exact lt_irrefl _ hpr
    have hs' : seen ++ framing xs ≠ [] := by simp [framing, hxs]
    refine ⟨{ d1 with chunks, pendingHeader := 0 }, framing xs, todo',
      if p'.hasEnded then none else some (src.drop xs.length), ?_, ?_, ?_, h2,
      h2.chunks_ne_nil rfl hs', ?_, ?_⟩
    · simp only [length_nil, lt_irrefl, if_false, hp1]
      split <;> rfl
    · rw [hf.todo_eq]
      simp [data]
    · simp only [framing, length_map]
      omega
    · exact ⟨hfr.1, hfr.2, hfr.3⟩
    · intro src' hn
      split at hn
      · cases hn
      next hen =>
      cases hn
      refine ⟨by simp [framing], by simpa [framing] using hpr, ?_⟩
      rw [hp1]
      exact Bool.eq_false_iff.mpr hen
  have hst := hf.accepts.state_of_data hy
  have hpo : 0 < ys.length := length_pos_iff.mpr hy
  obtain ⟨chunks', ha, hq, hm⟩ := addData_spec _ hpo h2.queue
  have hen := HttpChunkParser.hasEnded_consume ys.length hst
  have h3 : Ahead { d1 with
      chunks := chunks'
      pendingHeader := 0
      parsedInput := d1.parsedInput + ys.length
      parser := d1.parser.consume ys.length } (seen ++ (framing xs ++ data ys)) todo' := by
    refine ⟨⟨?_, ?_, ?_, ?_⟩, hq⟩
    · have hm2 := h2.marks_eq
      simp only [replicate_zero, append_nil] at hm2 ⊢
      rw [← append_assoc, marks_append, hm2, hm, marks_data]
    · rw [hp1]
      exact hf.in_data hy
    · simp only [h1.parsed]
      simp [data, add_assoc]
    · simp only [hp1, hen, h1.endSeen]
      simp [HttpChunkParser.hasEnded, hst]
  refine ⟨_, framing xs ++ data ys, todo', some (src.drop (xs.length + ys.length)), ?_, ?_, ?_,
    h3, h3.chunks_ne_nil rfl ?_, ⟨hfr.1, hfr.2, hfr.3⟩, ?_⟩
  · simp only [hpo, if_true, ha]
    rw [hp1, hen]
    rfl
  · rw [hf.todo_eq]
  · simp only [framing, data, length_append, length_map]
    omega
  · simp [data, hy]
  · rintro src' ⟨⟩
    refine ⟨by simp [framing, data], by simp [data]; omega, ?_⟩
    rw [hp1]
    exact hen

/-- Behind the part that was parsed, the input is a piece of the rest. -/
theorem drop_parsed {src : List UInt8} {new : List (UInt8 × Bool)}
    (h : src <+: raw (new ++ todo) ++ rest) : src.drop new.length <+: raw todo ++ rest := by
  have hd := h.drop (raw new).length
  rwa [raw_append, append_assoc, drop_left, length_raw] at hd

private theorem Ahead.parseLoop (fuel : Nat) :
    ∀ {d : DechunkIstream} {seen todo : List (UInt8 × Bool)} {src : List UInt8},
      Ahead d seen todo → d.parser.hasEnded = false → src <+: raw todo ++ rest →
      src.length ≤ fuel →
      ∃ b d' new todo', d.parseLoop fuel src = some (.ok (b, d')) ∧ todo = new ++ todo' ∧
        new.length ≤ src.length ∧ Ahead d' (seen ++ new) todo' ∧ Frames d d' ∧
        (src ≠ [] → d'.chunks ≠ []) ∧ (b = true → new.length = src.length) := by
  induction fuel with
  | zero =>
    intro d seen todo src h he hsr hf
    have hni : src = [] := eq_nil_of_length_eq_zero (by omega)
    subst hni
    exact ⟨true, d, [], todo, rfl, rfl, le_rfl, by rwa [append_nil], .refl d,
      fun hn => absurd rfl hn, fun _ => rfl⟩
  | succ fuel ih =>
    intro d seen todo src h he hsr hf
    cases src with
    | nil =>
      exact ⟨true, d, [], todo, rfl, rfl, le_rfl, by rwa [append_nil], .refl d,
        fun hn => absurd rfl hn, fun _ => rfl⟩
    | cons ch src =>
      obtain ⟨d1, new, todo1, next, hp, rfl, hle, h1, hc, hfr, hx⟩ :=
        h.parseOnce he hsr (cons_ne_nil _ _)
      simp only [DechunkIstream.parseLoop, hp]
      cases next with
      | none => exact ⟨false, d1, new, todo1, rfl, rfl, hle, h1, hfr, fun _ => hc, by simp⟩
      | some src' =>
        obtain ⟨rfl, hpo, he1⟩ := hx src' rfl
        obtain ⟨b, d', new', todo', hl, rfl, hl', h', hf', hc', hal⟩ :=
          ih h1 he1 (drop_parsed hsr) (by
            rw [length_drop]
            omega)
        refine ⟨b, d', new ++ new', todo', hl, by rw [append_assoc], ?_, ?_, hfr.trans hf', ?_, ?_⟩
        · rw [length_drop] at hl'
          rw [length_append]
          omega
        · rwa [← append_assoc]
        · intro _
          by_cases hni : drop new.length (ch :: src) = []
          · rw [hni] at hl
            cases fuel <;> cases hl <;> exact hc
          · exact hc' hni
        · intro hb
          have := hal hb
          rw [length_drop] at this
          rw [length_append]
          omega

theorem Ahead.parseInput {src : List UInt8} (h : Ahead d seen todo)
    (hsr : src <+: raw todo ++ rest) :
    ∃ b d' new todo', d.parseInput src = some (.ok (b, d')) ∧ todo = new ++ todo' ∧
      new.length ≤ src.length ∧ Ahead d' (seen ++ new) todo' ∧ Frames d d' ∧
      (src ≠ [] → d.parser.hasEnded = false → d'.chunks ≠ []) ∧
      (d.parser.hasEnded = true → d' = d) ∧ (b = true → new.length = src.length) := by
  unfold DechunkIstream.parseInput
  cases he : d.parser.hasEnded with
  | true =>
    exact ⟨false, d, [], todo, rfl, rfl, Nat.zero_le _, by rwa [append_nil], .refl d,
      by simp, fun _ => rfl, by simp⟩
  | false =>
    obtain ⟨b, d', new, todo', hl, ht, hle, h', hfr, hc, hal⟩ :=
      h.parseLoop src.length he hsr (le_rfl)
    exact ⟨b, d', new, todo', hl, ht, hle, h', hfr, fun hne _ => hc hne, by simp, hal⟩

end DechunkIstream
end BengProxy.Istream
