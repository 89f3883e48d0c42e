import BengProxy.Base.Segments
import BengProxy.Istream.Chunked

/-!
# What a chunking stream has emitted

`Coding format bytes emitted left c`: the bytes `emitted` so far, and the buffer behind them,
are a beginning of an encoding of `bytes`, of which `left` is still in the input.
-/

namespace BengProxy.Istream

open Base Http List Bool

namespace ChunkedIstream

/-- Where the stream is: between two chunks, inside a chunk of which `part` was emitted, or
behind the last byte of the input. -/
inductive Phase (format : Nat → List UInt8) (bytes emitted left : List UInt8)
    (c : ChunkedIstream) : Prop
  | between (chunks : List (List UInt8)) (hsizes : ChunkSizes maxChunkSize chunks)
      (hinput : c.hasInput = true) (hmissing : c.missing = 0) (hbuffer : c.buffer.length ≤ 2)
      (hbytes : chunks.flatten ++ left = bytes)
      (hemitted : emitted ++ c.buffer = encodeChunks format chunks)
  | inside (chunks : List (List UInt8)) (part : List UInt8)
      (hsizes : ChunkSizes maxChunkSize chunks) (hinput : c.hasInput = true)
      (hmissing : 0 < c.missing) (hleft : c.missing ≤ left.length)
      (hsize : part.length + c.missing ≤ maxChunkSize)
      (hbytes : chunks.flatten ++ part ++ left = bytes)
      (hemitted : emitted ++ c.buffer =
        encodeChunks format chunks ++ chunkHeader format (part.length + c.missing) ++ part)
  | ending (chunks : List (List UInt8)) (hsizes : ChunkSizes maxChunkSize chunks)
      (hinput : c.hasInput = false) (hmissing : c.missing = 0) (hleft : left = [])
      (hbytes : chunks.flatten = bytes)
      (hemitted : emitted ++ c.buffer = encodeChunks format chunks ++ eofChunk)

/-- The stream is in one of the phases, and its buffer is large enough. -/
structure Coding (format : Nat → List UInt8) (bytes emitted left : List UInt8)
    (c : ChunkedIstream) : Prop where
  phase : Phase format bytes emitted left c
  buffer_le : c.buffer.length ≤ bufferSize

variable {format : Nat → List UInt8} {bytes emitted left : List UInt8} {c : ChunkedIstream}

theorem Coding.new (format : Nat → List UInt8) (bytes : List UInt8) :
    Coding format bytes [] bytes {} where
  phase := .between [] (by simp [ChunkSizes]) rfl rfl (Nat.zero_le _) rfl rfl
  buffer_le := Nat.zero_le _

section

variable (h : Coding format bytes emitted left c)
include h

/-- Whatever was emitted is the beginning of an encoding. -/
theorem Coding.exists_encodes :
    ∃ encoded, Encodes format maxChunkSize encoded bytes ∧ emitted <+: encoded := by
  have hma : 0 < maxChunkSize := by decide
  cases h.phase with
  | between chunks hs _ _ _ hb hem =>
    obtain ⟨encoded, he, hpr⟩ := Http.exists_encodes format hs hma left
    rw [← hem] at hpr
    exact ⟨encoded, hb ▸ he, (prefix_append _ _).trans hpr⟩
  | inside chunks part hs _ hm hl hsi hb hem =>
    -- the chunk will be completed by the next bytes of the input
    have hle : (left.take c.missing).length = c.missing := length_take_of_le hl
    have hsizes' : ChunkSizes maxChunkSize (chunks ++ [part ++ left.take c.missing]) := by
      apply hs.concat
      · intro hni
        have h0 := congrArg List.length hni
        rw [length_append, length_nil] at h0
        omega
      · rwa [length_append, hle]
    obtain ⟨encoded, he, hpr⟩ := Http.exists_encodes format hsizes' hma (left.drop c.missing)
    have hal :
        (chunks ++ [part ++ left.take c.missing]).flatten ++ left.drop c.missing = bytes := by
      rw [← hb]
      simp
    rw [hal] at he
    refine ⟨encoded, he, ((prefix_append emitted c.buffer).trans ?_).trans hpr⟩
    rw [hem, encodeChunks_concat, length_append, hle]
    simp only [append_assoc, prefix_append_right_inj]
    exact prefix_append _ _
  | ending chunks hs _ _ _ hb hem =>
    refine ⟨emitted ++ c.buffer, ⟨chunks, hs, hb, hem⟩, prefix_append _ _⟩

/-- When the input is gone and the buffer is empty, the encoding is complete. -/
theorem Coding.encodes (hin : c.hasInput = false)
    (hb : c.buffer = []) : Encodes format maxChunkSize emitted bytes := by
  cases h.phase with
  | between _ _ hi | inside _ _ _ hi =>
    rw [hin] at hi
    cases hi
  | ending chunks hs _ _ _ hby he =>
    rw [hb, append_nil] at he
    exact ⟨chunks, hs, hby, he⟩

theorem Coding.emit (n : Nat) :
    Coding format bytes (emitted ++ c.buffer.take n) left { c with buffer := c.buffer.drop n } where
  phase := by
    have hsa : emitted ++ c.buffer.take n ++ c.buffer.drop n = emitted ++ c.buffer := by
      rw [append_assoc, take_append_drop]
    have hle : (c.buffer.drop n).length ≤ c.buffer.length := by simp
    cases h.phase with
    | between chunks hs hi hm hb hby he =>
      exact .between chunks hs hi hm (le_trans hle hb) hby
        (hsa.trans he)
    | inside chunks part hs hi hm hl hsi hby he =>
      exact .inside chunks part hs hi hm hl hsi hby (hsa.trans he)
    | ending chunks hs hi hm hl hby he =>
      exact .ending chunks hs hi hm hl hby (hsa.trans he)
  buffer_le := by
    have hle : (c.buffer.drop n).length ≤ c.buffer.length := by simp
    exact le_trans hle h.buffer_le

/-- Starting a chunk for bytes that are in the input. -/
theorem Coding.start (hfo : FormatsHex format)
    (hin : c.hasInput = true) (hmi : c.missing = 0) (hb : c.buffer = []) {n : Nat}
    (hpo : 0 < n) (hn : n ≤ left.length) :
    Coding format bytes emitted left (c.startChunk format n) ∧
      0 < (c.startChunk format n).missing := by
  generalize hs : (if maxChunkSize < n then maxChunkSize else n) = size
  have hst : c.startChunk format n =
      { c with missing := size, buffer := chunkHeader format size } := by
    rw [startChunk, hs]
  have hle : size ≤ maxChunkSize ∧ size ≤ n ∧ 0 < size := by
    have hma : 0 < maxChunkSize := by decide
    split at hs <;> omega
  have hl : (chunkHeader format size).length = 6 := by
    have hlt : size < 0x10000 := lt_of_le_of_lt hle.1 (by decide)
    rw [chunkHeader, length_append, (hfo size hlt).1]
    rfl
  rw [hst]
  refine ⟨⟨?_, ?_⟩, hle.2.2⟩
  · cases h.phase with
    | between chunks hsi _ _ _ hby he =>
      rw [hb, append_nil] at he
      refine .inside chunks [] hsi hin hle.2.2 (le_trans hle.2.1 hn) ?_ ?_ ?_
      · rw [length_nil, zero_add]
        exact hle.1
      · rwa [append_nil]
      · rw [length_nil, zero_add, append_nil, he]
    | inside _ _ _ _ hm =>
      rw [hmi] at hm
      exact absurd hm (lt_irrefl 0)
    | ending _ _ hi =>
      rw [hin] at hi
      cases hi
  · rw [hl]
    decide

/-- Emitting bytes of the input; the end of the chunk goes to the buffer. -/
theorem Coding.data (hb : c.buffer = []) {n : Nat} (hpo : 0 < c.missing) (hn : n ≤ c.missing) :
    Coding format bytes (emitted ++ left.take n) (left.drop n) { c with
      missing := c.missing - n
      buffer := if c.missing - n = 0 then crlf else c.buffer } := by
  cases h.phase with
  | between _ _ _ hm | ending _ _ _ hm =>
    rw [hm] at hpo
    exact absurd hpo (lt_irrefl 0)
  | inside chunks part hs hi hmi hl hsi hby he =>
    have hle : (left.take n).length = n := length_take_of_le (le_trans hn hl)
    have ht : (part ++ left.take n).length + (c.missing - n) = part.length + c.missing := by
      rw [length_append]
      omega
    have hbytes' : chunks.flatten ++ (part ++ left.take n) ++ left.drop n = bytes := by
      rw [← hby]
      simp
    rw [hb, append_nil] at he
    by_cases hd : c.missing - n = 0
    · rw [if_pos hd, hd]
      rw [hd, add_zero] at ht
      refine ⟨.between (chunks ++ [part ++ left.take n]) ?_ hi rfl (le_refl 2) ?_ ?_, ?_⟩
      · apply hs.concat
        · intro hni
          rw [hni, length_nil] at ht
          omega
        · rw [ht]
          exact hsi
      · rw [flatten_append, flatten_singleton]
        exact hbytes'
      · rw [encodeChunks_concat, ht, he]
        simp only [append_assoc]
      · show crlf.length ≤ bufferSize
        decide
    · rw [if_neg hd]
      refine ⟨.inside chunks (part ++ left.take n) hs hi (Nat.pos_of_ne_zero hd) ?_ ?_
        hbytes' ?_, h.buffer_le⟩
      · rw [length_drop]
        exact Nat.sub_le_sub_right hl n
      · rw [ht]
        exact hsi
      · rw [ht, hb, append_nil, he]
        simp only [append_assoc]

end

theorem Coding.finish (h : Coding format bytes emitted [] c) (hin : c.hasInput = true) :
    Coding format bytes emitted []
      { c with hasInput := false, buffer := c.buffer ++ eofChunk } := by
  cases h.phase with
  | between chunks hs _ hmi hb hby he =>
    rw [append_nil] at hby
    refine ⟨.ending chunks hs rfl hmi rfl hby ?_, ?_⟩
    · rw [← append_assoc, he]
    · rw [length_append]
      exact Nat.add_le_add_right hb 5
  | inside _ _ _ _ hm hl => exact absurd (lt_of_lt_of_le hm hl) (lt_irrefl 0)
  | ending _ _ hi =>
    rw [hin] at hi
    cases hi

/-- There is room for the last chunk. -/
theorem Coding.appendToBuffer (h : Coding format bytes emitted [] c) (hi : c.hasInput = true) :
    ({ c with hasInput := false } : ChunkedIstream).appendToBuffer eofChunk =
      some { c with hasInput := false, buffer := c.buffer ++ eofChunk } := by
  have hle := (h.finish hi).buffer_le
  rw [length_append] at hle
  exact if_pos hle

/-- `SendBuffer` emits a part of the buffer, or all. -/
theorem sendBuffer_spec (h : Handler) (hc : Coding format bytes h.received left c)
    (hd : h.destroyed = false) :
    ∃ b c' h', c.sendBuffer h = (b, c', h') ∧ Coding format bytes h'.received left c' ∧
      c'.missing = c.missing ∧ c'.hasInput = c.hasInput ∧ h'.accept = h.accept ∧
      (b = true → c'.buffer = [] ∧ h'.destroyed = false ∧ h'.received = h.received ++ c.buffer) ∧
      (b = false → h.Refuses bufferSize) := by
  unfold sendBuffer
  cases hb : c.buffer with
  | nil =>
    exact ⟨true, c, h, rfl, hc, rfl, rfl, rfl, fun _ => ⟨hb, hd, (append_nil _).symm⟩, nofun⟩
  | cons ch buffer =>
    obtain ⟨n, h', hi, hn, hco, hsh, hde⟩ := h.invokeData_spec (ch :: buffer)
    simp only [isEmpty_cons, hi]
    have hc' := hc.emit n
    rw [hb, ← hco.received_eq] at hc'
    have hle := hc.buffer_le
    rw [hb] at hle
    refine ⟨_, _, h', rfl, hc', rfl, rfl, hco.accept_eq, ?_, ?_⟩
    · intro he
      have hal : n = (ch :: buffer).length := eq_of_beq he
      refine ⟨by rw [hal]; exact drop_length, ?_, by rw [hco.received_eq, hal, take_length]⟩
      cases hd' : h'.destroyed with
      | false => rfl
      | true =>
        have h0 := hde hd hd'
        rw [h0] at hal
        cases hal
    · intro hne
      have hlt : n < (ch :: buffer).length := by
        have := ne_of_beq_false hne
        omega
      exact (hsh hlt).mono rfl hle

private theorem start_if_needed (hfo : FormatsHex format) {src more : List UInt8}
    (hc : Coding format bytes emitted (src ++ more) c) (hin : c.hasInput = true)
    (hsr : src = [] → c.buffer ≠ [] ∧ c.missing = 0) :
    ∃ c', (if c.buffer.isEmpty && c.missing == 0 then c.startChunk format src.length else c) = c' ∧
      Coding format bytes emitted (src ++ more) c' ∧ c'.hasInput = true ∧
      (c'.missing = 0 → c.buffer ≠ [] ∧ c.missing = 0) := by
  by_cases hi : c.buffer = [] ∧ c.missing = 0
  · obtain ⟨hb, hm⟩ := hi
    have hne : src ≠ [] := fun hni => (hsr hni).1 hb
    have hst := hc.start hfo hin hm hb (length_pos_iff.mpr hne) (by rw [length_append]; omega)
    refine ⟨c.startChunk format src.length, by simp [hb, hm], hst.1, hin, fun h0 => ?_⟩
    rw [h0] at hst
    exact absurd hst.2 (lt_irrefl 0)
  · refine ⟨c, ?_, hc, hin, fun hm => ⟨fun hb => hi ⟨hb, hm⟩, hm⟩⟩
    rw [if_neg]
    rwa [and_eq_true, List.isEmpty_iff, beq_iff_eq]

private theorem feedLoop_spec (hfo : FormatsHex format) {more : List UInt8} (fuel : Nat) :
    ∀ {c : ChunkedIstream} {h : Handler} {src : List UInt8} (t : Nat),
      Coding format bytes h.received (src ++ more) c → h.destroyed = false →
      c.hasInput = true → (src = [] → c.buffer ≠ [] ∧ c.missing = 0) →
      2 * src.length + (if c.buffer ≠ [] ∧ c.missing = 0 then 1 else 0) < fuel →
      ∃ n c' h', feedLoop format fuel c h src t =
          some (if h'.destroyed then 0 else t + n, c', h') ∧ n ≤ src.length ∧
        Coding format bytes h'.received (src.drop n ++ more) c' ∧ h'.accept = h.accept ∧
        c'.hasInput = true ∧
        (n < src.length ∨ h'.destroyed = true → h.Refuses (src.length + bufferSize)) := by
  induction fuel with
  | zero =>
    intro c h src t _ _ _ _ hf
    omega
  | succ fuel ih =>
    intro c h src t hc hd hin hsr hf
    obtain ⟨c1, hc1, ho, hi1, hl⟩ := start_if_needed hfo hc hin hsr
    obtain ⟨b, c2, h2, hse, hc2, hm2, hi2, ha2, hs, hbl⟩ := sendBuffer_spec h ho hd
    simp only [feedLoop, hc1, hse]
    cases b with
    | false =>
      refine ⟨0, c2, h2, rfl, Nat.zero_le _, hc2, ha2, hi2.trans hi1, fun _ => ?_⟩
      exact (hbl rfl).mono rfl (Nat.le_add_left _ _)
    | true =>
      obtain ⟨hb2, hd2, -⟩ := hs rfl
      by_cases hm : c2.missing = 0
      · -- the trailer of the previous chunk was written
        obtain ⟨hb, hm0⟩ := hl (hm2 ▸ hm)
        rw [if_pos ⟨hb, hm0⟩] at hf
        simp only [if_pos hm]
        by_cases hni : src = []
        · subst hni
          refine ⟨0, c2, h2, by simp [hd2], le_rfl, hc2, ha2, hi2.trans hi1, ?_⟩
          rintro (hlt | hde)
          · exact absurd hlt (lt_irrefl 0)
          · rw [hd2] at hde
            cases hde
        have hfl : ¬ (c2.buffer ≠ [] ∧ c2.missing = 0) := fun hx => hx.1 hb2
        obtain ⟨n, c', h', hlo, hn, hc', ha', hi', hre⟩ :=
          ih t hc2 hd2 (hi2.trans hi1) (fun hx => absurd hx hni) (by rw [if_neg hfl]; omega)
        refine ⟨n, c', h', ?_, hn, hc', ha'.trans ha2, hi', fun hx => ?_⟩
        · rw [if_neg (by simpa using hni)]
          exact hlo
        · exact (hre hx).mono ha2.symm (le_rfl)
      have hne : src ≠ [] := by
        intro hni
        obtain ⟨hb, hm0⟩ := hsr hni
        apply hm
        rw [hm2, ← hc1, if_neg]
        · exact hm0
        · simp [hb]
      have hpo : 0 < src.length := length_pos_iff.mpr hne
      simp only [if_neg hm]
      generalize hr : min src.length c2.missing = rest
      have hrest' : 0 < rest ∧ rest ≤ src.length ∧ rest ≤ c2.missing := by omega
      have hle : (src.take rest).length = rest := length_take_of_le hrest'.2.1
      obtain ⟨n, h3, hi, hn, hco, hsh, hde⟩ := h2.invokeData_spec (src.take rest)
      rw [hle] at hn hsh
      have hr3 (hlt : n < rest) : h.Refuses (src.length + bufferSize) :=
        (hsh hlt).mono ha2.symm (by omega)
      have ht : (src.take rest).take n = (src ++ more).take n := by
        rw [take_take, min_eq_left hn, take_append_of_le_length (by omega)]
      have hco3 := hc2.data hb2 (Nat.pos_of_ne_zero hm) (n := n) (by omega)
      rw [← ht, ← hco.received_eq, drop_append_of_le_length (by omega)] at hco3
      simp only [hi]
      by_cases hz : n = 0
      · subst hz
        refine ⟨0, c2, h3, by rw [if_pos rfl]; rfl, Nat.zero_le _, ?_,
          hco.accept_eq.trans ha2, hi2.trans hi1, fun _ => hr3 hrest'.1⟩
        have hrc : h3.received = h2.received := by
          rw [hco.received_eq, take_zero, append_nil]
        rw [hrc]
        exact hc2
      have hd3 : h3.destroyed = false := by
        cases hx : h3.destroyed with
        | false => rfl
        | true => exact absurd (hde hd2 hx) hz
      simp only [if_neg hz]
      generalize hc3 : ({ c2 with
        missing := c2.missing - n
        buffer := if c2.missing - n = 0 then crlf else c2.buffer } : ChunkedIstream) = c3
        at hco3
      have hi3 : c3.hasInput = true := by
        rw [← hc3]
        exact hi2.trans hi1
      have hbu3 : c3.buffer ≠ [] → c3.missing = 0 := by
        rw [← hc3]
        intro hx
        by_contra hy
        simp only [if_neg hy] at hx
        exact hx hb2
      have hb3 : (if c2.missing - n = 0 then crlf else c2.buffer) = c3.buffer := by rw [← hc3]
      rw [hb3]
      by_cases hg : ((!c3.buffer.isEmpty || !(src.drop n).isEmpty) && n == rest) = true
      · rw [if_pos hg]
        obtain ⟨hmo, -⟩ := and_eq_true_iff.mp hg
        have hfl : (if c3.buffer ≠ [] ∧ c3.missing = 0 then 1 else 0) ≤ 1 := by
          split <;> omega
        obtain ⟨m, c', h', hlo, hm', hc', ha', hi', hre⟩ :=
          ih (t + n) hco3 hd3 hi3 (by
            intro hni
            simp only [hni, isEmpty_nil, Bool.not_true, Bool.or_false,
              not_eq_true', isEmpty_eq_false_iff] at hmo
            exact ⟨hmo, hbu3 hmo⟩) (by
            rw [length_drop]
            omega)
        rw [length_drop] at hm' hre
        refine ⟨n + m, c', h', ?_, by omega, ?_, ha'.trans (hco.accept_eq.trans ha2),
          hi', fun hx => ?_⟩
        · rw [hlo, add_assoc]
        · rwa [← drop_drop]
        · refine (hre (hx.imp_left fun hlt => by omega)).mono
            (hco.accept_eq.trans ha2).symm (by omega)
      · rw [if_neg hg]
        refine ⟨n, c3, h3, by rw [hd3]; rfl, by omega, hco3, hco.accept_eq.trans ha2, hi3, ?_⟩
        rintro (hlt | hx)
        · -- the rest of the input is not empty, so the handler did not accept everything
          have hdr : src.drop n ≠ [] := by
            intro hni
            have := drop_eq_nil_iff.mp hni
            omega
          apply hr3
          have hq : ¬ n = rest := by
            intro he
            apply hg
            rw [and_eq_true, or_eq_true, beq_iff_eq]
            exact ⟨.inr (by simpa using hdr), he⟩
          omega
        · rw [hd3] at hx
          cases hx

/-- `OnData` emits a part of its input, all of it if the handler accepts everything. -/
theorem onData_coding (hfo : FormatsHex format) {h : Handler} {src more : List UInt8}
    (hc : Coding format bytes h.received (src ++ more) c) (hd : h.destroyed = false)
    (hi : c.hasInput = true) (hne : src ≠ []) :
    ∃ n c' h', c.onData format h src = some (if h'.destroyed then 0 else n, c', h') ∧
      n ≤ src.length ∧ Coding format bytes h'.received (src.drop n ++ more) c' ∧
      h'.accept = h.accept ∧ c'.hasInput = true ∧
      (n < src.length ∨ h'.destroyed = true → h.Refuses (src.length + bufferSize)) := by
  have hfl : (if c.buffer ≠ [] ∧ c.missing = 0 then 1 else 0) ≤ 1 := by
    split <;> omega
  obtain ⟨n, c', h', hlo, hr⟩ := feedLoop_spec hfo (2 * src.length + 2) 0 hc hd hi
    (fun hni => absurd hni hne) (by omega)
  rw [zero_add] at hlo
  exact ⟨n, c', h', hlo, hr⟩

end ChunkedIstream
end BengProxy.Istream
