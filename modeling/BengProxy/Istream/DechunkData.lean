import BengProxy.Base.Run
import BengProxy.Istream.DechunkInvariant

/-!
# Delivery of a chunked body through `OnData`

However the body is presented and however much the handler accepts, the accepted bytes are
the decoding of the body, and exactly the body is consumed.
-/

namespace BengProxy.Istream

open Base Marked Http List HttpChunkParser DechunkIstream

variable {us : List (UInt8 × Bool)} {src : List UInt8}

namespace DechunkIstream

variable {d : DechunkIstream} {seen todo : List (UInt8 × Bool)}

private theorem Describes.advance {vs : List (UInt8 × Bool)} {chunks : List ParsedChunk}
    (h : Describes d (us ++ vs) todo)
    (hm : marks vs = chunkMarks chunks ++ replicate d.pendingHeader false) :
    Describes { d with parsedInput := d.parsedInput - us.length, chunks } vs todo where
  marks_eq := hm
  accepts := h.accepts
  parsed := by
    have hp := h.parsed
    rw [length_append] at hp
    simp only
    omega
  endSeen := h.endSeen

theorem output_append (xs ys : List Delivery) : output (xs ++ ys) = output xs ++ output ys :=
  flatMap_append

/-- From `f` to `f'`, the stream took `taken` from the input and submitted its data. -/
structure Took (f f' : Frame) (taken : List (UInt8 × Bool)) : Prop where
  src_eq : f'.src = f.src.drop taken.length
  length_le : taken.length ≤ f.src.length
  frames : Frames f.stream f'.stream
  log_eq : ∃ calls, f'.log = f.log ++ calls ∧ output calls = payload taken ∧
    ∀ call ∈ calls, call.stream.Balanced

theorem Took.refl (f : Frame) : Took f f [] :=
  ⟨rfl, Nat.zero_le _, .refl _, [], by simp, rfl, by simp⟩

theorem Took.trans {f g f' : Frame} {ts : List (UInt8 × Bool)} (h : Took f g ts)
    (h' : Took g f' us) : Took f f' (ts ++ us) where
  src_eq := by rw [h'.src_eq, h.src_eq, drop_drop, length_append]
  length_le := by
    have hl := h.length_le
    have hl' := h'.length_le
    rw [h.src_eq, length_drop] at hl'
    rw [length_append]
    omega
  frames := h.frames.trans h'.frames
  log_eq := by
    obtain ⟨calls, hc, ho, hb⟩ := h.log_eq
    obtain ⟨calls', hc', ho', hb'⟩ := h'.log_eq
    refine ⟨calls ++ calls', ?_, ?_, ?_⟩
    · rw [hc', hc, append_assoc]
    · rw [output_append, ho, ho', payload_append]
    · intro call hm
      rcases mem_append.mp hm with hm | hm
      · exact hb call hm
      · exact hb' call hm

/-- How a loop of `OnData` may end. -/
structure Ends (accept : Nat → Option Nat) (src : List UInt8) (f' : Frame)
    (exit : Submitted) : Prop where
  starved : exit = .starved → f'.src = [] ∧ f'.stream.chunks ≠ []
  drained : ∀ popped, exit = .drained popped → f'.stream.chunks = []
  blocked : exit = .blocked → ∃ k a, accept k = some a ∧ a < src.length
  closed : exit = .closed → ∃ k, accept k = none

theorem Ends.mono {accept : Nat → Option Nat} {src' : List UInt8} {f' : Frame}
    {exit : Submitted} (h : Ends accept src f' exit) (hl : src.length ≤ src'.length) :
    Ends accept src' f' exit where
  starved := h.starved
  drained := h.drained
  blocked he := by
    obtain ⟨k, a, hk, ha⟩ := h.blocked he
    exact ⟨k, a, hk, lt_of_lt_of_le ha hl⟩
  closed := h.closed

private theorem Took.framing (f : Frame) (d' : DechunkIstream)
    (hm : marks us = replicate us.length false) (hl : us.length ≤ f.src.length)
    (hf : Frames f.stream d') :
    Took f { f with stream := d', src := f.src.drop us.length } us where
  src_eq := rfl
  length_le := hl
  frames := hf
  log_eq := by
    refine ⟨[], by simp, ?_, by simp⟩
    exact (payload_of_framing hm).symm

variable {rest : List UInt8}

private theorem Took.data (f : Frame) (d' : DechunkIstream) {vs : List (UInt8 × Bool)}
    (size : Nat) (hsr : f.src <+: raw (us ++ vs) ++ rest)
    (hm : marks us = replicate us.length true) (hl : us.length ≤ f.src.length)
    (hs : us.length ≤ size) (hb : f.stream.Balanced) (hf : Frames f.stream d') :
    Took f {
      stream := d'
      src := f.src.drop us.length
      log := f.log ++
        [{ stream := f.stream, offered := f.src.take size, accepted := us.length }] } us where
  src_eq := rfl
  length_le := hl
  frames := hf
  log_eq := by
    refine ⟨_, rfl, ?_, ?_⟩
    · have ht : f.src.take us.length = raw us := by
        obtain ⟨t, ht⟩ := hsr
        rw [← length_raw] at hl ⊢
        have hc := congrArg (take (raw us).length) ht
        rwa [take_append_of_le_length hl, raw_append, append_assoc, take_left] at hc
      rw [payload_of_data hm]
      simp only [output, flatMap_cons, flatMap_nil, append_nil, take_take]
      rw [min_eq_left hs, ht]
    · intro call hc
      rw [mem_singleton.mp hc]
      exact hb

private theorem submitData_spec (ac : Nat → Option Nat) {data : Nat} {cs : List ParsedChunk}
    {f : Frame} (h : Describes f.stream seen todo)
    (hc : f.stream.chunks = { header := 0, data } :: cs)
    (hq : 0 < data → QueueOk ({ header := 0, data } :: cs))
    (hsr : f.src <+: raw (seen ++ todo) ++ rest) :
    ∃ exit f' taken left, submitData ac data cs f = (exit, f') ∧ seen = taken ++ left ∧
      Took f f' taken ∧ f'.stream.parser = f.stream.parser ∧
      (∀ e, exit = some e →
        Ahead f'.stream left todo ∧ Ends ac f.src f' e ∧ ∀ b, e ≠ .drained b) ∧
      (exit = none →
        taken.length = data ∧ Describes { f'.stream with chunks := cs } left todo) := by
  have hm := h.marks_eq
  rw [hc, chunkMarks_cons, replicate_zero, nil_append, append_assoc] at hm
  unfold submitData
  by_cases hs : 0 < min f.src.length data
  · have hd : 0 < data := by omega
    simp only [if_pos hs]
    cases hac : ac f.log.length with
    | none =>
      refine ⟨some .closed, f, [], seen, rfl, rfl, .refl f, rfl, ?_, by simp⟩
      rintro e ⟨⟩
      refine ⟨⟨h, hc ▸ hq hd⟩, ⟨by simp, by simp, by simp, fun _ => ⟨_, hac⟩⟩, by simp⟩
    | some a =>
      generalize hds : min f.src.length data = dataSize at *
      have hn : min a dataSize ≤ data := by omega
      obtain ⟨us, vs, rfl, hul, hu, hv⟩ := split_replicate hm hn
      have ht := Took.data f { f.stream with
        parsedInput := f.stream.parsedInput - us.length
        chunks := { header := 0, data := data - min a dataSize } :: cs } dataSize
        (by rwa [append_assoc] at hsr) (by rw [hul, hu]) (by omega) (by omega) h.balanced
        ⟨rfl, rfl, rfl⟩
      have h' : Describes { f.stream with
          parsedInput := f.stream.parsedInput - us.length
          chunks := { header := 0, data := data - min a dataSize } :: cs } vs todo := by
        apply h.advance
        rw [hv, chunkMarks_cons, replicate_zero, nil_append, append_assoc]
      rw [hul] at ht h'
      have hq' (hpo : 0 < data - min a dataSize) :
          QueueOk ({ header := 0, data := data - min a dataSize } :: cs) :=
        (hq hd).replace_front (by simpa using hpo)
      by_cases hb : min a dataSize < dataSize
      · refine ⟨some .blocked, _, us, vs, by simp only [if_pos hb], rfl, ht, rfl, ?_, by simp⟩
        rintro e ⟨⟩
        refine ⟨⟨h', hq' (by omega)⟩, ⟨by simp, by simp, ?_, by simp⟩, by simp⟩
        exact fun _ => ⟨_, a, hac, by omega⟩
      by_cases hst : 0 < data - min a dataSize
      · refine ⟨some .starved, _, us, vs, by simp only [if_neg hb, if_pos hst], rfl,
          ht, rfl, ?_, by simp⟩
        rintro e ⟨⟩
        refine ⟨⟨h', hq' hst⟩, ⟨fun _ => ?_, by simp, by simp, by simp⟩, by simp⟩
        exact ⟨drop_eq_nil_of_le (by omega), by simp⟩
      refine ⟨none, _, us, vs, by simp only [if_neg hb, if_neg hst], rfl, ht, rfl,
        by simp, fun _ => ?_⟩
      have hz : data - min a dataSize = 0 := by omega
      refine ⟨by omega, ?_, h'.accepts, h'.parsed, h'.endSeen⟩
      rw [hv, hz, replicate_zero, nil_append]
  · simp only [if_neg hs]
    by_cases hd : 0 < data
    · refine ⟨some .starved, f, [], seen, by rw [if_pos hd], rfl, .refl f, rfl, ?_, by simp⟩
      rintro e ⟨⟩
      refine ⟨⟨h, hc ▸ hq hd⟩, ⟨fun _ => ?_, by simp, by simp, by simp⟩, by simp⟩
      exact ⟨eq_nil_of_length_eq_zero (by omega), by simp [hc]⟩
    · refine ⟨none, f, [], seen, by rw [if_neg hd], rfl, .refl f, rfl, by simp, fun _ => ?_⟩
      have hz : data = 0 := by omega
      refine ⟨by simp [hz], ?_, h.accepts, h.parsed, h.endSeen⟩
      rw [hm, hz, replicate_zero, nil_append]

private theorem submit_spec (a : Nat → Option Nat) (rest : List UInt8)
    (cs : List ParsedChunk) :
    ∀ (p : Bool) {f : Frame} {seen todo : List (UInt8 × Bool)},
      Ahead { f.stream with chunks := cs } seen todo → f.src <+: raw (seen ++ todo) ++ rest →
      ∃ exit f' taken left, submit a cs p f = (exit, f') ∧ seen = taken ++ left ∧
        Took f f' taken ∧ Ahead f'.stream left todo ∧ Ends a f.src f' exit ∧
        f'.stream.parser = f.stream.parser ∧
        ∀ b, exit = .drained b →
          (cs = [] → b = p) ∧ (cs ≠ [] → b = true ∧ 0 < taken.length) := by
  induction cs with
  | nil =>
    intro p f seen todo h hsr
    refine ⟨_, _, [], seen, rfl, rfl, ?_, h, ?_, rfl, ?_⟩
    · exact ⟨rfl, Nat.zero_le _, ⟨rfl, rfl, rfl⟩, [], by simp, rfl, by simp⟩
    · exact ⟨by simp, fun _ _ => rfl, by simp, by simp⟩
    · rintro b ⟨⟩
      exact ⟨fun _ => rfl, fun hn => absurd rfl hn⟩
  | cons chunk cs ih =>
    intro p f seen todo h hsr
    have hm := h.marks_eq
    rw [chunkMarks_cons, append_assoc, append_assoc] at hm
    rw [submit]
    by_cases hlt : f.src.length < chunk.header
    · -- the input ends in the header
      obtain ⟨us, vs, rfl, hul, hu, hv⟩ := split_replicate hm (le_of_lt hlt)
      have hd : f.src.drop us.length = [] := by rw [hul, drop_length]
      have ht := Took.framing f { f.stream with
        parsedInput := f.stream.parsedInput - us.length
        chunks := { chunk with header := chunk.header - f.src.length } :: cs }
        (by rw [hul, hu]) (by omega) ⟨rfl, rfl, rfl⟩
      rw [hd, hul] at ht
      refine ⟨.starved, _, us, vs, by rw [if_pos hlt], rfl, ht, ⟨?_, ?_⟩, ?_, rfl, by simp⟩
      · rw [← hul]
        apply h.advance
        rw [hv, hul, chunkMarks_cons, append_assoc, append_assoc]
      · apply h.queue.replace_front
        simp only
        omega
      · exact ⟨fun _ => ⟨rfl, by simp⟩, by simp, by simp, by simp⟩
    obtain ⟨us, vs, rfl, hul, hu, hv⟩ := split_replicate hm (le_refl chunk.header)
    rw [Nat.sub_self, replicate_zero, nil_append] at hv
    have hto := Took.framing f { f.stream with
      parsedInput := f.stream.parsedInput - us.length
      chunks := { chunk with header := 0 } :: cs } (by rw [hul, hu]) (by omega) ⟨rfl, rfl, rfl⟩
    have hpr : f.src.drop us.length <+: raw (vs ++ todo) ++ rest := by
      apply drop_parsed
      rwa [← append_assoc]
    have h₁ : Describes { f.stream with
        parsedInput := f.stream.parsedInput - us.length
        chunks := { chunk with header := 0 } :: cs } vs todo := by
      apply h.advance
      rw [hv, chunkMarks_cons, replicate_zero, nil_append, append_assoc]
    rw [hul] at hto hpr h₁
    rw [if_neg hlt]
    obtain ⟨exit, g, taken, left, hs, rfl, ht', hpa, hexi, hg⟩ :=
      submitData_spec a (f := { f with
        stream := { f.stream with
          parsedInput := f.stream.parsedInput - chunk.header
          chunks := { chunk with header := 0 } :: cs }
        src := f.src.drop chunk.header }) h₁ rfl
        (fun hd => h.queue.replace_front (by simpa using hd)) hpr
    simp only [hs]
    have hle : (f.src.drop chunk.header).length ≤ f.src.length := by simp
    cases exit with
    | some e =>
      obtain ⟨ha, hen, ho⟩ := hexi e rfl
      exact ⟨e, g, us ++ taken, left, rfl, by rw [append_assoc], hto.trans ht', ha,
        hen.mono hle, hpa, fun b hb => absurd hb (ho b)⟩
    | none =>
      -- the chunk is done
      obtain ⟨hda, hde⟩ := hg rfl
      have hpo := h.queue.chunk_pos chunk (by simp)
      have htt := hto.trans ht'
      obtain ⟨exit, f', taken', left', he, rfl, ht, ha, hen, hp', hdr⟩ :=
        ih true ⟨hde, h.queue.tail⟩ (by
          rw [ht'.src_eq]
          apply drop_parsed
          rwa [← append_assoc])
      have hl' : g.src.length ≤ f.src.length := by
        rw [htt.src_eq]
        simp
      refine ⟨exit, f', us ++ taken ++ taken', left', he, by simp only [append_assoc],
        htt.trans ht, ha, hen.mono hl', hp'.trans hpa, ?_⟩
      intro b hb
      refine ⟨by simp, fun _ => ⟨?_, ?_⟩⟩
      · by_cases hc : cs = []
        · exact (hdr b hb).1 hc
        · exact ((hdr b hb).2 hc).1
      · simp only [length_append]
        omega

private theorem Took.of_frames {f f' : Frame} {d' : DechunkIstream} {ts : List (UInt8 × Bool)}
    (hf : Frames f.stream d') (h : Took { f with stream := d' } f' ts) : Took f f' ts :=
  ⟨h.src_eq, h.length_le, hf.trans h.frames, h.log_eq⟩

private theorem Ahead.pending (h : Ahead d seen todo) :
    Ahead (d.applyPending.getD d) seen todo ∧ Frames d (d.applyPending.getD d) ∧
      (d.applyPending.getD d).Settled := by
  obtain ⟨hn, hc⟩ | ⟨chunks, hs, h'⟩ := h.applyPending
  · rw [hn]
    exact ⟨h, .refl d, fun hni => absurd hni hc⟩
  · rw [hs]
    exact ⟨h', ⟨rfl, rfl, rfl⟩, fun _ => rfl⟩

private theorem Describes.eq_nil (h : Describes d seen todo) (hc : d.chunks = []) (hs : d.Settled) :
    seen = [] := by
  have hm := h.marks_eq
  rw [hc, hs hc] at hm
  exact map_eq_nil_iff.mp hm

private theorem Ahead.parse_ahead (h : Ahead d seen todo)
    (hsr : src <+: raw (seen ++ todo) ++ rest) :
    ∃ b d' new todo',
      (if d.parsedInput < src.length then d.parseInput (src.drop d.parsedInput)
        else some (.ok (true, d))) = some (.ok (b, d')) ∧
      todo = new ++ todo' ∧ Ahead d' (seen ++ new) todo' ∧ Frames d d' ∧
      (d'.chunks = [] → d' = d ∧ (src.length ≤ seen.length ∨ d.parser.hasEnded = true)) := by
  rw [h.parsed]
  by_cases hlt : seen.length < src.length
  · rw [if_pos hlt]
    obtain ⟨b, d', new, todo', hp, ht, -, h', hfr, hc, hen, -⟩ := h.parseInput (drop_parsed hsr)
    refine ⟨b, d', new, todo', hp, ht, h', hfr, ?_⟩
    intro hni
    cases he : d.parser.hasEnded with
    | true => exact ⟨hen he, .inr rfl⟩
    | false =>
      have hne : src.drop seen.length ≠ [] := by
        intro hd
        have := drop_eq_nil_iff.mp hd
        omega
      exact absurd hni (hc hne he)
  · rw [if_neg hlt]
    exact ⟨true, d, [], todo, rfl, rfl, by rwa [append_nil], .refl d,
      fun _ => ⟨rfl, .inl (by omega)⟩⟩

private theorem onDataLoop_spec (a : Nat → Option Nat) (rest : List UInt8) (fuel : Nat) :
    ∀ {f : Frame} {seen todo : List (UInt8 × Bool)}, Ahead f.stream seen todo →
      f.src <+: raw (seen ++ todo) ++ rest → f.src.length < fuel →
      ∃ exit f' taken left todo', onDataLoop a fuel f = some (.ok (exit, f')) ∧
        seen ++ todo = taken ++ (left ++ todo') ∧ Took f f' taken ∧
        Ahead f'.stream left todo' ∧ Ends a f.src f' exit ∧
        ∀ b, exit = .drained b → left = [] ∧ (f'.src = [] ∨ todo' = []) := by
  induction fuel with
  | zero =>
    intro f seen todo _ _ hf
    omega
  | succ fuel ih =>
    intro f seen todo h hsr hf
    obtain ⟨h₁, hf1, hst⟩ := h.pending
    generalize hd₁ : f.stream.applyPending.getD f.stream = d1 at h₁ hf1 hst
    obtain ⟨b, d2, new, todo2, hpa, rfl, h₂, hf2, hem⟩ := h₁.parse_ahead hsr
    rw [← append_assoc] at hsr
    obtain ⟨exit, f', taken, left, hsu, hse, hto, ha, hen, hp, hd⟩ :=
      submit_spec a rest d2.chunks false (f := { f with stream := d2 }) h₂ hsr
    have ht' : Took f f' taken := hto.of_frames (hf1.trans hf2)
    have hal : seen ++ (new ++ todo2) = taken ++ (left ++ todo2) := by
      rw [← append_assoc, hse, append_assoc]
    simp only [onDataLoop, hd₁, hpa, hsu]
    cases exit with
    | starved => exact ⟨.starved, f', taken, left, todo2, rfl, hal, ht', ha, hen, by simp⟩
    | blocked => exact ⟨.blocked, f', taken, left, todo2, rfl, hal, ht', ha, hen, by simp⟩
    | closed => exact ⟨.closed, f', taken, left, todo2, rfl, hal, ht', ha, hen, by simp⟩
    | drained popped =>
      obtain ⟨hd1, hd2⟩ := hd popped rfl
      by_cases hc : d2.chunks = []
      · -- nothing was parsed, so nothing is left to do
        obtain ⟨rfl, hw⟩ := hem hc
        obtain rfl := hd1 hc
        have hni := h₂.eq_nil hc hst
        have hs : seen = [] := (append_eq_nil_iff.mp hni).1
        rw [hni] at hse
        obtain ⟨rfl, rfl⟩ := append_eq_nil_iff.mp hse.symm
        have hag : (decide (d2.parsedInput < f.src.length) && !d2.parser.hasEnded) = false := by
          rw [h₁.parsed, hs]
          rcases hw with hl | he
          · rw [hs] at hl
            rw [decide_eq_false (not_lt.mpr hl), Bool.false_and]
          · rw [he, Bool.not_true, Bool.and_false]
        refine ⟨.drained false, f', [], [], todo2, ?_, hal, ht', ha, hen, fun _ _ => ⟨rfl, ?_⟩⟩
        · rw [hag]
          rfl
        · rcases hw with hl | he
          · left
            rw [hs] at hl
            rw [ht'.src_eq, eq_nil_of_length_eq_zero (Nat.le_zero.mp hl)]
            rfl
          · right
            exact h₂.accepts.eq_nil (hasEnded_iff.mp he)
      · obtain ⟨rfl, hpo⟩ := hd2 hc
        have hle : f'.src.length < f.src.length := by
          have hl := ht'.length_le
          rw [ht'.src_eq, length_drop]
          omega
        have hpr : f'.src <+: raw (left ++ todo2) ++ rest := by
          rw [ht'.src_eq]
          apply drop_parsed
          rwa [← append_assoc, ← hse]
        obtain ⟨exit, g, taken', left', todo', he, hr, ht, hg, he', hla⟩ := ih ha hpr (by omega)
        refine ⟨exit, g, taken ++ taken', left', todo', ?_, ?_, ht'.trans ht, hg,
          he'.mono (le_of_lt hle), hla⟩
        · simp only [Bool.true_or]
          exact he
        · rw [hal, hr, append_assoc]

private theorem Ahead.finished (h : Ahead d [] []) : d.chunks = [] ∧ d.parser.hasEnded = true := by
  constructor
  · have hm := h.marks_eq
    cases hc : d.chunks with
    | nil => rfl
    | cons chunk chunks =>
      have hpo := h.queue.chunk_pos chunk (by simp [hc])
      have hl := congrArg length hm
      simp only [hc, marks_nil, length_nil, chunkMarks_cons, length_append, length_replicate] at hl
      omega
  · exact hasEnded_iff.mpr h.accepts

/-- The outcome of a call of `OnData` on a piece of the body that takes `taken` from it. -/
inductive Outcome (d : DechunkIstream) (action : DechunkInputAction) (src : List UInt8)
    (accept : Nat → Option Nat) (r : OnDataResult) (taken left todo : List (UInt8 × Bool)) : Prop
  /-- The handler destroyed the stream. -/
  | destroyed (hs : r.stream = none) (hr : r.returned = 0) (ha : ∃ k, accept k = none)
  /-- The body goes on: the handler did not accept everything, or the input is used up. -/
  | running (d' : DechunkIstream) (hs : r.stream = some d') (hr : r.returned = taken.length)
      (ha : Ahead d' left todo) (hf : Frames d d')
      (hwhy : (∃ k a, accept k = some a ∧ a < src.length) ∨
        (taken.length = src.length ∧ left ++ todo ≠ []))
  /-- The body has ended. -/
  | ended (d' : DechunkIstream) (hs : r.stream = some d'.eofDetected) (ha : Ahead d' [] [])
      (hf : Frames d d') (hl : left ++ todo = [])
      (hr : r.returned = if action = .abandon then taken.length else 0)

private theorem log_finishData (action : DechunkInputAction) (size : Nat) (f : Frame) :
    (finishData action size f).log = f.log := by
  unfold finishData
  split <;> rfl

private theorem error_finishData (action : DechunkInputAction) (size : Nat) (f : Frame) :
    (finishData action size f).error = none := by
  unfold finishData
  split <;> rfl

private theorem finishData_spec {f : Frame} {left t : List (UInt8 × Bool)}
    (action : DechunkInputAction) (a : Nat → Option Nat)
    (hre : src.length - f.src.length = t.length) (ha : Ahead f.stream left todo)
    (hf : Frames d f.stream)
    (hw : f.stream.chunks ≠ [] ∧ t.length = src.length ∨
      left = [] ∧ (t.length = src.length ∨ todo = [])) :
    Outcome d action src a (finishData action src.length f) t left todo := by
  unfold finishData
  by_cases hfi : (f.stream.chunks.isEmpty && f.stream.parser.hasEnded) = true
  · rw [if_pos hfi]
    obtain ⟨hc, he⟩ := Bool.and_eq_true_iff.mp hfi
    rcases hw with ⟨hne, -⟩ | ⟨rfl, -⟩
    · exact absurd (isEmpty_iff.mp hc) hne
    · obtain rfl := ha.accepts.eq_nil (hasEnded_iff.mp he)
      refine .ended f.stream rfl ha hf rfl ?_
      cases action <;> simp [hre]
  rw [if_neg hfi]
  have hl : left ++ todo ≠ [] := by
    intro hni
    obtain ⟨rfl, rfl⟩ := append_eq_nil_iff.mp hni
    obtain ⟨hc, he⟩ := ha.finished
    exact hfi (by rw [hc, he]; rfl)
  refine .running f.stream rfl hre ha hf (.inr ⟨?_, hl⟩)
  rcases hw with ⟨-, ht⟩ | ⟨rfl, ht | rfl⟩
  · exact ht
  · exact ht
  · exact absurd rfl hl

theorem onData_spec (h : Ahead d seen todo) (hsr : src <+: raw (seen ++ todo) ++ rest)
    (action : DechunkInputAction) (accept : Nat → Option Nat) :
    ∃ r taken left todo', d.onData action src accept = some r ∧ r.error = none ∧
      seen ++ todo = taken ++ (left ++ todo') ∧ taken.length ≤ src.length ∧
      output r.log = payload taken ∧ (∀ call ∈ r.log, call.stream.Balanced) ∧
      Outcome d action src accept r taken left todo' := by
  obtain ⟨exit, f', taken, left, todo', he, hal, ht, ha, hen, hla⟩ :=
    onDataLoop_spec accept rest (src.length + 1) (f := { stream := d, src, log := [] }) h hsr
      (Nat.lt_succ_self _)
  obtain ⟨calls, hlo, ho, hb⟩ := ht.log_eq
  rw [nil_append] at hlo
  have hs' : f'.src = src.drop taken.length := ht.src_eq
  have hle : taken.length ≤ src.length := ht.length_le
  have hre : src.length - f'.src.length = taken.length := by
    rw [hs', length_drop]
    omega
  unfold onData
  rw [he]
  cases exit with
  | closed =>
    refine ⟨_, taken, left, todo', rfl, rfl, hal, hle, by rw [hlo, ho], by rwa [hlo], ?_⟩
    exact .destroyed rfl rfl (hen.closed rfl)
  | blocked =>
    refine ⟨_, taken, left, todo', rfl, rfl, hal, hle, by rw [hlo, ho], by rwa [hlo], ?_⟩
    exact .running f'.stream rfl hre ha ht.frames (.inl (hen.blocked rfl))
  | starved =>
    obtain ⟨hni, hc⟩ := hen.starved rfl
    refine ⟨_, taken, left, todo', rfl, ?_, hal, hle, ?_, ?_, finishData_spec action accept hre ha
      ht.frames (.inl ⟨hc, by rw [← hre, hni]; rfl⟩)⟩
    · exact error_finishData ..
    · rw [log_finishData, hlo, ho]
    · rwa [log_finishData, hlo]
  | drained popped =>
    obtain ⟨hl, hd⟩ := hla popped rfl
    refine ⟨_, taken, left, todo', rfl, ?_, hal, hle, ?_, ?_, finishData_spec action accept hre ha
      ht.frames (.inr ⟨hl, ?_⟩)⟩
    · exact error_finishData ..
    · rw [log_finishData, hlo, ho]
    · rwa [log_finishData, hlo]
    · exact hd.imp_left fun hni => by rw [← hre, hni]; rfl

end DechunkIstream

/-- One call of `OnData`: the input presented, and what the handler accepts. -/
structure OnDataCall where
  src : List UInt8
  accept : Nat → Option Nat

/-- The handler accepts everything it is offered in this call. -/
def OnDataCall.AcceptsAll (c : OnDataCall) : Prop :=
  ∀ k, ∃ a, c.accept k = some a ∧ c.src.length ≤ a

/-- A stream that is being fed: whether it was destroyed, the sum of all return values and
the last one, and all calls of `InvokeData`. -/
structure Feed where
  stream : DechunkIstream := {}
  alive : Bool := true
  consumed : Nat := 0
  returned : Nat := 0
  log : List Delivery := []
  error : Option ParseError := none

namespace Feed

/-- The state after a call of `OnData`. -/
def record (s : Feed) (r : DechunkIstream.OnDataResult) : Feed where
  stream := r.stream.getD s.stream
  alive := r.stream.isSome
  consumed := s.consumed + r.returned
  returned := r.returned
  log := s.log ++ r.log
  error := r.error

/-- The input `bytes`, less what was consumed, is presented up to any point. -/
def Step (bytes : List UInt8) (action : DechunkInputAction) (s : Feed) (c : OnDataCall)
    (s' : Feed) : Prop :=
  s.alive = true ∧ s.stream.hasInput = true ∧ c.src <+: bytes.drop s.consumed ∧
    ∃ r, s.stream.onData action c.src c.accept = some r ∧ s' = s.record r

/-- What holds while a body is being fed. -/
structure Inv (ts : List (UInt8 × Bool)) (action : DechunkInputAction) (s : Feed)
    (done seen todo : List (UInt8 × Bool)) : Prop where
  ts_eq : ts = done ++ (seen ++ todo)
  output_eq : output s.log = payload done
  balanced : s.stream.Balanced
  log_balanced : ∀ call ∈ s.log, call.stream.Balanced
  error_eq : s.error = none
  consumed_le : s.consumed ≤ done.length
  running : s.alive = true → s.stream.hasInput = true →
    s.stream.Ahead seen todo ∧ s.consumed = done.length
  ends_eq : s.stream.ends = if s.stream.hasInput then 0 else 1
  finished : s.stream.hasInput = false → seen ++ todo = [] ∧ s.stream.endSeen = 1 ∧
    (action = .abandon → s.consumed = ts.length) ∧ (action ≠ .abandon → s.returned = 0)
  endSeen_le : s.stream.endSeen ≤ 1

variable {ts : List (UInt8 × Bool)} {rest : List UInt8} {action : DechunkInputAction} {s : Feed}
  {done seen todo : List (UInt8 × Bool)}

private theorem drop_done {n : Nat} (ht : ts = done ++ (seen ++ todo)) (hn : n = done.length) :
    (raw ts ++ rest).drop n = raw (seen ++ todo) ++ rest := by
  rw [ht, raw_append, append_assoc, hn, ← length_raw, drop_left]

private theorem Inv.step (h : Inv ts action s done seen todo) (hai : s.alive = true)
    (hi : s.stream.hasInput = true) {c : OnDataCall}
    (hsr : c.src <+: (raw ts ++ rest).drop s.consumed) :
    ∃ r done' seen' todo', s.stream.onData action c.src c.accept = some r ∧
      Inv ts action (s.record r) done' seen' todo' ∧
      (c.AcceptsAll → (s.record r).alive = true ∧
        (ts.length - s.consumed ≤ c.src.length → (s.record r).stream.hasInput = false) ∧
        (c.src.length < ts.length - s.consumed → r.returned = c.src.length)) := by
  obtain ⟨ha, hc⟩ := h.running hai hi
  rw [drop_done h.ts_eq hc] at hsr
  obtain ⟨r, taken, left, todo', hr, her, hall, hle, hou, hb, ho⟩ :=
    onData_spec ha hsr action c.accept
  have ht : ts = (done ++ taken) ++ (left ++ todo') := by
    rw [h.ts_eq, hall, append_assoc]
  have hn : ts.length = done.length + taken.length + (left ++ todo').length := by
    rw [ht, length_append, length_append]
  have hlg : output (s.log ++ r.log) = payload (done ++ taken) := by
    rw [output_append, h.output_eq, hou, payload_append]
  have hlo : ∀ call ∈ s.log ++ r.log, call.stream.Balanced := by
    intro call hm
    rcases mem_append.mp hm with hm | hm
    · exact h.log_balanced call hm
    · exact hb call hm
  have he := h.ends_eq
  rw [hi] at he
  refine ⟨r, done ++ taken, left, todo', hr, ?_⟩
  cases ho with
  | destroyed hs hre hnn =>
    have hst : (s.record r).stream = s.stream := by simp [record, hs]
    have hco : (s.record r).consumed = s.consumed := by simp [record, hre]
    refine ⟨⟨ht, hlg, ?_, hlo, her, ?_, ?_, ?_, ?_, ?_⟩, ?_⟩
    · rw [hst]; exact h.balanced
    · rw [length_append]; omega
    · intro hal
      simp [record, hs] at hal
    · rw [hst]; exact h.ends_eq
    · rw [hst, hi]
      intro hfa
      cases hfa
    · rw [hst]; exact h.endSeen_le
    · intro hac
      obtain ⟨k, hk⟩ := hnn
      obtain ⟨a, hka, -⟩ := hac k
      rw [hk] at hka
      cases hka
  | running d' hs hre hah hfr hw =>
    have hst : (s.record r).stream = d' := by simp [record, hs]
    have hco : (s.record r).consumed = done.length + taken.length := by
      simp [record, hre, hc]
    have hi' : d'.hasInput = true := hfr.hasInput_eq.trans hi
    refine ⟨⟨ht, hlg, ?_, hlo, her, ?_, ?_, ?_, ?_, ?_⟩, ?_⟩
    · rw [hst]; exact hah.balanced
    · rw [hco, length_append]
    · intro _ _
      rw [hst, hco, length_append]
      exact ⟨hah, rfl⟩
    · rw [hst, hi', hfr.ends_eq]; exact he
    · rw [hst, hi']
      intro hfa
      cases hfa
    · rw [hst, hah.endSeen]
      split <;> omega
    · intro hac
      rcases hw with ⟨k, a, hk, hlt⟩ | ⟨hsi, hne⟩
      · obtain ⟨a', hka, hg⟩ := hac k
        rw [hk] at hka
        cases hka
        omega
      have hpo := length_pos_iff.mpr hne
      refine ⟨by simp [record, hs], ?_, ?_⟩
      · intro hv
        omega
      · intro _
        rw [hre, hsi]
  | ended d' hs hah hfr hl hre =>
    have hst : (s.record r).stream = d'.eofDetected := by simp [record, hs]
    have hfi := hah.endSeen
    rw [hah.finished.2] at hfi
    rw [hl, length_nil] at hn
    refine ⟨⟨ht, hlg, ?_, hlo, her, ?_, ?_, ?_, ?_, ?_⟩, ?_⟩
    · rw [hst]; exact hah.balanced
    · simp only [record, hre, length_append]
      split <;> omega
    · intro _ hfa
      rw [hst] at hfa
      cases hfa
    · rw [hst]
      simp [eofDetected, invokeDechunkEnd, hfr.ends_eq, he]
    · intro _
      rw [hst]
      refine ⟨hl, hfi, ?_, ?_⟩
      · intro hab
        simp only [record, hre, if_pos hab, hc]
        exact hn.symm
      · intro hot
        simp only [record, hre, if_neg hot]
    · rw [hst]
      exact le_of_eq hfi
    · intro _
      refine ⟨by simp [record, hs], ?_, ?_⟩
      · intro _
        rw [hst]
        rfl
      · intro hlt
        omega

private theorem Inv.of_run {ca : List OnDataCall}
    (ht : HttpChunkParser.Accepts {} ts) (h : Run (Step (raw ts ++ rest) action) {} ca s) :
    ∃ done seen todo, Inv ts action s done seen todo := by
  apply h.invariant (P := fun s => ∃ done seen todo, Inv ts action s done seen todo)
  · refine ⟨[], [], ts, rfl, rfl, rfl, by simp, rfl, Nat.le_refl _, ?_, rfl, by simp, Nat.zero_le _⟩
    intro _ _
    exact ⟨⟨⟨rfl, ht, rfl, rfl⟩, by simp, Nat.zero_le _⟩, rfl⟩
  · rintro s c s' ⟨done, seen, todo, hi⟩ ⟨hal, hin, hsr, r, hr, rfl⟩
    obtain ⟨r', done', seen', todo', hr', hi', -⟩ := hi.step hal hin hsr
    rw [hr] at hr'
    cases hr'
    exact ⟨done', seen', todo', hi'⟩

end Feed

/-- A complete chunked body, followed by anything, is presented to `OnData` up to arbitrary
points: at all times the queue accounts for `parsed_input`, a prefix of the decoding was
delivered and no byte behind the body was consumed. Every further call returns without an
error, and ends the body if it is presented completely and everything is accepted. When it
has ended, the decoding was delivered, each handler function was called once, and exactly the
body was consumed, unless the handler closed or destroyed the input: then the last call
returned zero. -/
theorem onData_decodes {body decoded rest : List UInt8} {action : DechunkInputAction}
    {calls : List OnDataCall} {s : Feed} (hb : ChunkedBody body decoded)
    (h : Run (Feed.Step (body ++ rest) action) {} calls s) :
    s.stream.Balanced ∧ (∀ call ∈ s.log, call.stream.Balanced) ∧ s.error = none ∧
    output s.log <+: decoded ∧ s.consumed ≤ body.length ∧ s.stream.endSeen ≤ 1 ∧
    (s.stream.hasInput = true → s.stream.ends = 0) ∧
    (s.stream.hasInput = false → output s.log = decoded ∧ s.stream.endSeen = 1 ∧
      s.stream.ends = 1 ∧ (action = .abandon → s.consumed = body.length) ∧
      (action ≠ .abandon → s.returned = 0)) ∧
    (s.alive = true → s.stream.hasInput = true →
      ∀ c : OnDataCall, c.src <+: (body ++ rest).drop s.consumed →
        ∃ s', Feed.Step (body ++ rest) action s c s' ∧
          (c.AcceptsAll → s'.alive = true ∧
            (body.length - s.consumed ≤ c.src.length → s'.stream.hasInput = false) ∧
            (c.src.length < body.length - s.consumed →
              s'.consumed = s.consumed + c.src.length))) := by
  obtain ⟨ts, rfl, rfl, hac⟩ := accepts_of_body hb 0
  obtain ⟨done, seen, todo, hi⟩ := Feed.Inv.of_run hac h
  have hpa : payload ts = payload done ++ payload (seen ++ todo) := by
    rw [hi.ts_eq, payload_append]
  have hle : ts.length = done.length + (seen ++ todo).length := by
    rw [hi.ts_eq, length_append]
  have he := hi.ends_eq
  rw [length_raw]
  refine ⟨hi.balanced, hi.log_balanced, hi.error_eq, ?_, ?_, hi.endSeen_le, ?_, ?_, ?_⟩
  · rw [hi.output_eq, hpa]
    exact prefix_append _ _
  · have := hi.consumed_le
    omega
  · intro hin
    rwa [hin] at he
  · intro hin
    obtain ⟨hni, hse, hab, ho⟩ := hi.finished hin
    rw [hin] at he
    refine ⟨?_, hse, he, hab, ho⟩
    rw [hi.output_eq, hpa, hni, payload_nil, append_nil]
  · intro hal hin c hsr
    obtain ⟨r, -, -, -, hr, -, hall⟩ := hi.step hal hin hsr
    refine ⟨s.record r, ⟨hal, hin, hsr, r, hr, rfl⟩, ?_⟩
    intro hc
    obtain ⟨h1, h2, h3⟩ := hall hc
    exact ⟨h1, h2, fun hlt => congrArg (s.consumed + ·) (h3 hlt)⟩

/-- `1\r\na\r\n0\r\n\r\n` is a body that decodes to `a`. -/
theorem sampleBody : ChunkedBody [49, 13, 10, 97, 13, 10, 48, 13, 10, 13, 10] [97] := by
  have hcr : ∀ ch ∈ [(13 : UInt8)], ch = cr := fun ch hch => mem_singleton.mp hch
  have he : ∀ ch ∈ [(13 : UInt8)].head?, hexDigit ch = none := by
    intro ch hch
    cases hch
    rfl
  have hla : ChunkedBody ([48, 13, 10] ++ [13, 10]) [] := by
    refine .last [48, 13, 10] [13, 10] ⟨⟨[48], [13], rfl, by simp, rfl, ?_, he⟩, by decide⟩
      (.done [13] hcr)
    decide
  refine .chunk [49, 13, 10] [97] [13] _ _ ⟨⟨[49], [13], rfl, by simp, rfl, ?_, he⟩, by decide⟩
    (by simp) hcr hla
  decide

/-- The body is presented in two pieces, and the byte behind it is left alone. -/
theorem onData_decodes_sample :
    ∃ s, Run (Feed.Step ([49, 13, 10, 97, 13, 10, 48, 13, 10, 13, 10] ++ [32]) .abandon) {}
        [⟨[49, 13, 10, 97], fun _ => some 0⟩,
          ⟨[97, 13, 10, 48, 13, 10, 13, 10, 32], fun _ => some 9⟩] s ∧
      output s.log = [97] ∧ s.consumed = 11 ∧ s.stream.ends = 1 := by
  refine Run.exists_of (p := fun s => s.stream.hasInput = false)
    ⟨_, .cons ⟨rfl, rfl, by decide, _, rfl, rfl⟩
      (.cons ⟨rfl, rfl, by decide, _, rfl, rfl⟩ .nil), rfl⟩ ?_
  intro s hr hi
  obtain ⟨ho, -, he, hab, -⟩ := (onData_decodes sampleBody hr).2.2.2.2.2.2.2.1 hi
  exact ⟨ho, hab rfl, he⟩

/-- A handler that closes the input makes the last call return zero, so that the return
values do not add up to the size of the body. -/
theorem onData_close_returns_zero :
    ∃ body decoded calls s, ChunkedBody body decoded ∧
      Run (Feed.Step (body ++ [32]) .close) {} calls s ∧ s.stream.hasInput = false ∧
      output s.log = decoded ∧ s.consumed ≠ body.length :=
  ⟨_, _, [⟨[49, 13, 10, 97, 13, 10, 48, 13, 10, 13, 10, 32], fun _ => some 1⟩], _, sampleBody,
    .cons ⟨rfl, rfl, by decide, _, rfl, rfl⟩ .nil, rfl, rfl, by decide⟩

end BengProxy.Istream
