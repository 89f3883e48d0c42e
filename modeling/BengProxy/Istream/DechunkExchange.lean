import BengProxy.Istream.DechunkBuckets
import BengProxy.Istream.DechunkData

/-!
# Mixed delivery of a chunked body

The consumer of a `DechunkIstream` may mix `FillBucketList`, `ConsumeBucketList` and `OnData`
calls. `IstreamBucketReader::Skip` goes too far if a bucket of the input ends in framing and
data follows in the next one; in every run without such buckets, what is delivered and listed
is the decoding of the body.
-/

namespace BengProxy.Istream

open Base Marked Segments Http DechunkIstream List HttpChunkParser

/-- A call: `_FillBucketList` with what the input lists, `_ConsumeBucketList`, or `OnData`. -/
inductive DechunkCall where
  | fillBucketList (list tmp : IstreamBucketList)
  | consumeBucketList (nbytes : Nat)
  | onData (call : OnDataCall)

/-- A stream in use: whether it still exists and whether `_ConsumeBucketList` has reported
the end, the number of raw bytes taken from the input, the bytes delivered, and the bytes
listed but not yet consumed, with the flag `more` of that list. -/
structure Exchange where
  stream : DechunkIstream := {}
  alive : Bool := true
  eof : Bool := false
  consumed : Nat := 0
  delivered : List UInt8 := []
  listed : List UInt8 := []
  more : Bool := true
  error : Option FillError := none

namespace Exchange

/-- The state after a call of `OnData`, which makes the list stale. -/
def record (s : Exchange) (r : DechunkIstream.OnDataResult) : Exchange where
  stream := r.stream.getD s.stream
  alive := r.stream.isSome
  eof := s.eof
  consumed := s.consumed + r.returned
  delivered := s.delivered ++ output r.log
  error := r.error.map .parse

/-- The state after a call. -/
def apply (action : DechunkInputAction) (s : Exchange) : DechunkCall → Option Exchange
  | .fillBucketList list tmp =>
    match s.stream.fillBucketList list tmp with
    | none => none
    | some (.error e) => some { s with alive := false, error := some e }
    | some (.ok (stream, list')) =>
      some { s with
        stream
        listed := (list'.list.drop list.list.length).flatten
        more := list'.more }
  | .consumeBucketList nbytes =>
    match s.stream.consumeBucketList nbytes with
    | (result, size, stream) =>
      some { s with
        stream
        eof := result.eof
        consumed := s.consumed + size
        delivered := s.delivered ++ s.listed.take result.consumed
        listed := s.listed.drop result.consumed }
  | .onData call =>
    match s.stream.onData action call.src call.accept with
    | none => none
    | some r => some (s.record r)

/-- What the input and the consumer guarantee: the input lists and presents the bytes that were
not consumed yet, and at most what was listed is consumed. -/
def Allowed (bytes : List UInt8) (s : Exchange) : DechunkCall → Prop
  | .fillBucketList _ tmp =>
    s.stream.hasInput = true → DechunkIstream.Lists tmp (bytes.drop s.consumed)
  | .consumeBucketList nbytes => nbytes ≤ s.listed.length
  | .onData call => s.stream.hasInput = true ∧ call.src <+: bytes.drop s.consumed

/-- A call on a stream whose end was not reported yet. -/
def Step (bytes : List UInt8) (action : DechunkInputAction) (s : Exchange) (call : DechunkCall)
    (s' : Exchange) : Prop :=
  s.alive = true ∧ s.eof = false ∧ s.Allowed bytes call ∧ s.apply action call = some s'

/-- No bucket of the input ends in framing while data follows in the buckets behind it, and
once the end of the body was seen, the input lists all that was parsed ahead, or asks for the
fallback. -/
def Inside (bytes : List UInt8) (s : Exchange) : DechunkCall → Prop
  | .fillBucketList _ tmp =>
    s.stream.hasInput = true → Aligned ((mark {} bytes).drop s.consumed) tmp.list ∧
      (s.stream.parser.hasEnded = true →
        s.stream.parsedInput ≤ tmp.getTotalBufferSize ∨ tmp.fallback = true)
  | _ => True

/-- What holds in a run: `done` was consumed, `seen` was parsed ahead of it. -/
structure Inv (ts : List (UInt8 × Bool)) (s : Exchange)
    (done seen todo : List (UInt8 × Bool)) : Prop where
  ts_eq : ts = done ++ (seen ++ todo)
  error_eq : s.error = none
  delivered_eq : s.delivered = payload done
  listed_prefix : s.listed <+: payload seen
  complete : s.more = false → s.listed = payload seen ∧ todo = []
  running : s.alive = true → s.stream.hasInput = true →
    s.stream.Ahead seen todo ∧ s.consumed = done.length ∧ s.stream.eofPending = false
  consumed_le : s.consumed ≤ done.length
  ends_eq : s.stream.ends = if s.stream.hasInput then 0 else 1
  finished : s.stream.hasInput = false → seen ++ todo = [] ∧
    (s.eof = false → s.stream.eofPending = true)
  eof_end : s.eof = true → s.stream.hasInput = false

variable {ts : List (UInt8 × Bool)} {rest : List UInt8} {action : DechunkInputAction}
  {s : Exchange} {done seen todo : List (UInt8 × Bool)}

private theorem drop_consumed {n : Nat} (ht : ts = done ++ (seen ++ todo))
    (hn : n = done.length) : ts.drop n = seen ++ todo := by
  rw [ht, hn, drop_left]

private theorem drop_raw_consumed {n : Nat} (ht : ts = done ++ (seen ++ todo))
    (hn : n = done.length) : (raw ts ++ rest).drop n = raw (seen ++ todo) ++ rest := by
  rw [ht, hn, raw_append, append_assoc, ← length_raw, drop_left]

section

variable (h : Inv ts s done seen todo)
include h

private theorem Inv.fill (ht : HttpChunkParser.Accepts {} ts)
    (hal : s.alive = true) (heo : s.eof = false) {list tmp : IstreamBucketList}
    (hall : s.Allowed (raw ts ++ rest) (.fillBucketList list tmp))
    (hi : s.Inside (raw ts ++ rest) (.fillBucketList list tmp)) :
    ∃ s' seen' todo', s.apply action (.fillBucketList list tmp) = some s' ∧
      Inv ts s' done seen' todo' := by
  cases hin : s.stream.hasInput with
  | false =>
    -- the end is pending: nothing is listed
    obtain ⟨hni, hpe⟩ := h.finished hin
    have hca : s.stream.fillBucketList list tmp = some (.ok (s.stream, list)) := by
      rw [fillBucketList, if_pos (hpe heo)]
    obtain ⟨rfl, rfl⟩ := append_eq_nil_iff.mp hni
    refine ⟨{ s with listed := [], more := list.more }, [], [], ?_, h.ts_eq, h.error_eq,
      h.delivered_eq, nil_prefix, fun _ => ⟨rfl, rfl⟩, h.running, h.consumed_le, h.ends_eq,
      h.finished, h.eof_end⟩
    simp only [apply, hca, drop_length, flatten_nil]
  | true =>
    obtain ⟨ha, hc, hpe⟩ := h.running hal hin
    have hli := hall hin
    obtain ⟨hai, hb⟩ := hi hin
    rw [drop_raw_consumed h.ts_eq hc] at hli
    rw [ht.mark_eq, drop_consumed h.ts_eq hc] at hai
    obtain ⟨d', list', new, todo', kept, hca, rfl, ha', hfr, hl, hpr, hm⟩ :=
      ha.fillBucketList hpe hli hai hb list
    have hke : (list'.list.drop list.list.length).flatten = kept.flatten := by
      rw [hl, drop_left]
    refine ⟨{ s with stream := d', listed := kept.flatten, more := list'.more }, seen ++ new, todo',
      ?_, ?_, h.error_eq, h.delivered_eq, hpr, hm, ?_, h.consumed_le, ?_, ?_, ?_⟩
    · simp only [apply, hca, hke]
    · rw [h.ts_eq, append_assoc seen]
    · intro _ _
      exact ⟨ha', hc, hfr.eofPending_eq.trans hpe⟩
    · simp only [hfr.hasInput_eq, hfr.ends_eq]
      exact h.ends_eq
    · intro hf
      rw [hfr.hasInput_eq, hin] at hf
      cases hf
    · intro he
      rw [heo] at he
      cases he

private theorem Inv.consume (hal : s.alive = true) (heo : s.eof = false)
    {n : Nat} (hn : n ≤ s.listed.length) :
    ∃ eof size d' done' seen', s.stream.consumeBucketList n = (⟨n, eof⟩, size, d') ∧
      payload ((ts.drop s.consumed).take size) = s.listed.take n ∧
      Inv ts { s with
        stream := d'
        eof
        consumed := s.consumed + size
        delivered := s.delivered ++ s.listed.take n
        listed := s.listed.drop n } done' seen' todo ∧
      (eof = true → d'.hasInput = false) ∧
      (s.more = false → n = s.listed.length → eof = true) := by
  cases hin : s.stream.hasInput with
  | false =>
    obtain ⟨hni, hpe⟩ := h.finished hin
    obtain ⟨rfl, rfl⟩ := append_eq_nil_iff.mp hni
    have hl : s.listed = [] := prefix_nil.mp h.listed_prefix
    obtain rfl : n = 0 := by
      rw [hl] at hn
      exact Nat.le_zero.mp hn
    refine ⟨true, 0, s.stream, done, [], ?_, by simp, ?_, fun _ => hin, fun _ _ => rfl⟩
    · rw [consumeBucketList, if_pos (hpe heo)]
    · refine ⟨h.ts_eq, h.error_eq, by simpa using h.delivered_eq, ?_, ?_, ?_, h.consumed_le,
        h.ends_eq, ?_, fun _ => hin⟩
      · rw [drop_zero]
        exact h.listed_prefix
      · intro hm
        exact h.complete hm
      · intro _ hi
        rw [hin] at hi
        cases hi
      · exact fun _ => ⟨rfl, by simp⟩
  | true =>
    obtain ⟨ha, hc, hpe⟩ := h.running hal hin
    obtain ⟨eof, taken, left, d', hca, rfl, hpa, ha', hfr, he', hlf⟩ :=
      ha.consumeBucketList hpe (le_trans hn h.listed_prefix.length_le)
    have hta : (payload (taken ++ left)).take n = s.listed.take n := by
      obtain ⟨more, hmo⟩ := h.listed_prefix
      rw [← hmo, take_append_of_le_length hn]
    have hd : (payload (taken ++ left)).drop n = payload left := by
      have hle : (payload taken).length = n := by
        rw [hpa, length_take_of_le (le_trans hn h.listed_prefix.length_le)]
      rw [payload_append, ← hle, drop_left]
    have hen := h.ends_eq
    rw [hin] at hen
    refine ⟨eof, taken.length, _, done ++ taken, left, hca, ?_, ?_, ?_, ?_⟩
    · rw [drop_consumed h.ts_eq hc, append_assoc, take_left, hpa, hta]
    · refine ⟨?_, h.error_eq, ?_, ?_, ?_, ?_, ?_, ?_, ?_, ?_⟩
      · rw [h.ts_eq]
        simp only [append_assoc]
      · simp only [payload_append, h.delivered_eq]
        rw [hpa, hta]
      · rw [← hd]
        exact h.listed_prefix.drop n
      · intro hm
        obtain ⟨hl, ht⟩ := h.complete hm
        exact ⟨by simp only [hl, hd], ht⟩
      · intro _ hi
        cases eof with
        | true => cases hi
        | false => exact ⟨ha', by rw [length_append, ← hc], hfr.eofPending_eq.trans hpe⟩
      · simp only [length_append, hc]
        exact le_rfl
      · cases eof with
        | true => simp [invokeDechunkEnd, hfr.ends_eq, hen]
        | false => simpa [hfr.ends_eq, hfr.hasInput_eq, hin] using hen
      · intro hi
        cases eof with
        | true =>
          obtain ⟨-, rfl⟩ := he'.mp rfl
          exact ⟨by rw [hlf rfl]; rfl, by simp⟩
        | false =>
          simp only [Bool.false_eq_true, if_false, hfr.hasInput_eq, hin] at hi
          cases hi
      · intro he
        simp only at he
        rw [he]
        rfl
    · intro he
      rw [he]
      rfl
    · intro hm hall
      obtain ⟨hl, ht⟩ := h.complete hm
      exact he'.mpr ⟨by rw [hall, hl], ht⟩

private theorem Inv.onData (hal : s.alive = true) (heo : s.eof = false)
    (hi : s.stream.hasInput = true) {call : OnDataCall}
    (hsr : call.src <+: (raw ts ++ rest).drop s.consumed) :
    ∃ s' done' seen' todo', s.apply action (.onData call) = some s' ∧
      Inv ts s' done' seen' todo' := by
  obtain ⟨ha, hc, hpe⟩ := h.running hal hi
  rw [drop_raw_consumed h.ts_eq hc] at hsr
  obtain ⟨r, taken, left, todo', hr, her, hall, -, hou, -, ho⟩ :=
    onData_spec ha hsr action call.accept
  have ht : ts = (done ++ taken) ++ (left ++ todo') := by
    rw [h.ts_eq, hall, append_assoc]
  have hd : s.delivered ++ output r.log = payload (done ++ taken) := by
    rw [h.delivered_eq, hou, payload_append]
  have hen := h.ends_eq
  rw [hi] at hen
  have hn {p : Prop} (he : s.eof = true) : p := by
    rw [heo] at he
    cases he
  have he' : (s.record r).error = none := congrArg (Option.map _) her
  refine ⟨s.record r, done ++ taken, left, todo', by simp only [apply, hr], ?_⟩
  cases ho with
  | destroyed hs hre _ =>
    have hst : (s.record r).stream = s.stream := by simp [record, hs]
    refine ⟨ht, he', hd, nil_prefix, fun hm => (nomatch hm), ?_, ?_, ?_, ?_, hn⟩
    · intro hf
      simp [record, hs] at hf
    · simp only [record, hre, length_append]
      omega
    · rw [hst]
      exact h.ends_eq
    · rw [hst, hi]
      exact nofun
  | running d' hs hre ha' hfr _ =>
    have hst : (s.record r).stream = d' := by simp [record, hs]
    have hco : (s.record r).consumed = (done ++ taken).length := by
      simp [record, hre, hc]
    refine ⟨ht, he', hd, nil_prefix, fun hm => (nomatch hm), ?_, le_of_eq hco, ?_, ?_, hn⟩
    · rw [hst]
      exact fun _ _ => ⟨ha', hco, hfr.eofPending_eq.trans hpe⟩
    · rw [hst, hfr.ends_eq, hfr.hasInput_eq, hi]
      exact hen
    · rw [hst, hfr.hasInput_eq, hi]
      exact nofun
  | ended d' hs ha' hfr hl hre =>
    have hst : (s.record r).stream = d'.eofDetected := by simp [record, hs]
    refine ⟨ht, he', hd, nil_prefix, fun hm => (nomatch hm), ?_, ?_, ?_, ?_, hn⟩
    · rw [hst]
      exact nofun
    · simp only [record, hre, length_append]
      split <;> omega
    · rw [hst]
      simp [eofDetected, invokeDechunkEnd, hfr.ends_eq, hen]
    · rw [hst]
      exact fun _ => ⟨hl, fun _ => rfl⟩

private theorem Inv.step (action : DechunkInputAction) (ht : HttpChunkParser.Accepts {} ts)
    (ha : s.alive = true) (he : s.eof = false) {call : DechunkCall}
    (hal : s.Allowed (raw ts ++ rest) call) (hin : s.Inside (raw ts ++ rest) call) :
    ∃ s' done' seen' todo', s.apply action call = some s' ∧ Inv ts s' done' seen' todo' := by
  cases call with
  | fillBucketList list tmp =>
    obtain ⟨s', seen', todo', hs, hi⟩ := h.fill ht ha he hal hin
    exact ⟨s', done, seen', todo', hs, hi⟩
  | consumeBucketList n =>
    obtain ⟨eof, size, d', done', seen', hc, -, hi, -, -⟩ := h.consume ha he hal
    exact ⟨_, done', seen', todo, by simp only [apply, hc], hi⟩
  | onData call => exact h.onData ha he hal.1 hal.2

end

private theorem Inv.of_run {c : List DechunkCall} (ht : HttpChunkParser.Accepts {} ts)
    (h : Run (fun s call s' => Step (raw ts ++ rest) action s call s' ∧
      s.Inside (raw ts ++ rest) call) {} c s) :
    ∃ done seen todo, Inv ts s done seen todo := by
  apply h.invariant (P := fun s => ∃ done seen todo, Inv ts s done seen todo)
  · refine ⟨[], [], ts, rfl, rfl, rfl, nil_prefix, by simp, ?_, le_rfl, rfl, by simp,
      by simp⟩
    exact fun _ _ => ⟨⟨⟨rfl, ht, rfl, rfl⟩, by simp, Nat.zero_le _⟩, rfl, rfl⟩
  · rintro s call s' ⟨done, seen, todo, hi⟩ ⟨⟨hal, he, ha, hs⟩, hin⟩
    obtain ⟨s'', done', seen', todo', hs', hi'⟩ := hi.step action ht hal he ha hin
    rw [hs] at hs'
    cases hs'
    exact ⟨done', seen', todo', hi'⟩

end Exchange

/-- A chunked body, followed by anything, is delivered by any mix of calls, none of which is
outside the condition. What was delivered and listed is a prefix of the decoding, and the
decoding if `more` is clear; the raw bytes taken are the delivered ones and framing. Every
further call returns without an error. `ConsumeBucketList(n)` consumes `n` bytes of data and
else only framing; if `more` is clear and everything is consumed, it reports the end.
`OnDechunkEnd` was called once if the input is gone, and else not at all. -/
theorem mixed_delivery {body decoded rest : List UInt8} {action : DechunkInputAction}
    {calls : List DechunkCall} {s : Exchange} (hb : ChunkedBody body decoded)
    (h : Run (fun s call s' => Exchange.Step (body ++ rest) action s call s' ∧
      s.Inside (body ++ rest) call) {} calls s) :
    s.error = none ∧ s.delivered ++ s.listed <+: decoded ∧
    (s.more = false → s.delivered ++ s.listed = decoded) ∧
    s.consumed ≤ body.length ∧
    (s.alive = true → s.stream.hasInput = true →
      s.delivered = payload ((mark {} body).take s.consumed)) ∧
    s.stream.ends = (if s.stream.hasInput then 0 else 1) ∧
    (s.stream.hasInput = false → s.delivered = decoded) ∧
    (s.eof = true → s.stream.hasInput = false) ∧
    (s.alive = true → s.eof = false →
      (∀ call, s.Allowed (body ++ rest) call → s.Inside (body ++ rest) call →
        ∃ s', Exchange.Step (body ++ rest) action s call s') ∧
      ∀ n ≤ s.listed.length, ∃ eof size d', s.stream.consumeBucketList n = (⟨n, eof⟩, size, d') ∧
        payload (((mark {} body).drop s.consumed).take size) = s.listed.take n ∧
        (s.more = false → n = s.listed.length → eof = true) ∧
        (eof = true → s.delivered ++ s.listed.take n = decoded ∧ d'.ends = 1)) := by
  obtain ⟨ts, rfl, rfl, hac⟩ := accepts_of_body hb 0
  obtain ⟨done, seen, todo, hi⟩ := Exchange.Inv.of_run hac h
  have hmark : mark {} (raw ts) = ts := by
    have hm := hac.mark_eq []
    rwa [append_nil] at hm
  have hpa : payload ts = payload done ++ (payload seen ++ payload todo) := by
    rw [hi.ts_eq, payload_append, payload_append]
  rw [hmark, length_raw]
  refine ⟨hi.error_eq, ?_, ?_, ?_, ?_, hi.ends_eq, ?_, hi.eof_end, ?_⟩
  · rw [hpa, hi.delivered_eq]
    exact (prefix_append_right_inj _).mpr (hi.listed_prefix.trans (prefix_append _ _))
  · intro hm
    obtain ⟨hl, ht⟩ := hi.complete hm
    rw [hpa, hi.delivered_eq, hl, ht, payload_nil, append_nil]
  · have hle := hi.consumed_le
    rw [hi.ts_eq, length_append]
    omega
  · intro hal hin
    obtain ⟨-, hc, -⟩ := hi.running hal hin
    rw [hi.delivered_eq, hi.ts_eq, hc, take_left]
  · intro hin
    obtain ⟨rfl, rfl⟩ := append_eq_nil_iff.mp (hi.finished hin).1
    rw [hpa, hi.delivered_eq]
    simp
  · intro hal heo
    constructor
    · intro call hall hin
      obtain ⟨s', -, -, -, hs, -⟩ := hi.step action hac hal heo hall hin
      exact ⟨s', hal, heo, hall, hs⟩
    · intro n hn
      obtain ⟨eof, size, d', done', seen', hc, hsize, hi', hend, hmore⟩ := hi.consume hal heo hn
      refine ⟨eof, size, d', hc, hsize, hmore, ?_⟩
      intro he
      have hg := hend he
      obtain ⟨rfl, rfl⟩ := append_eq_nil_iff.mp (hi'.finished hg).1
      have hen := hi'.ends_eq
      have hd := hi'.delivered_eq
      have hts := hi'.ts_eq
      simp only [hg] at hen
      rw [append_nil, append_nil] at hts
      exact ⟨by rw [hts]; exact hd, hen⟩

/-- The first bucket ends in data: the byte is listed, and consuming it ends the body. -/
theorem mixed_delivery_sample :
    ∃ s, Run (fun s call s' =>
        Exchange.Step ([49, 13, 10, 97, 13, 10, 48, 13, 10, 13, 10] ++ []) .abandon s call s' ∧
        s.Inside ([49, 13, 10, 97, 13, 10, 48, 13, 10, 13, 10] ++ []) call) {}
        [.fillBucketList {} { list := [[49, 13, 10, 97], [13, 10, 48, 13, 10, 13, 10]] },
          .consumeBucketList 1] s ∧
      s.eof = true ∧ s.delivered = [97] ∧ s.stream.ends = 1 := by
  apply Run.exists_of (p := fun s => s.eof = true ∧ s.stream.hasInput = false)
  · refine ⟨_, .cons ⟨⟨rfl, rfl, fun _ => ⟨by simp [NoEmpty], by decide, fun _ => rfl⟩, rfl⟩,
      fun _ => ⟨⟨.inl rfl, .inr rfl, trivial⟩, nofun⟩⟩
      (.cons ⟨⟨rfl, rfl, ?_, rfl⟩, trivial⟩ .nil), rfl, rfl⟩
    exact le_refl 1
  · rintro s hr ⟨he, hi⟩
    obtain ⟨-, -, -, -, -, hen, hd, -⟩ := mixed_delivery sampleBody hr
    rw [hi] at hen
    exact ⟨he, hd hi, hen⟩

/-- The first bucket ends in framing: `Skip` counts the header twice, and the byte `0` of the
last chunk is listed in place of the data. -/
theorem fill_skips_too_far :
    ∃ body decoded calls s, ChunkedBody body decoded ∧
      Run (Exchange.Step body .abandon) {} calls s ∧ s.listed = [48] ∧ s.more = false ∧
      ¬ s.delivered ++ s.listed <+: decoded :=
  ⟨_, _, [.fillBucketList {} { list := [[49, 13, 10], [97, 13, 10, 48, 13, 10, 13, 10]] }], _,
    sampleBody,
    .cons ⟨rfl, rfl, fun _ => ⟨by simp [NoEmpty], by decide, fun _ => rfl⟩, rfl⟩ .nil, rfl, rfl,
    by decide⟩

end BengProxy.Istream
