import BengProxy.Base.Segments
import BengProxy.Istream.Bucket
import BengProxy.Istream.DechunkInvariant

/-!
# Delivery of a chunked body through buckets

Models `IstreamBucketReader`, `DechunkIstream::_FillBucketList` and
`DechunkIstream::_ConsumeBucketList`, `src/istream/DechunkIstream.cxx`. The input is a
parameter: the buckets it lists are an argument of `fillBucketList`, and the amount that is
consumed from it is a result of `consumeBucketList`.
-/

namespace BengProxy.Istream

open List DechunkIstream
open Base Marked Segments Http HttpChunkParser

/-- `IstreamBucketReader`, `DechunkIstream.cxx:20-28`: the buckets from the current
one on, and the position in it. -/
structure IstreamBucketReader where
  rest : List (List UInt8)
  position : Nat := 0
  deriving DecidableEq, Repr

namespace IstreamBucketReader

/-- The loop of `IstreamBucketReader::Skip`; `size` stays the same when the reader enters the
next bucket. -/
def skipLoop (size : Nat) : List (List UInt8) → Nat → Nat × IstreamBucketReader
  | [], position => (0, { rest := [], position })
  | b :: rest, position =>
    if size = 0 then (0, { rest := b :: rest, position })
    else if b.length - position ≤ size then
      let (result, r) := skipLoop size rest 0
      (b.length - position + result, r)
    else (size, { rest := b :: rest, position := position + size })

variable (r : IstreamBucketReader)

/-- `IstreamBucketReader::Skip`, `DechunkIstream.cxx:30-47`. -/
def skip (size : Nat) : Nat × IstreamBucketReader :=
  skipLoop size r.rest r.position

/-- `IstreamBucketReader::ReadSome`, `DechunkIstream.cxx:49-65`. -/
def readSome (size : Nat) : List UInt8 × IstreamBucketReader :=
  match r.rest with
  | [] => ([], r)
  | b :: rest =>
    let b' := b.drop r.position
    if b'.length ≤ size then (b', { rest })
    else (b'.take size, { r with position := r.position + size })

/-- The loop that reads the data of a chunk, `DechunkIstream.cxx:501-509`. -/
def readData : Nat → Nat → IstreamBucketReader → Option (List (List UInt8) × IstreamBucketReader)
  | _, 0, r => some ([], r)
  | 0, _ + 1, _ => none
  | fuel + 1, remaining + 1, r =>
    match r.readSome (remaining + 1) with
    | ([], r) => some ([], r)
    | (data, r) =>
      (readData fuel (remaining + 1 - data.length) r).map fun (more, r) => (data :: more, r)

/-- The loop over `chunks` of `DechunkIstream::_FillBucketList`,
`DechunkIstream.cxx:494-510`: the buckets that are pushed. -/
def readChunks : List ParsedChunk → IstreamBucketReader → Option (List (List UInt8))
  | [], _ => some []
  | chunk :: chunks, r =>
    let (skipped, r) := r.skip chunk.header
    if skipped < chunk.header then some []
    else
      match readData (r.rest.length + 1) chunk.data r with
      | none => none
      | some (data, r) => (readChunks chunks r).map (data ++ ·)

/-- The buckets in front of the reader. -/
def view : List (List UInt8) :=
  match r.rest with
  | [] => []
  | b :: rest => b.drop r.position :: rest

/-- The bytes in front of the reader. -/
def bytes : List UInt8 := r.view.flatten

theorem view_zero (rest : List (List UInt8)) : view { rest } = rest := by
  cases rest <;> rfl

private theorem view_cons (b : List UInt8) (rest : List (List UInt8)) (position : Nat) :
    view { rest := b :: rest, position } = b.drop position :: rest := rfl

private theorem length_bytes_cons (b : List UInt8) (rest : List (List UInt8)) (position : Nat) :
    (bytes { rest := b :: rest, position }).length = b.length - position + rest.flatten.length := by
  rw [bytes, view_cons, flatten_cons, length_append, length_drop]

private theorem skip_inside {size : Nat} {b : List UInt8}
    {bs : List (List UInt8)} (hv : r.view = b :: bs) (hs : size < b.length) :
    ∃ r', r.skip size = (size, r') ∧ r'.view = advance size r.view := by
  rw [hv, advance_of_lt hs]
  obtain ⟨rest, position⟩ := r
  cases rest with
  | nil => cases hv
  | cons c rest =>
    simp only [view, cons.injEq] at hv
    obtain ⟨rfl, rfl⟩ := hv
    rw [length_drop] at hs
    by_cases h0 : size = 0
    · subst h0
      exact ⟨{ rest := c :: rest, position }, by rw [skip, skipLoop, if_pos rfl], rfl⟩
    · refine ⟨{ rest := c :: rest, position := position + size }, ?_, ?_⟩
      · simp only [skip, skipLoop, if_neg h0]
        rw [if_neg (by omega)]
      · simp only [view, drop_drop]

private theorem skip_total (size : Nat) (rest : List (List UInt8)) :
    ∀ (position : Nat), NoEmpty (view { rest, position }) →
      ∃ n r', skipLoop size rest position = (n, r') ∧ NoEmpty r'.view ∧
        n + r'.bytes.length = (bytes { rest, position }).length ∧ (size ≤ n ∨ r'.bytes = []) := by
  induction rest with
  | nil => exact fun position h => ⟨0, _, rfl, h, zero_add _, .inr rfl⟩
  | cons b rest ih =>
    intro position h
    by_cases h0 : size = 0
    · refine ⟨0, { rest := b :: rest, position }, ?_, h, zero_add _, .inl (le_of_eq h0)⟩
      rw [skipLoop, if_pos h0]
    by_cases hle : b.length - position ≤ size
    · obtain ⟨n, r', hs, hne, hl, he⟩ := ih 0 (by rw [view_zero]; exact h.tail)
      refine ⟨b.length - position + n, r', ?_, hne, ?_, he.imp_left fun hn => by omega⟩
      · rw [skipLoop, if_neg h0, if_pos hle, hs]
      · rw [add_assoc, hl, length_bytes_cons, bytes, view_zero]
    refine ⟨size, { rest := b :: rest, position := position + size }, ?_, ?_, ?_,
      .inl (le_rfl)⟩
    · rw [skipLoop, if_neg h0, if_neg hle]
    · rw [view_cons] at h ⊢
      rw [← drop_drop]
      apply h.drop_head
      rw [length_drop]
      omega
    · rw [length_bytes_cons, length_bytes_cons]
      omega

private theorem readSome_spec {b : List UInt8} {bs : List (List UInt8)}
    (hv : r.view = b :: bs) (hne : NoEmpty bs) (size : Nat) :
    ∃ r', r.readSome size = (b.take size, r') ∧ r'.view = advance (b.take size).length r.view ∧
      (b.length ≤ size → r'.rest.length < r.rest.length) := by
  obtain ⟨rest, position⟩ := r
  cases rest with
  | nil => cases hv
  | cons c rest =>
    rw [view_cons, cons.injEq] at hv
    obtain ⟨rfl, rfl⟩ := hv
    rw [view_cons]
    by_cases hle : (c.drop position).length ≤ size
    · refine ⟨{ rest }, ?_, ?_, fun _ => Nat.lt_succ_self _⟩
      · simp only [readSome, if_pos hle, take_of_length_le hle]
      · rw [take_of_length_le hle, advance_of_le (le_rfl), Nat.sub_self,
          hne.advance_zero, view_zero]
    · have hlt : size < (c.drop position).length := not_le.mp hle
      refine ⟨{ rest := c :: rest, position := position + size }, ?_, ?_, fun h => absurd h hle⟩
      · simp only [readSome, if_neg hle]
      · rw [length_take_of_le (le_of_lt hlt), advance_of_lt hlt, view_cons, drop_drop]

private theorem readData_spec (fuel : Nat) :
    ∀ (n : Nat) (r : IstreamBucketReader), NoEmpty r.view → r.rest.length < fuel →
      ∃ data r', readData fuel n r = some (data, r') ∧ data.flatten = r.bytes.take n ∧
        r'.view = advance n r.view := by
  induction fuel with
  | zero =>
    intro n r _ hf
    omega
  | succ fuel ih =>
    intro n r hne hf
    cases n with
    | zero => exact ⟨[], r, rfl, rfl, hne.advance_zero.symm⟩
    | succ n =>
      cases hv : r.view with
      | nil =>
        have hrs : r.rest = [] := by
          cases hr : r.rest with
          | nil => rfl
          | cons b bs =>
            rw [view, hr] at hv
            cases hv
        refine ⟨[], r, ?_, ?_, hv⟩
        · simp only [readData, readSome, hrs]
        · rw [bytes, hv]
          rfl
      | cons b bs =>
        rw [hv] at hne
        obtain ⟨r1, hre, hv1, hd⟩ := r.readSome_spec hv hne.tail (n + 1)
        have hb := hne.head_pos
        obtain ⟨ch, data, ht⟩ : ∃ ch data, b.take (n + 1) = ch :: data := by
          cases b with
          | nil => cases hb
          | cons ch b => exact ⟨ch, b.take n, rfl⟩
        have hne1 : NoEmpty r1.view := by
          rw [hv1, hv]
          exact hne.advance _
        have hsu : (b.take (n + 1)).length + (n + 1 - (b.take (n + 1)).length) = n + 1 := by
          rw [length_take]
          omega
        -- either the bucket is used up, or nothing remains to be read
        obtain ⟨more, r', hm, hfl, hv'⟩ :
            ∃ more r', readData fuel (n + 1 - (b.take (n + 1)).length) r1 = some (more, r') ∧
              more.flatten = r1.bytes.take (n + 1 - (b.take (n + 1)).length) ∧
              r'.view = advance (n + 1 - (b.take (n + 1)).length) r1.view := by
          by_cases hle : b.length ≤ n + 1
          · have := hd hle
            exact ih _ r1 hne1 (by omega)
          have hz : n + 1 - (b.take (n + 1)).length = 0 := by
            rw [length_take]
            omega
          rw [hz]
          exact ⟨[], r1, by rw [readData], rfl, hne1.advance_zero.symm⟩
        refine ⟨b.take (n + 1) :: more, r', ?_, ?_, ?_⟩
        · rw [readData, hre, ht]
          rw [ht] at hm
          simp only [hm, Option.map_some]
        · have hfi : (b ++ bs.flatten).take (b.take (n + 1)).length = b.take (n + 1) := by
            rw [take_append_of_le_length (length_take_le' _ _), length_take, ← take_eq_take_min]
          rw [flatten_cons, hfl, bytes, hv1, flatten_advance, bytes, hv, flatten_cons]
          nth_rewrite 1 [← hfi]
          rw [← take_add, hsu]
        · rw [hv', hv1, advance_advance, hsu, hv]

private theorem readChunks_framing (c : List ParsedChunk) :
    ∀ (r : IstreamBucketReader), NoEmpty r.view → true ∉ (chunkMarks c).take r.bytes.length →
      ∃ data, readChunks c r = some data ∧ data.flatten = [] := by
  induction c with
  | nil => exact fun _ _ _ => ⟨[], rfl, rfl⟩
  | cons chunk c ih =>
    intro r hne hfr
    obtain ⟨n, r', hs, hne', hle, he⟩ := skip_total chunk.header r.rest r.position hne
    have hle : n + r'.bytes.length = r.bytes.length := hle
    rw [readChunks, skip, hs]
    by_cases hlt : n < chunk.header
    · exact ⟨[], by simp only [if_pos hlt], rfl⟩
    simp only [if_neg hlt]
    rw [chunkMarks_cons, append_assoc, take_append, length_replicate, mem_append, not_or] at hfr
    -- the data of this chunk is not in front of the reader
    have hd : 0 < chunk.data → r'.bytes.length = 0 := by
      intro hpo
      by_contra hr
      obtain ⟨t, ht⟩ : ∃ t, r.bytes.length - chunk.header = t + 1 := ⟨_, (by omega :
        r.bytes.length - chunk.header = r.bytes.length - chunk.header - 1 + 1)⟩
      obtain ⟨m, hm⟩ : ∃ m, chunk.data = m + 1 := ⟨chunk.data - 1, by omega⟩
      apply hfr.2
      simp [ht, hm, replicate_succ]
    obtain ⟨data, r'', hre, hfl, hv⟩ :=
      readData_spec (r'.rest.length + 1) chunk.data r' hne' (Nat.lt_succ_self _)
    have hl'' : r''.bytes.length = r'.bytes.length - chunk.data := by
      rw [bytes, hv, flatten_advance, length_drop]
      rfl
    obtain ⟨more, hmo, hni⟩ := ih r'' (by rw [hv]; exact hne'.advance _) (by
      by_cases hpo : 0 < chunk.data
      · have hz : r''.bytes.length = 0 := by rw [hl'', hd hpo, Nat.zero_sub]
        rw [hz]
        exact not_mem_nil
      have hz : chunk.data = 0 := by omega
      rw [hz, replicate_zero] at hfr
      intro hme
      apply hfr.2
      exact (take_prefix_take_left (by omega)).subset hme)
    refine ⟨data ++ more, by rw [hre]; simp only [hmo, Option.map_some], ?_⟩
    rw [flatten_append, hni, append_nil, hfl]
    by_cases hpo : 0 < chunk.data
    · rw [eq_nil_of_length_eq_zero (hd hpo), take_nil]
    · rw [Nat.eq_zero_of_not_pos hpo, take_zero]

private theorem readChunks_spec (c : List ParsedChunk) {rest : List UInt8} {ms : List Bool} :
    ∀ {r : IstreamBucketReader} {ts : List (UInt8 × Bool)}, NoEmpty r.view →
      r.bytes <+: raw ts ++ rest → marks ts = chunkMarks c ++ ms → Aligned ts r.view →
      ∃ data, readChunks c r = some data ∧
        data.flatten = payload (ts.take (min r.bytes.length (chunkMarks c).length)) := by
  induction c with
  | nil =>
    intro r ts _ _ _ _
    exact ⟨[], rfl, by simp⟩
  | cons chunk c ih =>
    intro r ts hne hpr hm hal
    rw [chunkMarks_cons, append_assoc, append_assoc] at hm
    cases hv : r.view with
    | nil =>
      have hni : r.bytes = [] := by rw [bytes, hv]; rfl
      obtain ⟨data, hr, hd⟩ := readChunks_framing (chunk :: c) r hne (by simp [hni])
      exact ⟨data, hr, by rw [hd, hni]; simp⟩
    | cons b bs =>
      by_cases hi : chunk.header < b.length
      · -- the header ends inside the first bucket
        obtain ⟨us, ts, rfl, hul, hu, hm⟩ := split_replicate hm (le_refl chunk.header)
        rw [Nat.sub_self, replicate_zero] at hm
        obtain ⟨vs, ws, rfl, hvl, hv', hm⟩ := split_replicate hm (le_refl chunk.data)
        rw [Nat.sub_self, replicate_zero] at hm
        obtain ⟨r1, hsk, hv1⟩ := r.skip_inside hv hi
        have hne1 : NoEmpty r1.view := by rw [hv1]; exact hne.advance _
        have hb1 : r1.bytes = r.bytes.drop us.length := by
          rw [bytes, hv1, flatten_advance, ← hul]
          rfl
        obtain ⟨data, r2, hre, hfl, hv2⟩ :=
          readData_spec (r1.rest.length + 1) chunk.data r1 hne1 (Nat.lt_succ_self _)
        have hb2 : r2.bytes = r.bytes.drop (us ++ vs).length := by
          rw [bytes, hv2, flatten_advance, ← bytes, hb1, drop_drop, length_append, hvl]
        obtain ⟨more, hmo, hf'⟩ := ih (r := r2) (by rw [hv2]; exact hne1.advance _)
          (by
            rw [hb2]
            apply drop_parsed
            rwa [append_assoc]) hm
          (by
            have ha := hal.advance (us ++ vs).length
            rw [← append_assoc, drop_left] at ha
            rwa [hv2, hv1, advance_advance, ← hul, ← hvl, ← length_append])
        refine ⟨data ++ more, ?_, ?_⟩
        · rw [readChunks, hsk]
          simp only [lt_irrefl, if_false, hre, hmo, Option.map_some]
        · have hp1 : r1.bytes <+: raw (vs ++ ws) ++ rest := by
            rw [hb1]
            exact drop_parsed hpr
          have hda : data.flatten = payload (vs.take r1.bytes.length) := by
            have hma : marks (vs.take r1.bytes.length) =
                replicate (min r1.bytes.length chunk.data) true := by
              rw [marks_take, hv', take_replicate]
            rw [hfl, ← hvl, take_of_prefix hp1, payload_of_data hma]
          have hl1 : r1.bytes.length = r.bytes.length - us.length := by
            rw [hb1, length_drop]
          have hl2 : r2.bytes.length = r.bytes.length - us.length - vs.length := by
            rw [hb2, length_drop, length_append, Nat.sub_sub]
          have hla : min r.bytes.length (chunkMarks (chunk :: c)).length - us.length -
              vs.length = min r2.bytes.length (chunkMarks c).length := by
            simp only [chunkMarks_cons, length_append, length_replicate]
            omega
          have hmi :
              vs.take (min r.bytes.length (chunkMarks (chunk :: c)).length - us.length) =
              vs.take r1.bytes.length := by
            rw [take_eq_take_iff]
            simp only [chunkMarks_cons, length_append, length_replicate]
            omega
          have hfi : payload (us.take (min r.bytes.length
              (chunkMarks (chunk :: c)).length)) = [] := by
            rw [payload_eq_nil_iff, marks_take, hu]
            simp
          rw [flatten_append, hda, hf', take_append, take_append,
            payload_append, payload_append, hla, hmi, hfi, nil_append]
      · -- the bucket ends in the header: no data follows
        have hk : b.length ≤ chunk.header := not_lt.mp hi
        have hfi : marks (ts.take b.length) = replicate b.length false := by
          rw [marks_take, hm, take_append_of_le_length (by simpa using hk),
            take_replicate, min_eq_left hk]
        rw [hv] at hal
        have hrs : payload ((ts.drop b.length).take bs.flatten.length) = [] := by
          apply hal.1.resolve_left
          intro hla
          have hno := payload_eq_nil_iff.mp (payload_of_framing hfi)
          cases hl : (ts.take b.length).getLast? with
          | none =>
            rw [hl] at hla
            cases hla
          | some t =>
            rw [hl] at hla
            apply hno
            exact mem_map.mpr ⟨t, mem_of_getLast? hl, hla⟩
        have hall : payload (ts.take r.bytes.length) = [] := by
          have hle : r.bytes.length = b.length + bs.flatten.length := by
            rw [bytes, hv, flatten_cons, length_append]
          rw [hle, take_add, payload_append, payload_of_framing hfi, hrs]
          rfl
        obtain ⟨data, hr, hd⟩ := readChunks_framing (chunk :: c) r hne (by
          rw [payload_eq_nil_iff, marks_take, hm] at hall
          intro hme
          apply hall
          rw [← append_assoc, ← append_assoc, take_append, mem_append]
          exact .inl hme)
        exact ⟨data, hr, by rw [hd, payload_take_eq_nil hall (min_le_left _ _)]⟩

end IstreamBucketReader

/-- The exceptions of `DechunkIstream::_FillBucketList`. -/
inductive FillError where
  | parse (e : ParseError)
  | prematureEof
  deriving DecidableEq, Repr

/-- The messages of the exceptions, `DechunkIstream.cxx:487`. -/
def FillError.message : FillError → String
  | .parse e => e.message
  | .prematureEof => "premature EOF in dechunker"

namespace DechunkIstream

/-- The loop over the buckets of the input in `DechunkIstream::_FillBucketList`,
`DechunkIstream.cxx:454-483`; also whether there is more data than room in
`chunks`. -/
def parseBuckets : DechunkIstream → Nat → List (List UInt8) →
    Option (Except ParseError (DechunkIstream × Bool))
  | d, _, [] => some (.ok (d, false))
  | d, skip, b :: bs =>
    if b.length ≤ skip then parseBuckets d (skip - b.length) bs
    else
      match d.parseInput (b.drop skip) with
      | none => none
      | some (.error e) => some (.error e)
      | some (.ok (true, d)) => parseBuckets d 0 bs
      | some (.ok (false, d)) => some (.ok (d, !d.parser.hasEnded))

/-- `DechunkIstream::_FillBucketList`, `DechunkIstream.cxx:442-511`; `tmp` is what
the input lists. -/
def fillBucketList (d : DechunkIstream) (list tmp : IstreamBucketList) :
    Option (Except FillError (DechunkIstream × IstreamBucketList)) :=
  if d.eofPending then some (.ok (d, list))
  else
    let list := if tmp.fallback then list.enableFallback else list
    match d.parseBuckets d.parsedInput tmp.list with
    | none => none
    | some (.error e) => some (.error (.parse e))
    | some (.ok (d, full)) =>
      let list := if full then list.setMore else list
      if !d.parser.hasEnded && !tmp.more && !list.more then some (.error .prematureEof)
      else
        let list := if d.parser.hasEnded then list else list.setMore
        match IstreamBucketReader.readChunks d.chunks { rest := tmp.list } with
        | none => none
        | some data => some (.ok (d, list.pushAll data))

/-- The loop over `chunks` of `DechunkIstream::_ConsumeBucketList`,
`DechunkIstream.cxx:519-540`: the sizes of the headers and of the data that are
consumed, and what is left of the queue. -/
def consumeChunks : Nat → List ParsedChunk → Nat × Nat × List ParsedChunk
  | _, [] => (0, 0, [])
  | nbytes, chunk :: chunks =>
    if nbytes < chunk.data then
      (chunk.header, nbytes, { header := 0, data := chunk.data - nbytes } :: chunks)
    else
      let (headers, consumed, left) := consumeChunks (nbytes - chunk.data) chunks
      (chunk.header + headers, chunk.data + consumed, left)

/-- `DechunkIstream::_ConsumeBucketList`, `DechunkIstream.cxx:513-558`; also how
much is consumed from the input. -/
def consumeBucketList (d : DechunkIstream) (nbytes : Nat) :
    ConsumeBucketResult × Nat × DechunkIstream :=
  if d.eofPending then ({ consumed := 0, eof := true }, 0, d)
  else
    let (headers, consumed, chunks) := consumeChunks nbytes d.chunks
    let headers := if chunks.isEmpty then headers + d.pendingHeader else headers
    let d := { d with
      chunks
      pendingHeader := if chunks.isEmpty then 0 else d.pendingHeader
      parsedInput := d.parsedInput - (headers + consumed) }
    let atEof := chunks.isEmpty && d.parser.hasEnded
    ({ consumed, eof := atEof }, headers + consumed, if atEof then d.invokeDechunkEnd else d)

variable {d : DechunkIstream} {seen todo : List (UInt8 × Bool)}

private theorem Ahead.parseBuckets {rest : List UInt8} (bs : List (List UInt8)) :
    ∀ {d : DechunkIstream} {seen near todo : List (UInt8 × Bool)}, Ahead d seen todo →
      bs.flatten <+: raw (near ++ todo) ++ rest →
      ∃ d' full new todo', d.parseBuckets near.length bs = some (.ok (d', full)) ∧
        todo = new ++ todo' ∧ Ahead d' (seen ++ new) todo' ∧ Frames d d' ∧
        (new ≠ [] → near.length + new.length ≤ bs.flatten.length) ∧
        (full = false → d'.parser.hasEnded = false →
          bs.flatten.length ≤ near.length + new.length) := by
  induction bs with
  | nil =>
    intro d seen near todo h _
    exact ⟨d, false, [], todo, rfl, rfl, by rwa [append_nil], .refl d,
      fun hn => absurd rfl hn, fun _ _ => Nat.zero_le _⟩
  | cons b bs ih =>
    intro d seen near todo h hpr
    rw [flatten_cons] at hpr ⊢
    rw [DechunkIstream.parseBuckets, length_append]
    by_cases hle : b.length ≤ near.length
    · -- this bucket was parsed before
      have hsp : near = near.take b.length ++ near.drop b.length := by simp
      have hln : (near.take b.length).length = b.length := length_take_of_le hle
      have hpr' : bs.flatten <+: raw (near.drop b.length ++ todo) ++ rest := by
        have hc : b ++ bs.flatten <+:
            raw (near.take b.length ++ (near.drop b.length ++ todo)) ++ rest := by
          rwa [← append_assoc (near.take b.length), ← hsp]
        have hd := drop_parsed hc
        rwa [hln, drop_left] at hd
      obtain ⟨d', full, new, todo', hp, ht, h', hfr, hw, hal⟩ := ih h hpr'
      rw [length_drop] at hp hw hal
      refine ⟨d', full, new, todo', by rw [if_pos hle, hp], ht, h', hfr, ?_, ?_⟩
      · intro hn
        have := hw hn
        omega
      · intro hf he
        have := hal hf he
        omega
    have hsr : b.drop near.length <+: raw todo ++ rest :=
      drop_parsed (((prefix_append b _).trans hpr))
    obtain ⟨again, d1, new, todo1, hp, rfl, hl, h1, hfr, -, -, hfu⟩ := h.parseInput hsr
    rw [length_drop] at hl hfu
    rw [if_neg hle, hp]
    cases again with
    | false =>
      refine ⟨d1, !d1.parser.hasEnded, new, todo1, rfl, rfl, h1, hfr, ?_, ?_⟩
      · intro _
        omega
      · intro hf he
        rw [he] at hf
        cases hf
    | true =>
      have hw := hfu rfl
      have hpr' : bs.flatten <+: raw (([] : List (UInt8 × Bool)) ++ todo1) ++ rest := by
        rw [← append_assoc near] at hpr
        have hd := drop_parsed hpr
        have hln : (near ++ new).length = b.length := by
          rw [length_append]
          omega
        rwa [hln, drop_left] at hd
      obtain ⟨d', full, new', todo', hp', rfl, h', hf', hl', hal⟩ := ih h1 hpr'
      rw [length_nil] at hp' hl' hal
      refine ⟨d', full, new ++ new', todo', hp', by rw [append_assoc], ?_, hfr.trans hf', ?_, ?_⟩
      · rwa [← append_assoc]
      · intro _
        rw [length_append]
        by_cases hn : new' = []
        · rw [hn, length_nil]
          omega
        · have := hl' hn
          omega
      · intro hf he
        have := hal hf he
        rw [length_append]
        omega

private theorem Describes.payload_queue (h : Describes d seen todo) {n : Nat}
    (hn : (chunkMarks d.chunks).length ≤ n) : payload (seen.take n) = payload seen := by
  have hd : payload (seen.drop n) = [] := by
    rw [payload_eq_nil_iff, marks, map_drop, ← marks, h.marks_eq, drop_append,
      drop_eq_nil_of_le hn, nil_append]
    simp
  conv_rhs => rw [← take_append_drop n seen, payload_append, hd, append_nil]

/-- What the buckets of the input must be for `_FillBucketList`: a piece of the rest of the
body, all of it unless `more` is set, without empty buckets. -/
structure Lists (tmp : IstreamBucketList) (bytes : List UInt8) : Prop where
  no_empty : NoEmpty tmp.list
  is_prefix : tmp.list.flatten <+: bytes
  complete : tmp.more = false → tmp.list.flatten = bytes

private theorem flags_clear {l l1 l2 l3 : IstreamBucketList} {f full e : Bool}
    (h1 : (if f then l.enableFallback else l) = l1)
    (h2 : (if full then l1.setMore else l1) = l2) (h3 : (if e then l2 else l2.setMore) = l3)
    (hm : l3.more = false) : e = true ∧ f = false := by
  subst h1 h2 h3
  cases e <;> cases full <;> cases f <;>
    first | exact ⟨rfl, rfl⟩ | cases hm

/-- `_FillBucketList` lists the data that was parsed ahead, as far as there is room, and clears
`more` only if this is the rest of the body. -/
theorem Ahead.fillBucketList {rest : List UInt8} {tmp : IstreamBucketList}
    (h : Ahead d seen todo) (hpe : d.eofPending = false)
    (ht : Lists tmp (raw (seen ++ todo) ++ rest)) (hal : Aligned (seen ++ todo) tmp.list)
    (hb : d.parser.hasEnded = true → d.parsedInput ≤ tmp.getTotalBufferSize ∨ tmp.fallback = true)
    (list : IstreamBucketList) :
    ∃ d' list' new todo' kept, d.fillBucketList list tmp = some (.ok (d', list')) ∧
      todo = new ++ todo' ∧ Ahead d' (seen ++ new) todo' ∧ Frames d d' ∧
      list'.list = list.list ++ kept ∧ kept.flatten <+: payload (seen ++ new) ∧
      (list'.more = false → kept.flatten = payload (seen ++ new) ∧ todo' = []) := by
  obtain ⟨d', full, new, todo', hp, rfl, h', hfr, hw, ha⟩ :=
    h.parseBuckets tmp.list ht.is_prefix
  rw [← h.parsed] at hp
  have hre : IstreamBucketReader.bytes { rest := tmp.list } = tmp.list.flatten := by
    rw [IstreamBucketReader.bytes, IstreamBucketReader.view_zero]
  have hma : marks (seen ++ (new ++ todo')) =
      chunkMarks d'.chunks ++ (replicate d'.pendingHeader false ++ marks todo') := by
    rw [← append_assoc, marks_append, h'.marks_eq, append_assoc]
  obtain ⟨data, hd, hfl⟩ := IstreamBucketReader.readChunks_spec d'.chunks
    (r := { rest := tmp.list }) (by rw [IstreamBucketReader.view_zero]; exact ht.no_empty)
    (by rw [hre]; exact ht.is_prefix) hma
    (by rw [IstreamBucketReader.view_zero]; exact hal)
  have hq : (chunkMarks d'.chunks).length ≤ (seen ++ new).length := by
    have hl := congrArg length h'.marks_eq
    simp only [length_marks, length_append] at hl ⊢
    omega
  rw [hre, ← append_assoc, take_append_of_le_length (by omega)] at hfl
  -- the input ends only where the body does
  have hmo (he : d'.parser.hasEnded = false) (hf : full = false) : tmp.more = true := by
    cases hm : tmp.more with
    | true => rfl
    | false =>
      have hl := congrArg length (ht.complete hm)
      simp only [length_append, length_raw] at hl
      have hle := ha hf he
      have hni : todo' = [] := eq_nil_of_length_eq_zero (by omega)
      have hac := h'.accepts
      rw [hni] at hac
      rw [hasEnded_iff.mpr hac] at he
      cases he
  generalize hl1 : (if tmp.fallback then list.enableFallback else list) = l1
  generalize hl2 : (if full then l1.setMore else l1) = l2
  generalize hl3 : (if d'.parser.hasEnded then l2 else l2.setMore) = l3
  have hli : l3.list = list.list := by
    rw [← hl3, ← hl2, ← hl1]
    split <;> split <;> split <;> rfl
  have hc : (!d'.parser.hasEnded && !tmp.more && !l2.more) = false := by
    cases he : d'.parser.hasEnded with
    | true => rfl
    | false =>
      cases hf : full with
      | true => simp [← hl2, hf, IstreamBucketList.setMore]
      | false => simp [hmo he hf]
  obtain ⟨kept, hk, hr, hfu⟩ := l3.pushAll_spec data
  obtain ⟨dropped, hdr⟩ := id hr
  have hpr : kept.flatten <+: payload (seen ++ new) := by
    have hke : kept.flatten <+: data.flatten := by
      rw [← hdr, flatten_append]
      exact prefix_append _ _
    rw [hfl] at hke
    exact hke.trans (payload_take_le _ _)
  refine ⟨d', l3.pushAll data, new, todo', kept, ?_, rfl, h', hfr, by rw [hk, hli], hpr, ?_⟩
  · unfold fillBucketList
    rw [hpe, hp]
    simp only [Bool.false_eq_true, if_false, hl1, hl2, hc, hl3, hd]
  · intro hm
    obtain ⟨hm3, rfl⟩ := hfu hm
    obtain ⟨he, hfb⟩ := flags_clear hl1 hl2 hl3 hm3
    refine ⟨?_, h'.accepts.eq_nil (hasEnded_iff.mp he)⟩
    -- everything that was parsed is in the list
    have hse : (seen ++ new).length ≤ tmp.list.flatten.length := by
      by_cases hn : new = []
      · subst hn
        have hen : d.parser.hasEnded = true := by
          have hac := h.accepts
          rw [h'.accepts.eq_nil (hasEnded_iff.mp he)] at hac
          exact hasEnded_iff.mpr hac
        rcases hb hen with hle | hf'
        · rw [append_nil, ← h.parsed]
          exact hle
        · rw [hfb] at hf'
          cases hf'
      · rw [length_append]
        exact hw hn
    rw [hfl]
    apply h'.payload_queue
    omega

private theorem consumeChunks_spec (c : List ParsedChunk) :
    ∀ {n : Nat} {ts : List (UInt8 × Bool)}, QueueOk c → marks ts = chunkMarks c →
      n ≤ (payload ts).length →
      ∃ headers left taken us, consumeChunks n c = (headers, n, left) ∧ ts = taken ++ us ∧
        taken.length = headers + n ∧ marks us = chunkMarks left ∧ QueueOk left ∧
        payload taken = (payload ts).take n ∧ (left = [] ↔ n = (payload ts).length) := by
  induction c with
  | nil =>
    intro n ts hq hm hn
    obtain rfl : ts = [] := map_eq_nil_iff.mp hm
    obtain rfl : n = 0 := Nat.le_zero.mp hn
    exact ⟨0, [], [], [], rfl, rfl, rfl, rfl, hq, rfl, by simp⟩
  | cons chunk c ih =>
    intro n ts hq hm hn
    rw [chunkMarks_cons, append_assoc] at hm
    obtain ⟨us, ts, rfl, hul, hu, hm⟩ := split_replicate hm (le_refl chunk.header)
    rw [Nat.sub_self, replicate_zero] at hm
    have hpa : payload (us ++ ts) = payload ts := by
      rw [payload_append, payload_of_framing hu, nil_append]
    rw [hpa] at hn ⊢
    rw [consumeChunks]
    by_cases hlt : n < chunk.data
    · -- the chunk is consumed in part
      obtain ⟨vs, ws, rfl, hvl, hv, hm⟩ := split_replicate hm (le_of_lt hlt)
      have hle : (payload vs).length = n := by rw [payload_of_data hv, length_raw, hvl]
      obtain ⟨vs', ws', rfl, hvl', hv', -⟩ := split_replicate hm (le_refl (chunk.data - n))
      have hl' : (payload vs').length = chunk.data - n := by
        rw [payload_of_data hv', length_raw, hvl']
      refine ⟨chunk.header, { header := 0, data := chunk.data - n } :: c, us ++ vs,
        vs' ++ ws', by rw [if_pos hlt], by simp, ?_, ?_, ?_, ?_, ?_⟩
      · rw [length_append, hul, hvl]
      · rw [hm, chunkMarks_cons, replicate_zero, nil_append]
      · apply hq.replace_front
        simp only
        omega
      · rw [payload_append, payload_of_framing hu, nil_append, payload_append, ← hle, take_left]
      · simp only [payload_append, length_append, hle]
        constructor
        · intro hni
          cases hni
        · intro _
          omega
    · obtain ⟨vs, ws, rfl, hvl, hv, hm⟩ := split_replicate hm (le_refl chunk.data)
      rw [Nat.sub_self, replicate_zero] at hm
      have hle : (payload vs).length = chunk.data := by rw [payload_of_data hv, length_raw, hvl]
      rw [payload_append, length_append] at hn
      obtain ⟨headers, left, taken, rest, hc, rfl, ht, hr, hql, hp, hl⟩ :=
        ih (n := n - chunk.data) hq.tail hm (by omega)
      refine ⟨chunk.header + headers, left, us ++ vs ++ taken, rest, ?_, by simp, ?_, hr, hql, ?_,
        ?_⟩
      · rw [if_neg hlt, hc]
        simp only [Prod.mk.injEq, true_and, and_true]
        omega
      · simp only [length_append]
        omega
      · have hfi : (payload vs).take n = payload vs :=
          take_of_length_le (by rw [hle]; omega)
        rw [payload_append, payload_append, payload_of_framing hu, nil_append, hp,
          payload_append vs, take_append, hle, hfi]
      · rw [hl, payload_append vs, length_append]
        omega

/-- `_ConsumeBucketList` consumes `n` bytes of data and framing only; it ends the body if and
only if everything that was parsed is consumed and the parser has ended. -/
theorem Ahead.consumeBucketList (h : Ahead d seen todo) (hpe : d.eofPending = false) {n : Nat}
    (hn : n ≤ (payload seen).length) :
    ∃ eof taken left d', d.consumeBucketList n = (⟨n, eof⟩, taken.length,
        if eof then d'.invokeDechunkEnd else d') ∧
      seen = taken ++ left ∧ payload taken = (payload seen).take n ∧ Ahead d' left todo ∧
      Frames d d' ∧ (eof = true ↔ n = (payload seen).length ∧ todo = []) ∧
      (eof = true → left = []) := by
  obtain ⟨queue, pending, rfl, hq, hpm⟩ := split_of_marks h.marks_eq
  have hpl : pending.length = d.pendingHeader := by
    rw [← length_marks, hpm, length_replicate]
  have hpp : payload pending = [] := payload_of_framing hpm
  have hy : payload (queue ++ pending) = payload queue := by
    rw [payload_append, hpp, append_nil]
  rw [hy] at hn ⊢
  obtain ⟨headers, left, taken, us, hc, rfl, htl, hu, hql, hp, hl⟩ :=
    consumeChunks_spec d.chunks h.queue hq hn
  have hpa := h.parsed
  simp only [length_append] at hpa
  have hen : d.parser.hasEnded = true ↔ todo = [] := by
    constructor
    · intro he
      exact h.accepts.eq_nil (hasEnded_iff.mp he)
    · intro ht
      have ha := h.accepts
      rw [ht] at ha
      exact hasEnded_iff.mpr ha
  unfold consumeBucketList
  rw [hc]
  simp only [hpe, Bool.false_eq_true, if_false]
  cases left with
  | nil =>
    -- the pending header goes with the queue
    obtain rfl : us = [] := map_eq_nil_iff.mp hu
    rw [append_nil] at hp ⊢
    refine ⟨d.parser.hasEnded, taken ++ pending, [], { d with
      chunks := []
      pendingHeader := 0
      parsedInput := d.parsedInput - (headers + d.pendingHeader + n) }, ?_, by simp, ?_, ?_,
      ⟨rfl, rfl, rfl⟩, ?_, fun _ => rfl⟩
    · simp only [isEmpty_nil, if_true, Bool.true_and, length_append, hpe, Prod.mk.injEq, true_and,
        and_true]
      omega
    · rw [payload_append, hpp, append_nil]
      exact hp
    · refine ⟨⟨rfl, h.accepts, ?_, h.endSeen⟩, by simp, Nat.zero_le _⟩
      simp only [length_nil] at hpa ⊢
      omega
    · rw [hen]
      rw [append_nil] at hl
      exact ⟨fun ht => ⟨hl.mp rfl, ht⟩, fun ht => ht.2⟩
  | cons chunk chunks =>
    refine ⟨false, taken, us ++ pending, { d with
      chunks := chunk :: chunks
      parsedInput := d.parsedInput - (headers + n) }, ?_, by simp, hp, ?_, ⟨rfl, rfl, rfl⟩, ?_,
      by simp⟩
    · simp only [Bool.false_eq_true, if_false, isEmpty_cons, Bool.false_and, htl, hpe]
    · refine ⟨⟨?_, h.accepts, ?_, h.endSeen⟩, hql⟩
      · rw [marks_append, hu, hpm]
      · simp only [length_append]
        omega
    · constructor
      · intro hf
        cases hf
      · intro hal
        cases hl.mpr hal.1

end DechunkIstream
end BengProxy.Istream
