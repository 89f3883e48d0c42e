import BengProxy.Base.Run
import BengProxy.Base.Text
import BengProxy.Http.Chunked

/-!
# The size of a chunk

What `HttpChunkParser::Parse`, `src/http/ChunkParser.cxx`, makes of a line with a chunk size, and
how much data it delivers behind it. The digits are accumulated in a `size_t`, and nobody counts
them: the number is taken modulo `2 ^ 64`.
-/

namespace BengProxy.Http

open Base HttpChunkParser List

variable {xs : List UInt8}

/-- A line with a chunk size: digits, whose number is `value`, and perhaps an extension. -/
structure ChunkSizeLine (digits extension : List UInt8) (value : Nat) : Prop where
  ne_nil : digits ≠ []
  value_eq : hexValue digits 0 = some value
  no_lf : lf ∉ extension
  not_digit : ∀ ch ∈ extension.head?, hexDigit ch = none

/-- The bytes of such a line. -/
def chunkSizeLine (digits extension : List UInt8) : List UInt8 := digits ++ (extension ++ [lf])

/-- A call of `Parse` with the next `length` bytes, and then one of `Consume` for at most `accept`
bytes of the data that was found, unless that is nothing. -/
structure ParseCall where
  length : Nat
  accept : Nat
  deriving DecidableEq, Repr

/-- A parser in use: its position in the stream, and the data that was delivered. -/
structure ChunkReader where
  parser : HttpChunkParser := {}
  position : Nat := 0
  delivered : List UInt8 := []
  deriving DecidableEq, Repr

namespace ChunkReader

/-- The state after a call, or the exception that was thrown. -/
def read (stream : List UInt8) (s : ChunkReader) (call : ParseCall) :
    Except ParseError ChunkReader :=
  match s.parser.parse ((stream.drop s.position).take call.length) 0 with
  | .error e => .error e
  | .ok (parser, offset, size) =>
    let nbytes := min call.accept size
    let position := s.position + offset
    .ok {
      parser := if 0 < nbytes then parser.consume nbytes else parser
      position := position + nbytes
      delivered := s.delivered ++ (stream.drop position).take nbytes }

/-- The chunk has been delivered; there is nothing to deliver if it is the last one. -/
def complete (s : ChunkReader) : Bool :=
  match s.parser.state with
  | .none | .size | .afterSize | .data => false
  | .afterData | .trailer | .trailerData | .ended => true

/-- A call for the first chunk of the stream. -/
def Step (stream : List UInt8) (s : ChunkReader) (call : ParseCall) (s' : ChunkReader) : Prop :=
  s.complete = false ∧ s.read stream call = .ok s'

/-- No digit has been lost: `remaining_chunk` is the number that was read so far, then what is
missing of the chunk; and a complete chunk is as long as the line says. -/
def Exact (digits : List UInt8) (value : Nat) (s : ChunkReader) : Prop :=
  match s.parser.state with
  | .none => True
  | .size => hexValue (digits.take s.position) 0 = some s.parser.remainingChunk
  | .afterSize | .data => s.delivered.length + s.parser.remainingChunk = value
  | .afterData | .trailer | .trailerData | .ended => s.delivered.length = value

end ChunkReader

namespace HttpChunkParser

variable {p p' : HttpChunkParser}

private theorem hasEnded_of_feed {ch : UInt8} (h : p.feed ch = .ok p') :
    p.state ≠ .data ∧ p.state ≠ .ended := by
  constructor <;>
  · intro hs
    rw [feed, hs] at h
    cases h

private theorem feed_append {ys : List UInt8} (h : (xs ++ ys).foldlM feed p = .ok p') :
    ∃ p1, xs.foldlM feed p = .ok p1 ∧ ys.foldlM feed p1 = .ok p' := by
  rw [foldlM_append] at h
  cases hx : xs.foldlM feed p with
  | error e =>
    rw [hx] at h
    cases h
  | ok p1 =>
    rw [hx] at h
    exact ⟨p1, rfl, h⟩

private theorem hasEnded_of_foldlM (hne : xs ≠ []) (h : xs.foldlM feed p = .ok p') :
    p.hasEnded = false := by
  cases xs with
  | nil => exact absurd rfl hne
  | cons x xs =>
    obtain ⟨p1, hx, -⟩ := feed_cons h
    apply Bool.eq_false_iff.mpr
    intro he
    exact (hasEnded_of_feed hx).2 (hasEnded_iff.mp he)

private theorem parse_framing (h : xs.foldlM feed p = .ok p')
    (he : p'.hasEnded = false) (src : List UInt8) (o : Nat) :
    p.parse (xs ++ src) o = p'.parse src (o + xs.length) := by
  induction xs generalizing p o with
  | nil =>
    cases h
    rfl
  | cons x xs ih =>
    obtain ⟨p1, hx, hxs⟩ := feed_cons h
    have he1 : p1.hasEnded = false := by
      cases xs with
      | nil =>
        cases hxs
        exact he
      | cons y ys => exact hasEnded_of_foldlM (cons_ne_nil y ys) hxs
    rw [cons_append, parse, if_neg (hasEnded_of_feed hx).1, hx]
    simp only [he1, Bool.false_eq_true, if_false]
    rw [ih hxs, length_cons, add_assoc, add_comm 1]

end HttpChunkParser

private theorem hexValue_append (xs ys : List UInt8) (acc : Nat) :
    hexValue (xs ++ ys) acc = (hexValue xs acc).bind (hexValue ys) := by
  induction xs generalizing acc with
  | nil => rfl
  | cons x xs ih =>
    rw [cons_append, hexValue, hexValue]
    cases hexDigit x with
    | none => rfl
    | some digit => exact ih _

private theorem le_hexValue {acc v : Nat} (h : hexValue xs acc = some v) : acc ≤ v := by
  induction xs generalizing acc with
  | nil =>
    cases h
    exact Nat.le_refl _
  | cons x xs ih =>
    obtain ⟨digit, -, hx⟩ := hexValue_cons h
    have hle := ih hx
    omega

section Line

variable {digits extension : List UInt8} {value : Nat}

variable (h : ChunkSizeLine digits extension value)
include h

private theorem ChunkSizeLine.hexValue_take (k : Nat) :
    ∃ v, hexValue (digits.take k) 0 = some v ∧ v ≤ value := by
  have hva := h.value_eq
  rw [← take_append_drop k digits, hexValue_append] at hva
  cases hv : hexValue (digits.take k) 0 with
  | none =>
    rw [hv] at hva
    cases hva
  | some v =>
    rw [hv] at hva
    exact ⟨v, rfl, le_hexValue hva⟩

private theorem ChunkSizeLine.feed_extension {k : Nat} (hk : 0 < k) (hle : k ≤ extension.length) :
    (digits ++ extension.take k).foldlM feed {} =
      .ok { state := .afterSize, remainingChunk := value % sizeLimit } := by
  rw [foldlM_append, feed_first h.ne_nil h.value_eq]
  cases extension with
  | nil =>
    rw [length_nil] at hle
    omega
  | cons x xs =>
    cases k with
    | zero => exact absurd hk (Nat.lt_irrefl 0)
    | succ k =>
      apply feed_notDigit (h.not_digit x rfl)
      intro hme
      apply h.no_lf
      rw [mem_cons] at hme ⊢
      exact hme.imp_right mem_of_mem_take

private theorem ChunkSizeLine.feed_line : (chunkSizeLine digits extension).foldlM feed {} =
      .ok (afterLine (value % sizeLimit)) := by
  rw [chunkSizeLine, ← append_assoc]
  exact HttpChunkParser.feed_line h.ne_nil h.value_eq h.no_lf h.not_digit

end Line

namespace ChunkReader

variable {digits extension rest : List UInt8} {value : Nat} {s s' : ChunkReader}

/-- How far a reader has come: into the line, into the chunk, or to its end. -/
inductive Reading (digits extension rest : List UInt8) (value : Nat) : ChunkReader → Prop where
  | line {k : Nat} {p : HttpChunkParser} (hk : k < (chunkSizeLine digits extension).length)
      (hp : ((chunkSizeLine digits extension).take k).foldlM feed {} = .ok p) :
      Reading digits extension rest value { parser := p, position := k }
  | data {n : Nat} (hn : n < value % sizeLimit) (hrest : n ≤ rest.length) :
      Reading digits extension rest value {
        parser := { state := .data, remainingChunk := value % sizeLimit - n }
        position := (chunkSizeLine digits extension).length + n
        delivered := rest.take n }
  | complete {s : ChunkReader} (hcomplete : s.complete = true)
      (hrest : value % sizeLimit ≤ rest.length)
      (hdelivered : s.delivered = rest.take (value % sizeLimit)) :
      Reading digits extension rest value s

private theorem drop_line (n : Nat) :
    (chunkSizeLine digits extension ++ rest).drop ((chunkSizeLine digits extension).length + n) =
      rest.drop n := by
  rw [← drop_drop, drop_left]

private theorem parse_data (m : Nat) (src : List UInt8) (o : Nat) :
    parse { state := .data, remainingChunk := m } src o =
      .ok ({ state := .data, remainingChunk := m }, o, min src.length m) := by
  cases src with
  | nil => rw [parse, length_nil, Nat.zero_min]
  | cons x xs => rw [parse, if_pos rfl, length_cons]

-- the lines behind the last chunk are read up to an empty one; there is no data

private theorem parse_trailer (src : List UInt8) (p : HttpChunkParser) (o : Nat)
    (h : p.state = .trailer ∨ p.state = .trailerData) :
    ∃ p' offset', p.parse src o = .ok (p', offset', 0) ∧
      (p'.state = .trailer ∨ p'.state = .trailerData ∨ p'.state = .ended) := by
  induction src generalizing p o with
  | nil => exact ⟨p, o, rfl, by rcases h with h | h <;> simp [h]⟩
  | cons x xs ih =>
    have hd : p.state ≠ .data := by rcases h with h | h <;> simp [h]
    rw [parse, if_neg hd]
    by_cases hen : p.state = .trailer ∧ x = lf
    · refine ⟨{ p with state := .ended }, o + 1, ?_, .inr (.inr rfl)⟩
      simp [feed, hen.1, hen.2, hasEnded]
    have hfe : ∃ p1, p.feed x = .ok p1 ∧ (p1.state = .trailer ∨ p1.state = .trailerData) := by
      unfold feed
      rcases h with h | h <;> simp only [h]
      · rw [if_neg fun hx => hen ⟨h, hx⟩]
        split
        · exact ⟨p, rfl, .inl h⟩
        · exact ⟨_, rfl, .inr rfl⟩
      · split
        · exact ⟨_, rfl, .inl rfl⟩
        · exact ⟨p, rfl, .inr h⟩
    obtain ⟨p1, hp1, hst⟩ := hfe
    have he : p1.hasEnded = false := by
      rcases hst with hs | hs <;> simp [hasEnded, hs]
    rw [hp1]
    simp only [he, Bool.false_eq_true]
    exact ih p1 (o + 1) hst

private theorem Reading.deliver {n nb : Nat} (hn : n < value % sizeLimit)
    (hnb : nb ≤ value % sizeLimit - n) (hr : n + nb ≤ rest.length) :
    Reading digits extension rest value {
      parser :=
        if 0 < nb then
          consume
            { state := .data, remainingChunk := value % sizeLimit - n } nb
        else { state := .data, remainingChunk := value % sizeLimit - n }
      position := (chunkSizeLine digits extension).length + n + nb
      delivered := rest.take n ++
        ((chunkSizeLine digits extension ++ rest).drop
          ((chunkSizeLine digits extension).length + n)).take nb } := by
  rw [drop_line, ← take_add, add_assoc]
  by_cases h0 : 0 < nb
  · rw [if_pos h0, consume]
    by_cases hal : value % sizeLimit - n - nb = 0
    · have he : n + nb = value % sizeLimit := by omega
      apply Reading.complete
      · simp [ChunkReader.complete, hal]
      · omega
      · simp only [he]
    · simp only [if_neg hal]
      rw [Nat.sub_sub]
      exact .data (by omega) hr
  · have hz : nb = 0 := by omega
    subst hz
    exact .data hn (by omega)

section

variable (hline : ChunkSizeLine digits extension value)
include hline

private theorem Reading.step (h : Reading digits extension rest value s) {call : ParseCall}
    (hst : Step (chunkSizeLine digits extension ++ rest) s call s') :
    Reading digits extension rest value s' := by
  obtain ⟨hi, hre⟩ := hst
  cases h with
  | complete hc _ _ =>
    rw [hc] at hi
    cases hi
  | @data n hn hr =>
    rw [read, parse_data] at hre
    cases hre
    apply Reading.deliver hn
    · omega
    · rw [drop_line, length_take, length_drop]
      omega
  | @line k p hk hp =>
    have hfe := hline.feed_line
    generalize hl : chunkSizeLine digits extension = line at hk hp hfe hre ⊢
    have hd : (line ++ rest).drop k = line.drop k ++ rest :=
      drop_append_of_le_length (Nat.le_of_lt hk)
    rw [read, hd] at hre
    by_cases hsh : k + call.length < line.length
    · -- the call ends in the line
      obtain ⟨p1, hp1, hrest1⟩ := feed_append
        (by rwa [← take_append_drop (k + call.length) line] at hfe)
      have he := hasEnded_of_foldlM (by simpa using hsh) hrest1
      have hsr :
          (line.drop k ++ rest).take call.length = (line.drop k).take call.length ++ [] := by
        rw [append_nil, take_append_of_le_length]
        rw [length_drop]
        omega
      have hpa : ((line.drop k).take call.length).foldlM feed p = .ok p1 := by
        rw [take_add, foldlM_append, hp] at hp1
        exact hp1
      have hle : ((line.drop k).take call.length).length = call.length := by
        rw [length_take, length_drop]
        omega
      rw [hsr, parse_framing hpa he, hle] at hre
      cases hre
      subst hl
      simp only [Nat.min_zero, zero_add]
      exact .line hsh hp1
    -- the call goes on behind the line
    have hsr : (line.drop k ++ rest).take call.length =
        line.drop k ++ rest.take (k + call.length - line.length) := by
      rw [take_append, length_drop, take_of_length_le]
      · congr 2
        omega
      · rw [length_drop]
        omega
    have hpa : (line.drop k).foldlM feed p = .ok (afterLine (value % sizeLimit)) := by
      rw [← take_append_drop k line, foldlM_append, hp] at hfe
      exact hfe
    have he : (afterLine (value % sizeLimit)).hasEnded = false := by
      unfold afterLine hasEnded
      split <;> rfl
    rw [hsr, parse_framing hpa he, zero_add, length_drop] at hre
    by_cases h0 : value % sizeLimit = 0
    · -- the last chunk
      obtain ⟨p', offset, ha, ht⟩ := parse_trailer
        (rest.take (k + call.length - line.length))
        (afterLine (value % sizeLimit)) (line.length - k)
        (.inl (by rw [afterLine, if_pos h0]))
      rw [ha] at hre
      cases hre
      apply Reading.complete
      · rcases ht with hs | hs | hs <;> simp [ChunkReader.complete, hs]
      · omega
      · simp [h0]
    rw [afterLine, if_neg h0, parse_data] at hre
    cases hre
    subst hl
    have hpo : k + ((chunkSizeLine digits extension).length - k) =
        (chunkSizeLine digits extension).length + 0 := by omega
    simp only [hpo]
    refine Reading.deliver (n := 0) (by omega) (by omega) ?_
    rw [length_take]
    omega

private theorem Reading.of_run {c : List ParseCall}
    (hru : Run (Step (chunkSizeLine digits extension ++ rest)) {} c s) :
    Reading digits extension rest value s := by
  apply hru.invariant
  · exact .line (by simp only [chunkSizeLine, length_append, length_singleton]; omega) rfl
  · intro s call s' h hst
    exact h.step hline hst

private theorem Reading.exact (hlt : value < sizeLimit)
    (h : Reading digits extension rest value s) : s.Exact digits value := by
  have hmo : value % sizeLimit = value := Nat.mod_eq_of_lt hlt
  cases h with
  | complete hc hr hde =>
    unfold ChunkReader.complete at hc
    unfold Exact
    split at hc <;> simp_all
  | @data n hn hr =>
    show (rest.take n).length + (value % sizeLimit - n) = value
    rw [length_take]
    omega
  | @line k p hk hp =>
    by_cases hz : k = 0
    · subst hz
      cases hp
      trivial
    by_cases hd : k ≤ digits.length
    · obtain ⟨v, hv, hle⟩ := hline.hexValue_take k
      have hne : digits.take k ≠ [] := by
        rw [ne_eq, take_eq_nil_iff, not_or]
        exact ⟨hz, hline.ne_nil⟩
      have ht : (chunkSizeLine digits extension).take k = digits.take k :=
        take_append_of_le_length hd
      rw [ht, feed_first hne hv, Nat.mod_eq_of_lt (by omega)] at hp
      cases hp
      exact hv
    have hl : (chunkSizeLine digits extension).length =
        digits.length + (extension.length + 1) := by simp [chunkSizeLine]
    have ht : (chunkSizeLine digits extension).take k =
        digits ++ extension.take (k - digits.length) := by
      rw [chunkSizeLine, take_append, take_of_length_le (by omega),
        take_append_of_le_length (by omega)]
    rw [ht, hline.feed_extension (by omega) (by omega), hmo] at hp
    cases hp
    exact zero_add value

private theorem read_digits :
    read (chunkSizeLine digits extension ++ rest) {} { length := digits.length, accept := 0 } =
      .ok {
        parser := { state := .size, remainingChunk := value % sizeLimit }
        position := digits.length } := by
  have hsr : ((chunkSizeLine digits extension ++ rest).drop 0).take digits.length =
      digits ++ [] := by
    rw [drop_zero, chunkSizeLine, append_assoc, take_left, append_nil]
  rw [read]
  rw [hsr, parse_framing (feed_first hline.ne_nil hline.value_eq) rfl, parse]
  simp

private theorem read_all (hlt : value < sizeLimit) (hr : value ≤ rest.length) :
    ∃ s, read (chunkSizeLine digits extension ++ rest) {}
        { length := (chunkSizeLine digits extension ++ rest).length, accept := value } = .ok s ∧
      s.complete = true ∧ s.delivered = rest.take value := by
  have hmo : value % sizeLimit = value := Nat.mod_eq_of_lt hlt
  have he : (afterLine value).hasEnded = false := by
    unfold afterLine hasEnded
    split <;> rfl
  have hfe := hline.feed_line
  rw [hmo] at hfe
  rw [read]
  rw [drop_zero, take_length, parse_framing hfe he, zero_add]
  by_cases h0 : value = 0
  · obtain ⟨p', offset, hpa, hst⟩ := parse_trailer rest (afterLine value)
      (chunkSizeLine digits extension).length (.inl (by rw [afterLine, if_pos h0]))
    rw [hpa]
    refine ⟨_, rfl, ?_, by simp [h0]⟩
    rcases hst with hs | hs | hs <;> simp [complete, hs]
  · rw [afterLine, if_neg h0, parse_data]
    refine ⟨_, rfl, ?_, ?_⟩
    · simp [complete, Nat.min_eq_right hr, Nat.pos_of_ne_zero h0, consume]
    · simp [Nat.min_eq_right hr]

end

/-- No digit is lost, and the chunk has the length that its line says, exactly if that number fits
into a `size_t`; then the chunk is delivered as soon as it has been received. -/
theorem chunkSize_exact_iff {digits extension : List UInt8} {value : Nat}
    (hline : ChunkSizeLine digits extension value) (rest : List UInt8) :
    ((∀ calls s, Run (Step (chunkSizeLine digits extension ++ rest)) {} calls s →
        s.Exact digits value) ↔ value < sizeLimit) ∧
      (value < sizeLimit → value ≤ rest.length →
        ∃ calls s, Run (Step (chunkSizeLine digits extension ++ rest)) {} calls s ∧
          s.complete = true ∧ s.delivered = rest.take value) := by
  refine ⟨⟨?_, ?_⟩, ?_⟩
  · intro he
    have hs := he _ _ (Run.snoc .nil ⟨rfl, read_digits hline⟩)
    have heq : hexValue (digits.take digits.length) 0 = some (value % sizeLimit) := hs
    rw [take_length, hline.value_eq, Option.some.injEq] at heq
    rw [heq]
    exact Nat.mod_lt _ (Nat.two_pow_pos 64)
  · intro hlt calls s hru
    exact (Reading.of_run hline hru).exact hline hlt
  · intro hlt hrest
    obtain ⟨s, hre, hcomplete, hdelivered⟩ := read_all hline hlt hrest
    exact ⟨_, s, Run.snoc .nil ⟨rfl, hre⟩, hcomplete, hdelivered⟩

end ChunkReader

/-- A chunk of 26 bytes. -/
theorem chunkSize_exact_small :
    let line := Text.ascii "1a"
    let rest := Text.ascii "abcdefghijklmnopqrstuvwxyz\r\n"
    ChunkSizeLine line [cr] 26 ∧
      ∃ calls s, Run (ChunkReader.Step (chunkSizeLine line [cr] ++ rest)) {} calls s ∧
        s.complete = true ∧ s.delivered = rest.take 26 := by
  have hline : ChunkSizeLine (Text.ascii "1a") [cr] 26 :=
    ⟨by decide, by decide, by decide, fun ch hch => by cases hch; decide⟩
  exact ⟨hline, (ChunkReader.chunkSize_exact_iff hline _).2 (by decide) (by decide)⟩

/-- A line with seventeen digits: one byte is delivered, although the line says `2 ^ 64 + 1`. -/
theorem chunkSize_wraps :
    let line := Text.ascii "10000000000000001"
    let rest := Text.ascii "a\r\n"
    hexValue line 0 = some (2 ^ 64 + 1) ∧
      ∃ calls s, Run (ChunkReader.Step (chunkSizeLine line [cr] ++ rest)) {} calls s ∧
        s.complete = true ∧ s.delivered.length = 1 := by
  refine ⟨by decide, [{ length := 22, accept := 22 }],
    { parser := { state := .afterData }, position := 20, delivered := [97] }, ?_, rfl, rfl⟩
  exact .snoc .nil ⟨rfl, by decide⟩

end BengProxy.Http
