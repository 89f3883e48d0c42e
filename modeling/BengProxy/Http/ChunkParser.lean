import BengProxy.Base.Marked
import Mathlib.Algebra.GroupWithZero.Nat

/-!
# The parser of chunked bodies

Models `HttpChunkParser`, `src/http/ChunkParser.cxx` and `src/http/ChunkParser.hxx`. The
parser is incremental: `parse` skips framing and stops in front of data, which the caller
reports with `consume`.
-/

namespace BengProxy.Http

open Base Marked List

/-- `HttpChunkParser::State`, `ChunkParser.hxx:15-24`. -/
inductive ChunkState where
  | none
  | size
  | afterSize
  | data
  | afterData
  | trailer
  | trailerData
  | ended
  deriving DecidableEq, Repr

/-- The exceptions of `HttpChunkParser::Parse`; `unreachable` is its undefined behaviour. -/
inductive ParseError where
  | chunkLengthExpected
  | newlineExpected
  | unreachable
  deriving DecidableEq, Repr

/-- The messages of the exceptions, `ChunkParser.cxx:37,72,95`. -/
def ParseError.message : ParseError → String
  | .chunkLengthExpected => "chunk length expected"
  | .newlineExpected => "newline expected"
  | .unreachable => ""

/-- `HttpChunkParser`, `ChunkParser.hxx:14-61`. -/
structure HttpChunkParser where
  state : ChunkState := .none
  remainingChunk : Nat := 0
  deriving DecidableEq, Repr

/-- The carriage return `'\r'`. -/
def cr : UInt8 := 13

/-- The newline `'\n'`. -/
def lf : UInt8 := 10

/-- The number of values of `size_t`. -/
def sizeLimit : Nat := 2 ^ 64

/-- The value of a hexadecimal digit, `ChunkParser.cxx:27-32`. -/
def hexDigit (ch : UInt8) : Option Nat :=
  if 0x30 ≤ ch ∧ ch ≤ 0x39 then some (ch.toNat - 0x30)
  else if 0x61 ≤ ch ∧ ch ≤ 0x66 then some (ch.toNat - 0x61 + 0xa)
  else if 0x41 ≤ ch ∧ ch ≤ 0x46 then some (ch.toNat - 0x41 + 0xa)
  else none

namespace HttpChunkParser

section

variable (p : HttpChunkParser)

/-- `HttpChunkParser::HasEnded`, `ChunkParser.hxx:29-31`. -/
def hasEnded : Bool := p.state == .ended

/-- One byte in state `AFTER_SIZE`, `ChunkParser.cxx:49-58`. -/
def afterSize (p : HttpChunkParser) (ch : UInt8) : HttpChunkParser :=
  if ch = lf then
    if p.remainingChunk = 0 then { p with state := .trailer } else { p with state := .data }
  else { p with state := .afterSize }

/-- One byte of framing: the body of the loop of `HttpChunkParser::Parse`,
`ChunkParser.cxx:20-97`. -/
def feed (ch : UInt8) : Except ParseError HttpChunkParser :=
  match p.state with
  | .none =>
    match hexDigit ch with
    | some digit => .ok { state := .size, remainingChunk := (0 * 0x10 + digit) % sizeLimit }
    | none => .error .chunkLengthExpected
  | .size =>
    match hexDigit ch with
    | some digit => .ok { p with remainingChunk := (p.remainingChunk * 0x10 + digit) % sizeLimit }
    -- no digit: the same byte again, in the next state
    | none => .ok (p.afterSize ch)
  | .afterSize => .ok (p.afterSize ch)
  | .afterData =>
    if ch = lf then .ok { p with state := .none }
    else if ch = cr then .ok p
    else .error .newlineExpected
  | .trailer =>
    if ch = lf then .ok { p with state := .ended }
    else if ch = cr then .ok p
    else .ok { p with state := .trailerData }
  | .trailerData => if ch = lf then .ok { p with state := .trailer } else .ok p
  | .data | .ended => .error .unreachable

/-- `HttpChunkParser::Parse`, `ChunkParser.cxx:12-97`: the parser, and the offset
and the size of the data found. -/
def parse (p : HttpChunkParser) : List UInt8 → Nat → Except ParseError (HttpChunkParser × Nat × Nat)
  | [], offset => .ok (p, offset, 0)
  | ch :: rest, offset =>
    if p.state = .data then .ok (p, offset, min (rest.length + 1) p.remainingChunk)
    else
      match p.feed ch with
      | .error e => .error e
      | .ok p =>
        -- return right behind the trailer
        if p.hasEnded then .ok (p, offset + 1, 0) else parse p rest (offset + 1)

/-- `HttpChunkParser::Consume`, `ChunkParser.hxx:43-54`. -/
def consume (nbytes : Nat) : HttpChunkParser :=
  let remainingChunk := p.remainingChunk - nbytes
  { state := if remainingChunk = 0 then .afterData else p.state, remainingChunk }

end

/-- The stream is the rest of a body, as the parser sees it: it marks the data and ends
where the parser does. -/
def Accepts : HttpChunkParser → List (UInt8 × Bool) → Prop
  | p, [] => p.state = .ended
  | p, (_, true) :: ts => p.state = .data ∧ 0 < p.remainingChunk ∧ Accepts (p.consume 1) ts
  | p, (ch, false) :: ts => ∃ p', p.feed ch = .ok p' ∧ Accepts p' ts

variable {p : HttpChunkParser} {todo : List (UInt8 × Bool)}

theorem hasEnded_iff : p.hasEnded = true ↔ p.state = .ended := by
  simp [hasEnded]

/-- Nothing is left behind the end. -/
theorem Accepts.eq_nil (h : Accepts p todo) (he : p.state = .ended) : todo = [] := by
  cases todo with
  | nil => rfl
  | cons t ts =>
    obtain ⟨ch, b⟩ := t
    cases b with
    | true =>
      have hs := h.1
      rw [he] at hs
      cases hs
    | false =>
      obtain ⟨p', hf, -⟩ := h
      simp [feed, he] at hf

private theorem consume_add {m n : Nat} (h : m < p.remainingChunk) :
    (p.consume m).consume n = p.consume (m + n) := by
  have hm : ¬ p.remainingChunk - m = 0 := by omega
  simp [consume, Nat.sub_sub, hm]

private theorem Accepts.split_data {n : Nat} (h : Accepts p todo) (hd : p.state = .data)
    (h0 : 0 < p.remainingChunk) (hn : n ≤ p.remainingChunk) :
    ∃ ys todo', todo = data ys ++ todo' ∧ ys.length = n ∧ Accepts (p.consume n) todo' := by
  induction n with
  | zero =>
    refine ⟨[], todo, rfl, rfl, ?_⟩
    have hp : p.consume 0 = p := by
      simp only [consume, Nat.sub_zero]
      rw [if_neg (by omega)]
    rwa [hp]
  | succ n ih =>
    obtain ⟨ys, todo', he, hl, ha⟩ := ih (by omega)
    have hs : (p.consume n).state = .data := by
      simp only [consume]
      rw [if_neg (by omega), hd]
    cases todo' with
    | nil =>
      rw [Accepts, hs] at ha
      cases ha
    | cons t ts =>
      obtain ⟨ch, b⟩ := t
      cases b with
      | false =>
        obtain ⟨p', hf, -⟩ := ha
        simp [feed, hs] at hf
      | true =>
        refine ⟨ys ++ [ch], ts, ?_, ?_, ?_⟩
        · rw [he]
          simp [data]
        · simp [hl]
        · have hc := ha.2.2
          rwa [consume_add (by omega)] at hc

/-- Data is accepted in a chunk only. -/
theorem Accepts.state_of_data {ys : List UInt8} (h : Accepts p (data ys ++ todo)) (hne : ys ≠ []) :
    p.state = .data := by
  cases ys with
  | nil => exact absurd rfl hne
  | cons y ys => exact h.1

/-- Consuming data does not end the body. -/
theorem hasEnded_consume (n : Nat) (h : p.state = .data) : (p.consume n).hasEnded = false := by
  simp only [consume, h]
  split <;> rfl

/-- What `parse` finds in a piece of a body: framing `xs`, then data `ys`. -/
structure Found (p : HttpChunkParser) (todo : List (UInt8 × Bool)) (src xs ys : List UInt8)
    (p' : HttpChunkParser) (todo' : List (UInt8 × Bool)) : Prop where
  todo_eq : todo = framing xs ++ data ys ++ todo'
  length_le : xs.length + ys.length ≤ src.length
  accepts : Accepts p' (data ys ++ todo')
  in_data : ys ≠ [] → Accepts (p'.consume ys.length) todo'
  complete : p'.hasEnded = true ∨ ys ≠ [] ∨ xs.length = src.length
  progress : src ≠ [] → 0 < xs.length + ys.length

/-- Parsing a piece of a body succeeds. -/
theorem Accepts.parse {src rest : List UInt8} (h : Accepts p todo) (he : p.hasEnded = false)
    (hsr : src <+: raw todo ++ rest) (offset : Nat) :
    ∃ xs ys p' todo', p.parse src offset = .ok (p', offset + xs.length, ys.length) ∧
      Found p todo src xs ys p' todo' := by
  induction src generalizing p todo offset with
  | nil =>
    exact ⟨[], [], p, todo, rfl, rfl, Nat.le_refl _, h, fun hn => absurd rfl hn,
      .inr (.inr rfl), fun hn => absurd rfl hn⟩
  | cons ch src ih =>
    cases todo with
    | nil =>
      rw [hasEnded_iff.mpr h] at he
      cases he
    | cons t ts =>
      obtain ⟨c, b⟩ := t
      obtain ⟨rfl, hpr⟩ := cons_prefix_cons.mp hsr
      cases b with
      | true =>
        obtain ⟨hd, h0, -⟩ := id h
        obtain ⟨ys, todo', he', hl, ha⟩ :=
          h.split_data hd h0 (Nat.min_le_right (src.length + 1) p.remainingChunk)
        have hne : ys ≠ [] := by
          intro hy
          rw [hy, length_nil] at hl
          omega
        refine ⟨[], ys, p, todo', ?_, he', ?_, ?_, ?_, .inr (.inl hne), ?_⟩
        · rw [HttpChunkParser.parse, if_pos hd, hl]
          rfl
        · simp only [length_nil, length_cons]
          omega
        · rwa [← he']
        · intro _
          rwa [hl]
        · intro _
          omega
      | false =>
        obtain ⟨p1, hf, ha⟩ := h
        have hd : p.state ≠ .data := by
          intro hd
          simp [feed, hd] at hf
        rw [HttpChunkParser.parse, if_neg hd, hf]
        by_cases hp : p1.hasEnded = true
        · -- the end of the trailer
          have ht := ha.eq_nil (hasEnded_iff.mp hp)
          subst ht
          simp only [hp]
          refine ⟨[ch], [], p1, [], rfl, rfl, ?_, ha, fun hn => absurd rfl hn, .inl hp, ?_⟩
          · simp
          · simp
        simp only [hp]
        obtain ⟨xs, ys, p', todo', hp', hfo⟩ := ih ha (Bool.eq_false_iff.mpr hp) hpr (offset + 1)
        refine ⟨ch :: xs, ys, p', todo', ?_, ?_, ?_, hfo.accepts, hfo.in_data, ?_, ?_⟩
        · rw [length_cons, add_comm xs.length, ← add_assoc]
          exact hp'
        · rw [hfo.todo_eq]
          rfl
        · have := hfo.length_le
          simp only [length_cons]
          omega
        · rcases hfo.complete with hc | hc | hc
          · exact .inl hc
          · exact .inr (.inl hc)
          · exact .inr (.inr (congrArg (· + 1) hc))
        · intro _
          simp only [length_cons]
          omega

/-- Mark the data of a body, up to its end or to the first error. -/
def mark (p : HttpChunkParser) : List UInt8 → List (UInt8 × Bool)
  | [] => []
  | ch :: rest =>
    match p.state with
    | .ended => []
    | .data => (ch, true) :: mark (p.consume 1) rest
    | _ =>
      match p.feed ch with
      | .error _ => []
      | .ok p => (ch, false) :: mark p rest

/-- Marking finds the stream that the parser accepts. -/
theorem Accepts.mark_eq {ts : List (UInt8 × Bool)} (h : Accepts p ts) (rest : List UInt8) :
    p.mark (raw ts ++ rest) = ts := by
  induction ts generalizing p with
  | nil =>
    cases rest with
    | nil => rfl
    | cons ch rest =>
      rw [Accepts] at h
      simp only [raw_nil, nil_append, mark, h]
  | cons t ts ih =>
    obtain ⟨ch, b⟩ := t
    cases b with
    | true =>
      obtain ⟨hd, -, ha⟩ := h
      simp only [raw_cons, cons_append, mark, hd, ih ha]
    | false =>
      obtain ⟨p', hf, ha⟩ := h
      simp only [raw_cons, cons_append, mark, hf, ih ha]
      split
      · next he => simp [feed, he] at hf
      · next hd => simp [feed, hd] at hf
      · rfl

end HttpChunkParser
end BengProxy.Http
