import BengProxy.Http.ChunkParser

/-!
# The chunked transfer coding

The format itself, as a grammar that relates a body to its decoding, and that the parser
accepts every body of the format and ends right behind it.
-/

namespace BengProxy.Http

open Base Marked List

/-- The number written in hexadecimal digits, behind those read as `acc`. -/
def hexValue : List UInt8 → Nat → Option Nat
  | [], acc => some acc
  | ch :: rest, acc =>
    match hexDigit ch with
    | some digit => hexValue rest (acc * 16 + digit)
    | none => none

/-- The first digit of a number and those behind it. -/
theorem hexValue_cons {x : UInt8} {xs : List UInt8} {acc value : Nat}
    (h : hexValue (x :: xs) acc = some value) :
    ∃ digit, hexDigit x = some digit ∧ hexValue xs (acc * 16 + digit) = some value := by
  rw [hexValue] at h
  cases hx : hexDigit x with
  | none =>
    rw [hx] at h
    cases h
  | some digit =>
    rw [hx] at h
    exact ⟨digit, rfl, h⟩

/-- The line before a chunk: its size, which is a `size_t`, and perhaps an extension. -/
structure SizeLine (line : List UInt8) (size : Nat) : Prop where
  parts : ∃ digits extension, line = digits ++ extension ++ [lf] ∧ digits ≠ [] ∧
    hexValue digits 0 = some size ∧ lf ∉ extension ∧ ∀ ch ∈ extension.head?, hexDigit ch = none
  size_lt : size < sizeLimit

/-- The trailer lines behind the last chunk and the empty line that ends them. -/
inductive Trailer : List UInt8 → Prop where
  | done (crs : List UInt8) (hcr : ∀ ch ∈ crs, ch = cr) : Trailer (crs ++ [lf])
  | line (crs : List UInt8) (ch : UInt8) (line rest : List UInt8) (hcr : ∀ ch ∈ crs, ch = cr)
      (hch : ch ≠ cr ∧ ch ≠ lf) (hline : lf ∉ line) (hrest : Trailer rest) :
      Trailer (crs ++ ch :: line ++ lf :: rest)

/-- A complete chunked body and what it decodes to. -/
inductive ChunkedBody : List UInt8 → List UInt8 → Prop where
  | last (line trailer : List UInt8) (hline : SizeLine line 0) (htrailer : Trailer trailer) :
      ChunkedBody (line ++ trailer) []
  | chunk (line content crs rest decoded : List UInt8) (hline : SizeLine line content.length)
      (hne : content ≠ []) (hcr : ∀ ch ∈ crs, ch = cr) (hrest : ChunkedBody rest decoded) :
      ChunkedBody (line ++ content ++ crs ++ lf :: rest) (content ++ decoded)

namespace HttpChunkParser

variable {p p' : HttpChunkParser} {todo : List (UInt8 × Bool)}

/-- Framing is read byte by byte. -/
theorem feed_cons {x : UInt8} {xs : List UInt8} (h : (x :: xs).foldlM feed p = .ok p') :
    ∃ p1, p.feed x = .ok p1 ∧ xs.foldlM feed p1 = .ok p' := by
  rw [foldlM_cons] at h
  cases hx : p.feed x with
  | error e =>
    rw [hx] at h
    cases h
  | ok p1 =>
    rw [hx] at h
    exact ⟨p1, rfl, h⟩

private theorem Accepts.framing {xs : List UInt8} (hf : xs.foldlM feed p = .ok p')
    (h : Accepts p' todo) : Accepts p (Marked.framing xs ++ todo) := by
  induction xs generalizing p with
  | nil =>
    cases hf
    exact h
  | cons x xs ih =>
    obtain ⟨p1, hx, hxs⟩ := feed_cons hf
    exact ⟨p1, hx, ih hxs⟩

private theorem Accepts.data {ys : List UInt8} {r : Nat} (hn : r = ys.length)
    (hne : ys ≠ []) (h : Accepts { state := .afterData, remainingChunk := 0 } todo) :
    Accepts { state := .data, remainingChunk := r } (Marked.data ys ++ todo) := by
  induction ys generalizing r with
  | nil => exact absurd rfl hne
  | cons y ys ih =>
    rw [length_cons] at hn
    refine ⟨rfl, by simp only [hn]; omega, ?_⟩
    cases ys with
    | nil =>
      simp only [hn]
      exact h
    | cons z ys =>
      simp only [consume]
      rw [if_neg (by simp only [hn, length_cons]; omega)]
      exact ih (by omega) (by simp)

-- bytes that do not change the state

private theorem feed_skip (p : HttpChunkParser) (xs : List UInt8)
    (h : ∀ x ∈ xs, feed p x = .ok p) : xs.foldlM feed p = .ok p := by
  induction xs with
  | nil => rfl
  | cons x xs ih =>
    rw [foldlM_cons, h x (by simp)]
    exact ih fun y hy => h y (mem_cons_of_mem _ hy)

/-- The state behind the line before a chunk. -/
def afterLine (size : Nat) : HttpChunkParser :=
  { state := if size = 0 then .trailer else .data, remainingChunk := size }

section Line

variable {xs : List UInt8} {x : UInt8} {acc value m : Nat}

private theorem feed_digits (h : hexValue xs acc = some value) :
    xs.foldlM feed { state := .size, remainingChunk := acc % sizeLimit } =
      .ok { state := .size, remainingChunk := value % sizeLimit } := by
  induction xs generalizing acc with
  | nil =>
    cases h
    rfl
  | cons x xs ih =>
    obtain ⟨digit, hx, hxs⟩ := hexValue_cons h
    have hmo : (acc % sizeLimit * 16 + digit) % sizeLimit = (acc * 16 + digit) % sizeLimit := by
      rw [Nat.add_mod, Nat.mul_mod, Nat.mod_mod, ← Nat.mul_mod, ← Nat.add_mod]
    rw [foldlM_cons, feed]
    simp only [hx]
    rw [hmo]
    exact ih hxs

/-- The parser behind the digits of a line. -/
theorem feed_first (hne : xs ≠ []) (h : hexValue xs 0 = some value) :
    xs.foldlM feed { state := .none, remainingChunk := m } =
      .ok { state := .size, remainingChunk := value % sizeLimit } := by
  cases xs with
  | nil => exact absurd rfl hne
  | cons x xs =>
    obtain ⟨digit, hx, hxs⟩ := hexValue_cons h
    rw [foldlM_cons, feed]
    simp only [hx]
    exact feed_digits hxs

/-- The parser in the extension of the line. -/
theorem feed_notDigit (hx : hexDigit x = none) (h : lf ∉ x :: xs) :
    (x :: xs).foldlM feed { state := .size, remainingChunk := m } =
      .ok { state := .afterSize, remainingChunk := m } := by
  rw [mem_cons, not_or] at h
  rw [foldlM_cons, feed]
  simp only [hx, afterSize, if_neg (Ne.symm h.1)]
  apply feed_skip
  intro y hy
  have hne : y ≠ lf := fun he => h.2 (he ▸ hy)
  simp [feed, afterSize, hne]

private theorem feed_lf {state : ChunkState} (hst : state = .size ∨ state = .afterSize) :
    [lf].foldlM feed { state, remainingChunk := m } = .ok (afterLine m) := by
  have hlf : hexDigit lf = none := by decide
  have hfe : feed { state, remainingChunk := m } lf = .ok (afterLine m) := by
    rcases hst with rfl | rfl <;> by_cases h0 : m = 0 <;>
      simp [feed, hlf, afterSize, afterLine, h0]
  rw [foldlM_cons, hfe]
  rfl

/-- The parser behind a line with a chunk size. -/
theorem feed_line {digits extension : List UInt8} (hne : digits ≠ [])
    (h : hexValue digits 0 = some value) (hlf : lf ∉ extension)
    (hx : ∀ ch ∈ extension.head?, hexDigit ch = none) :
    (digits ++ extension ++ [lf]).foldlM feed { state := .none, remainingChunk := m } =
      .ok (afterLine (value % sizeLimit)) := by
  rw [foldlM_append, foldlM_append, feed_first hne h]
  cases extension with
  | nil => exact feed_lf (.inl rfl)
  | cons x xs =>
    change List.foldlM feed _ (x :: xs) >>= _ = _
    rw [feed_notDigit (hx x rfl) hlf]
    exact feed_lf (.inr rfl)

end Line

private theorem feed_sizeLine {line : List UInt8} {size : Nat} (h : SizeLine line size)
    (r : Nat) :
    line.foldlM feed { state := .none, remainingChunk := r } = .ok (afterLine size) := by
  obtain ⟨digits, extension, rfl, hne, hv, hlf, hx⟩ := h.parts
  rw [feed_line hne hv hlf hx, Nat.mod_eq_of_lt h.size_lt]

private theorem trailer_accepts {t : List UInt8} (h : Trailer t) (r : Nat) :
    Accepts { state := .trailer, remainingChunk := r } (framing t) := by
  have hc (crs : List UInt8) (hcr : ∀ ch ∈ crs, ch = cr) :
      crs.foldlM feed { state := .trailer, remainingChunk := r } =
        .ok { state := .trailer, remainingChunk := r } := by
    apply feed_skip
    intro x hx
    rw [hcr x hx]
    rfl
  induction h with
  | done crs hcr =>
    have hf : (crs ++ [lf]).foldlM feed { state := .trailer, remainingChunk := r } =
        .ok { state := .ended, remainingChunk := r } := by
      rw [foldlM_append, hc crs hcr]
      rfl
    rw [← append_nil (framing _)]
    exact Accepts.framing hf rfl
  | line crs ch line rest hcr hch hl _ ih =>
    have hsk := feed_skip { state := .trailerData, remainingChunk := r } line
      fun x hx => by
        have hne : x ≠ lf := fun he => hl (he ▸ hx)
        simp [feed, hne]
    have hf : (crs ++ ch :: line ++ [lf]).foldlM feed
        { state := .trailer, remainingChunk := r } =
          .ok { state := .trailer, remainingChunk := r } := by
      rw [append_assoc, foldlM_append, hc crs hcr]
      change List.foldlM feed _ (ch :: line ++ [lf]) = _
      rw [cons_append, foldlM_cons]
      simp only [feed, if_neg hch.1, if_neg hch.2]
      change List.foldlM feed _ (line ++ [lf]) = _
      rw [foldlM_append, hsk]
      rfl
    have ha := Accepts.framing hf ih
    rw [framing, framing, ← map_append, append_assoc] at ha
    exact ha

/-- The parser accepts every chunked body, and finds the decoding in it. -/
theorem accepts_of_body {body decoded : List UInt8} (h : ChunkedBody body decoded)
    (remaining : Nat) :
    ∃ ts, raw ts = body ∧ payload ts = decoded ∧
      Accepts { state := .none, remainingChunk := remaining } ts := by
  induction h generalizing remaining with
  | last line trailer hl ht =>
    refine ⟨framing line ++ framing trailer, by simp, by simp, ?_⟩
    exact Accepts.framing (feed_sizeLine hl remaining) (trailer_accepts ht 0)
  | chunk line content crs rest decoded hl hne hcr _ ih =>
    obtain ⟨ts, hra, hpa, hac⟩ := ih 0
    have he : (crs ++ [lf]).foldlM feed { state := .afterData, remainingChunk := 0 } =
        .ok { state := .none, remainingChunk := 0 } := by
      rw [foldlM_append, feed_skip _ crs fun x hx => by rw [hcr x hx]; rfl]
      rfl
    have hpo : content.length ≠ 0 := fun h0 => hne (eq_nil_of_length_eq_zero h0)
    refine ⟨framing line ++ (data content ++ (framing (crs ++ [lf]) ++ ts)), ?_, ?_, ?_⟩
    · simp [hra]
    · simp [hpa]
    · apply Accepts.framing (feed_sizeLine hl remaining)
      rw [afterLine, if_neg hpo]
      exact Accepts.data rfl hne (Accepts.framing he hac)

end HttpChunkParser
end BengProxy.Http
