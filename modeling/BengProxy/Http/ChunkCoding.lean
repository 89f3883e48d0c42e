import BengProxy.Http.Chunked

/-!
# Encoding and decoding whole bodies

An encoding of a byte string splits it into chunks that are not empty and not larger than a
maximum. The parser decodes every encoding to the byte string, and ends right behind it.
-/

namespace BengProxy.Http

open Base Marked List

/-- The line end `"\r\n"`. -/
def crlf : List UInt8 := [cr, lf]

/-- The last chunk `"0\r\n\r\n"`. -/
def eofChunk : List UInt8 := [0x30, cr, lf, cr, lf]

section

variable (format : Nat → List UInt8)

/-- The header of a chunk. -/
def chunkHeader (size : Nat) : List UInt8 := format size ++ crlf

/-- The chunks, without the last one. -/
def encodeChunks (chunks : List (List UInt8)) : List UInt8 :=
  chunks.flatMap fun chunk => chunkHeader format chunk.length ++ chunk ++ crlf

/-- No chunk is empty or larger than the maximum. -/
def ChunkSizes (maximum : Nat) (chunks : List (List UInt8)) : Prop :=
  ∀ chunk ∈ chunks, chunk ≠ [] ∧ chunk.length ≤ maximum

/-- `encoded` is an encoding of `bytes`: chunks, and one last chunk behind them. -/
def Encodes (maximum : Nat) (encoded bytes : List UInt8) : Prop :=
  ∃ chunks, ChunkSizes maximum chunks ∧ chunks.flatten = bytes ∧
    encoded = encodeChunks format chunks ++ eofChunk

/-- The function writes numbers of 16 bits in four hexadecimal digits. -/
def FormatsHex : Prop :=
  ∀ n < 0x10000, (format n).length = 4 ∧ hexValue (format n) 0 = some n

/-- A lower case hexadecimal digit. -/
def lowerHex (digit : Nat) : UInt8 :=
  if digit < 10 then 0x30 + digit.toUInt8 else 0x57 + digit.toUInt8

/-- Four lower case hexadecimal digits. -/
def hexFormat (n : Nat) : List UInt8 :=
  [lowerHex (n / 4096 % 16), lowerHex (n / 256 % 16), lowerHex (n / 16 % 16), lowerHex (n % 16)]

private theorem hexDigit_lowerHex : ∀ digit < 16, hexDigit (lowerHex digit) = some digit := by
  decide

theorem formatsHex_hexFormat : FormatsHex hexFormat := by
  intro n hn
  refine ⟨rfl, ?_⟩
  have hd (m : Nat) : hexDigit (lowerHex (m % 16)) = some (m % 16) :=
    hexDigit_lowerHex _ (Nat.mod_lt _ (by decide))
  simp only [hexFormat, hexValue, hd, Option.some.injEq]
  omega

theorem encodeChunks_append (xs ys : List (List UInt8)) :
    encodeChunks format (xs ++ ys) = encodeChunks format xs ++ encodeChunks format ys :=
  flatMap_append

theorem encodeChunks_concat (chunks : List (List UInt8)) (chunk : List UInt8) :
    encodeChunks format (chunks ++ [chunk]) =
      encodeChunks format chunks ++ chunkHeader format chunk.length ++ chunk ++ crlf := by
  simp [encodeChunks]

end

theorem ChunkSizes.concat {maximum : Nat} {chunks : List (List UInt8)} {chunk : List UInt8}
    (h : ChunkSizes maximum chunks) (hne : chunk ≠ []) (hle : chunk.length ≤ maximum) :
    ChunkSizes maximum (chunks ++ [chunk]) := by
  intro c hc
  rcases mem_append.mp hc with hc | hc
  · exact h c hc
  · rw [mem_singleton.mp hc]
    exact ⟨hne, hle⟩

/-- Every byte string can be encoded behind given chunks. -/
theorem exists_encodes {maximum : Nat} {chunks : List (List UInt8)} (format : Nat → List UInt8)
    (h : ChunkSizes maximum chunks) (hma : 0 < maximum) (rest : List UInt8) :
    ∃ encoded, Encodes format maximum encoded (chunks.flatten ++ rest) ∧
      encodeChunks format chunks <+: encoded := by
  refine ⟨_, ⟨chunks ++ rest.map ([·]), ?_, ?_, rfl⟩, ?_⟩
  · intro c hc
    rcases mem_append.mp hc with hc | hc
    · exact h c hc
    · obtain ⟨b, -, rfl⟩ := mem_map.mp hc
      exact ⟨cons_ne_nil _ _, hma⟩
  · rw [flatten_append]
    congr 1
    induction rest with
    | nil => rfl
    | cons b rest ih => rw [map_cons, flatten_cons, ih, singleton_append]
  · rw [encodeChunks_append, append_assoc]
    exact prefix_append _ _

private theorem sizeLine_header {format : Nat → List UInt8} (hfo : FormatsHex format)
    {size : Nat} (h : size < 0x10000) : SizeLine (chunkHeader format size) size where
  parts := by
    obtain ⟨hle, hv⟩ := hfo size h
    refine ⟨format size, [cr], by simp [chunkHeader, crlf], ?_, hv, by decide, ?_⟩
    · intro hni
      rw [hni] at hle
      cases hle
    · intro ch hch
      cases hch
      rfl
  size_lt := Nat.lt_trans h (by decide)

private theorem mem_cr {ch : UInt8} (h : ch ∈ [cr]) : ch = cr := mem_singleton.mp h

/-- An encoding is a chunked body. -/
theorem Encodes.chunkedBody {format : Nat → List UInt8} {maximum : Nat}
    {encoded bytes : List UInt8} (h : Encodes format maximum encoded bytes)
    (hfo : FormatsHex format) (hma : maximum < 0x10000) : ChunkedBody encoded bytes := by
  obtain ⟨chunks, hs, rfl, rfl⟩ := h
  induction chunks with
  | nil =>
    refine .last [0x30, cr, lf] ([cr] ++ [lf])
      ⟨⟨[0x30], [cr], rfl, by simp, rfl, by decide, ?_⟩, ?_⟩
      (.done [cr] fun _ => mem_cr)
    · intro ch hch
      cases hch
      rfl
    · decide
  | cons chunk chunks ih =>
    obtain ⟨hne, hle⟩ := hs chunk mem_cons_self
    have hr := ih fun c hc => hs c (mem_cons_of_mem _ hc)
    have hl := sizeLine_header hfo (Nat.lt_of_le_of_lt hle hma)
    have hb := ChunkedBody.chunk _ chunk [cr] _ _ hl hne (fun _ => mem_cr) hr
    have he : encodeChunks format (chunk :: chunks) ++ eofChunk =
        chunkHeader format chunk.length ++ chunk ++ [cr] ++
          lf :: (encodeChunks format chunks ++ eofChunk) := by
      simp [encodeChunks, crlf]
    rw [he, flatten_cons]
    exact hb

namespace HttpChunkParser

/-- Run the parser until it ends: `Parse` and `Consume` all data it finds. The result is the
data and the input behind the end; it is incomplete if the input ends before the parser. -/
def decodeLoop : Nat → HttpChunkParser → List UInt8 →
    Option (Except ParseError (List UInt8 × List UInt8))
  | 0, _, _ => none
  | fuel + 1, p, src =>
    match p.parse src 0 with
    | .error e => some (.error e)
    | .ok (p, offset, size) =>
      if p.hasEnded then some (.ok ([], src.drop offset))
      else if size = 0 then none
      else
        match decodeLoop fuel (p.consume size) (src.drop (offset + size)) with
        | none => none
        | some (.error e) => some (.error e)
        | some (.ok (decoded, rest)) => some (.ok ((src.drop offset).take size ++ decoded, rest))

/-- Decode a body with a new parser. -/
def decode (src : List UInt8) : Option (Except ParseError (List UInt8 × List UInt8)) :=
  decodeLoop (src.length + 1) {} src

private theorem decodeLoop_spec {rest : List UInt8} (fuel : Nat) :
    ∀ {p : HttpChunkParser} {ts : List (UInt8 × Bool)}, Accepts p ts → p.hasEnded = false →
      ts.length < fuel → decodeLoop fuel p (raw ts ++ rest) = some (.ok (payload ts, rest)) := by
  induction fuel with
  | zero =>
    intro p ts _ _ hf
    omega
  | succ fuel ih =>
    intro p ts h he hf
    obtain ⟨xs, ys, p', todo', hp, hfo⟩ := h.parse he (prefix_refl (raw ts ++ rest)) 0
    obtain rfl := hfo.todo_eq
    have hac := hfo.accepts
    have hd : (raw (framing xs ++ data ys ++ todo') ++ rest).drop xs.length =
        ys ++ (raw todo' ++ rest) := by
      simp
    rw [decodeLoop, hp, zero_add]
    cases hp' : p'.hasEnded with
    | true =>
      have hni := hac.eq_nil (hasEnded_iff.mp hp')
      obtain ⟨hy, rfl⟩ := append_eq_nil_iff.mp hni
      obtain rfl : ys = [] := map_eq_nil_iff.mp hy
      simp only [hp', if_true, hd]
      simp
    | false =>
      have hys : ys ≠ [] := by
        intro hy
        subst hy
        -- without data the input is used up, but the parser has not ended
        rcases hfo.complete with hc | hc | hc
        · rw [hp'] at hc
          cases hc
        · exact hc rfl
        · simp only [raw_append, raw_framing, raw_data, append_nil, length_append, length_raw] at hc
          obtain rfl : todo' = [] := eq_nil_of_length_eq_zero (by omega)
          rw [hasEnded_iff.mpr hac] at hp'
          cases hp'
      have hpo : ys.length ≠ 0 := fun h0 => hys (eq_nil_of_length_eq_zero h0)
      have hle : todo'.length < fuel := by
        simp only [framing, data, length_append, length_map] at hf
        omega
      have hre := ih (hfo.in_data hys) (hasEnded_consume _ (hac.state_of_data hys)) hle
      have hd' : (raw (framing xs ++ data ys ++ todo') ++ rest).drop (xs.length + ys.length) =
          raw todo' ++ rest := by
        rw [← drop_drop, hd, drop_left]
      simp only [hp', Bool.false_eq_true, if_false, if_neg hpo, hd, hd', hre, take_left]
      simp

/-- A chunked body is decoded, and the decoder stops right behind it. -/
theorem decode_of_body {body decoded : List UInt8} (h : ChunkedBody body decoded)
    (rest : List UInt8) : decode (body ++ rest) = some (.ok (decoded, rest)) := by
  obtain ⟨ts, rfl, rfl, hac⟩ := accepts_of_body h 0
  refine decodeLoop_spec _ hac rfl ?_
  rw [length_append, length_raw]
  omega

end HttpChunkParser
end BengProxy.Http
