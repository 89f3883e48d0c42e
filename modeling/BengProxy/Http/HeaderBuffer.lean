import BengProxy.Base.Separated
import BengProxy.Http.ServerRead
import BengProxy.Memory.GrowingBufferContents
import Mathlib.Data.List.DropRight

/-!
# Header lines in a buffer

Models `header_parse_buffer()`, `src/http/HeaderParser.cxx`: the buffer is copied piece by piece to
a window of fixed size, and the lines that are complete in the window are parsed. A last line
without a newline takes the pointer behind the end of the window, and a line that does not fit is
never complete.
-/

namespace BengProxy.Http

open Base Text Memory List Separated HeaderLineLib GrowingBufferReader
open Separated hiding split

/-- The size of the window, `HeaderParser.cxx:60`. -/
def windowSize : Nat := 4096

/-- A line without the carriage returns at its end, `HeaderParser.cxx:101-102`. -/
def trimCr (line : Text) : Text := (line.reverse.dropWhile (· == 0x0d)).reverse

/-- `StripLeft()`. -/
def HeaderLineLib.strip (lib : HeaderLineLib) (s : Text) : Text := stripLeft lib.isWhitespace s

variable (lib : HeaderLineLib)

/-- The call of `header_parse_line`, whose result is ignored. -/
def addLine (headers : StringMap) (line : Text) : StringMap :=
  (headerParseLine lib headers line).getD headers

/-- The end of the next line: at a newline, or at the end of the data if `gb` is `nullptr`. -/
def nextLine (eof : Bool) (p : Text) : Option Text :=
  ((cut 0x0a p).map Prod.fst).or (if eof then some p else none)

/-- The loop over the lines in the window, `HeaderParser.cxx:90-106`, from `p` on; missing
if `p` is behind the end, where `memchr` reads on. -/
def parseLines (eof : Bool) (headers : StringMap) (p : Text) : Option (StringMap × Text) :=
  match nextLine eof (lib.strip p) with
  | none => some (headers, lib.strip p)
  | some line =>
    if _hlt : (trimCr line).length < (lib.strip p).length then
      parseLines eof (addLine lib headers (trimCr line))
        ((lib.strip p).drop ((trimCr line).length + 1))
    else none
termination_by p.length
decreasing_by
  have hle : (lib.strip p).length ≤ p.length := length_stripLeft_le lib.isWhitespace p
  rw [length_drop]
  omega

/-- The variables of `header_parse_buffer`; `eof` says that `gb` is `nullptr`. -/
structure HeaderParsing where
  reader : GrowingBufferReader
  headers : StringMap
  window : Text := []
  eof : Bool := false

/-- The next piece is copied to the window, `HeaderParser.cxx:67-80`. The library decides
how much of the free space `Write` offers, at least one byte if there is any. -/
def HeaderParsing.copy (s : HeaderParsing) (room : Nat) : HeaderParsing :=
  let w := min (room + 1) (windowSize - s.window.length)
  if s.eof || w == 0 then s
  else if s.reader.read.isEmpty then { s with eof := true }
  else
    let nbytes := min s.reader.read.length w
    { s with
      window := s.window ++ s.reader.read.take nbytes
      reader := s.reader.consume nbytes }

/-- How `header_parse_buffer` ends. -/
inductive HeaderOutcome where
  | done (headers : StringMap)
  | outOfBounds
  deriving DecidableEq

/-- The loop of `header_parse_buffer`, `HeaderParser.cxx:64-109`; missing if the turns do
not suffice. -/
def headerParseLoop : Nat → (Nat → Nat) → HeaderParsing → Option HeaderOutcome
  | 0, _, _ => none
  | turns + 1, room, s =>
    let s := s.copy (room 0)
    if s.window.isEmpty && s.eof then some (.done s.headers)
    else
      match parseLines lib s.eof s.headers s.window with
      | none => some .outOfBounds
      | some (headers, window) =>
        headerParseLoop turns (fun k => room (k + 1)) { s with headers, window }

/-- `header_parse_buffer`, `HeaderParser.cxx:54-112`. -/
def headerParseBuffer (turns : Nat) (room : Nat → Nat) (headers : StringMap) (gb : GrowingBuffer) :
    Option HeaderOutcome :=
  headerParseLoop lib turns room { reader := .new gb, headers }

/-- All lines of a text are parsed. -/
def addLines (headers : StringMap) (content : Text) : StringMap :=
  ((split 0x0a content).map fun line => trimCr (lib.strip line)).foldl
    (addLine lib) headers

/-- Every line fits into the window with its newline, and only white space is behind the last
newline. -/
def Fits (content : Text) : Prop :=
  (∀ line ∈ (split 0x0a content).dropLast, (lib.strip line).length < windowSize) ∧
    ∀ line ∈ (split 0x0a content).getLast?, lib.strip line = []

/-- Parsing goes on with other headers and another text. -/
def SameLines (headers : StringMap) (content : Text) (headers' : StringMap) (content' : Text) :
    Prop :=
  addLines lib headers content = addLines lib headers' content' ∧
    (Fits lib content ↔ Fits lib content')

variable {lib} {headers headers' : StringMap} {p t line white : Text}

private theorem SameLines.trans {headers'' : StringMap} {u v : Text}
    (h : SameLines lib headers t headers' u) (h' : SameLines lib headers' u headers'' v) :
    SameLines lib headers t headers'' v :=
  ⟨h.1.trans h'.1, h.2.trans h'.2⟩

private theorem split_append_left {x : Text} {xs : List Text} (hp : 0x0a ∉ p)
    (ht : split 0x0a t = x :: xs) : split 0x0a (p ++ t) = (p ++ x) :: xs := by
  induction p with
  | nil => exact ht
  | cons c p ih =>
    rw [mem_cons, not_or] at hp
    rw [cons_append, Separated.split, if_neg (Ne.symm hp.1), ih hp.2]
    rfl

private theorem split_line (hl : 0x0a ∉ line) (t : Text) :
    Separated.split 0x0a (line ++ 0x0a :: t) = line :: Separated.split 0x0a t := by
  have h := split_append_left hl (t := 0x0a :: t) (by rw [Separated.split, if_pos rfl])
  rwa [append_nil] at h

private theorem sameLines_line (hl : 0x0a ∉ line) (hfi : (lib.strip line).length < windowSize) :
    SameLines lib headers (line ++ 0x0a :: t)
      (addLine lib headers (trimCr (lib.strip line))) t := by
  have hne := split_ne_nil 0x0a t
  constructor
  · rw [addLines, split_line hl]
    rfl
  · rw [Fits, Fits, split_line hl, dropLast_cons_of_ne_nil hne, forall_mem_cons,
      and_iff_right hfi, getLast?_cons_of_ne_nil hne]

private theorem sameLines_cons {ch : UInt8} (hw : lib.isWhitespace ch = true) :
    SameLines lib headers (ch :: t) headers t := by
  by_cases hch : ch = 0x0a
  · subst hch
    exact sameLines_line not_mem_nil (Nat.zero_lt_succ 4095)
  obtain ⟨x, xs, hs⟩ := exists_cons_of_ne_nil (split_ne_nil 0x0a t)
  have hs' : split 0x0a (ch :: t) = (ch :: x) :: xs :=
    split_append_left (p := [ch]) (by simpa using Ne.symm hch) hs
  have hst : lib.strip (ch :: x) = lib.strip x := dropWhile_cons_of_pos hw
  constructor
  · rw [addLines, addLines, hs', hs, map_cons, map_cons, hst]
  · rw [Fits, Fits, hs', hs]
    cases xs with
    | nil | cons y xs => simp [hst]

private theorem sameLines_white (hw : ∀ ch ∈ white, lib.isWhitespace ch = true) :
    SameLines lib headers (white ++ t) headers t := by
  induction white with
  | nil => exact ⟨rfl, Iff.rfl⟩
  | cons ch white ih =>
    rw [forall_mem_cons] at hw
    exact (sameLines_cons hw.1).trans (ih hw.2)

private theorem sameLines_strip : SameLines lib headers (p ++ t) headers (lib.strip p ++ t) := by
  have hap : p ++ t = p.takeWhile lib.isWhitespace ++ (lib.strip p ++ t) := by
    rw [← append_assoc, strip, stripLeft, takeWhile_append_dropWhile]
  rw [hap]
  exact sameLines_white fun ch hch => mem_takeWhile_imp hch

private theorem strip_strip : lib.strip (lib.strip p) = lib.strip p := dropWhile_idempotent _ _

private theorem strip_append_iff (hp : p ≠ []) :
    lib.strip (p ++ t) = p ++ t ↔ lib.strip p = p := by
  obtain ⟨ch, p, rfl⟩ := exists_cons_of_ne_nil hp
  simp [strip, stripLeft]

private theorem exists_trimmed (line : Text) :
    ∃ crs, line = trimCr line ++ crs ∧ ∀ ch ∈ crs, ch = 0x0d := by
  refine ⟨(line.reverse.takeWhile (· == 0x0d)).reverse, ?_, fun ch hch => ?_⟩
  · rw [trimCr, ← reverse_append, takeWhile_append_dropWhile, reverse_reverse]
  · simpa using mem_takeWhile_imp (mem_reverse.mp hch)

private theorem parseLines_eof (headers : StringMap) (p : Text) :
    parseLines lib true headers p = none := by
  fun_induction parseLines lib true headers p with
  | case1 headers p hl => simp [nextLine] at hl
  | case2 headers p line hl hlt ih => exact ih
  | case3 headers p line hl hg => rfl

section Loop

variable (hlf : lib.isWhitespace 0x0a = true) (hcr : lib.isWhitespace 0x0d = true)
include hlf hcr

-- behind a line, there is nothing but white space in front of the next one
private theorem exists_rest (h : nextLine false (lib.strip p) = some line) :
    ∃ rest white, lib.strip p = line ++ 0x0a :: rest ∧ 0x0a ∉ line ∧
      (lib.strip p).length = (trimCr line).length + (white ++ rest).length + 1 ∧
      (lib.strip p).drop ((trimCr line).length + 1) = white ++ rest ∧
      ∀ ch ∈ white, lib.isWhitespace ch = true := by
  simp only [nextLine, Bool.false_eq_true, if_false, Option.or_none, Option.map_eq_some_iff] at h
  obtain ⟨⟨line, rest⟩, hc, rfl⟩ := h
  obtain ⟨hst, hfr⟩ := eq_of_cut hc
  obtain ⟨crs, ht, hr⟩ := exists_trimmed line
  have hs : lib.strip p = trimCr line ++ (crs ++ [0x0a] ++ rest) := by
    rw [append_assoc, ← append_assoc, ← ht, hst, singleton_append]
  refine ⟨rest, (crs ++ [0x0a]).drop 1, hst, hfr, ?_, ?_, fun ch hch => ?_⟩
  · rw [hs]
    simp only [length_append, length_drop, length_singleton]
    omega
  · rw [hs, drop_length_add_append, drop_append_of_le_length (by simp)]
  · rcases mem_append.mp (mem_of_mem_drop hch) with hch | hch
    · rw [hr ch hch, hcr]
    · rw [mem_singleton.mp hch, hlf]

private theorem parseLines_spec (headers : StringMap) (p : Text) :
    ∃ headers' w, parseLines lib false headers p = some (headers', w) ∧
      lib.strip w = w ∧ 0x0a ∉ w ∧ w.length ≤ p.length ∧
      (p.length ≤ windowSize → ∀ t, SameLines lib headers (p ++ t) headers' (w ++ t)) := by
  fun_induction parseLines lib false headers p with
  | case1 headers p hl =>
    have hc : cut 0x0a (lib.strip p) = none := by simpa [nextLine] using hl
    exact ⟨headers, lib.strip p, rfl, strip_strip, not_mem_of_cut_eq_none hc,
      length_stripLeft_le _ p, fun _ _ => sameLines_strip⟩
  | case2 headers p line hl hlt ih =>
    obtain ⟨rest, white, hst, hfr, hn, hd, hw⟩ := exists_rest hlf hcr hl
    rw [hd] at ih ⊢
    obtain ⟨headers', w, hpa, hse, ht, hle, hsa⟩ := ih
    have hl' : (lib.strip p).length ≤ p.length := length_stripLeft_le _ p
    refine ⟨headers', w, hpa, hse, ht, by omega, fun hp t => ?_⟩
    have hli : lib.strip line = line := by
      cases line with
      | nil => rfl
      | cons ch line => exact (strip_append_iff (cons_ne_nil ch line)).mp (hst ▸ strip_strip)
    have hfi : (lib.strip line).length < windowSize := by
      rw [hst, length_append, length_cons] at hl'
      rw [hli]
      omega
    have hx := @sameLines_line lib headers (rest ++ t) line hfr hfi
    rw [hli] at hx
    have hsk := @sameLines_white lib (addLine lib headers (trimCr line)) (rest ++ t) white hw
    have hs' := hsa (by omega) t
    rw [append_assoc] at hs'
    refine sameLines_strip.trans ?_
    rw [hst, append_assoc]
    exact hx.trans (.trans ⟨hsk.1.symm, hsk.2.symm⟩ hs')
  | case3 headers p line hl hg =>
    obtain ⟨_, _, -, -, hn, -⟩ := exists_rest hlf hcr hl
    omega

/-- What is left of the content. -/
def HeaderParsing.rest (s : HeaderParsing) : Text := s.window ++ s.reader.contents

/-- The window is not too full, and `gb` is given up at the end of the buffer. -/
structure HeaderParsing.Inv (s : HeaderParsing) : Prop where
  ready : s.reader.Ready
  window_le : s.window.length ≤ windowSize
  eof_nil : s.eof = true → s.reader.contents = []

omit hlf hcr in
private theorem HeaderParsing.Inv.copy {s : HeaderParsing} (h : s.Inv) (room : Nat) :
    (s.copy room).Inv ∧ (s.copy room).rest = s.rest ∧ (s.copy room).headers = s.headers ∧
      (s.window.length < windowSize → s.eof = false →
        (s.copy room).eof = true ∧ (s.copy room).window = s.window ∨
          (s.copy room).eof = false ∧
            (s.copy room).reader.contents.length < s.reader.contents.length) := by
  unfold HeaderParsing.copy
  generalize hw : min (room + 1) (windowSize - s.window.length) = w
  simp only
  split
  next hst =>
    refine ⟨h, rfl, rfl, fun hlt he => ?_⟩
    rw [he, Bool.false_or, beq_iff_eq] at hst
    omega
  next hg =>
    rw [Bool.not_eq_true, Bool.or_eq_false_iff] at hg
    split
    next hre =>
      have hni := h.ready.shows.eq_nil_of_read (isEmpty_iff.mp hre)
      exact ⟨{ h with eof_nil := fun _ => hni }, rfl, rfl, fun _ _ => .inl ⟨rfl, rfl⟩⟩
    next hre =>
      obtain ⟨r, hca, hr, hc⟩ :=
        h.ready.call (e := .consume (min s.reader.read.length w)) (min_le_left _ _)
      cases hca
      obtain ⟨t, ht⟩ := h.ready.shows.read_prefix
      have hpo := length_pos_iff.mpr fun hni => hre (isEmpty_iff.mpr hni)
      have hl := congrArg length ht
      rw [length_append] at hl
      refine ⟨⟨hr, ?_, fun he => ?_⟩, ?_, rfl, fun _ _ => .inr ⟨hg.1, ?_⟩⟩
      · have hle := h.window_le
        simp only [length_append, length_take]
        omega
      · cases hg.1.symm.trans he
      · simp only [rest, hc, ReaderEvent.length, append_assoc]
        rw [← ht, drop_append_of_le_length (min_le_left _ _),
          ← append_assoc (take _ _), take_append_drop]
      · simp only [hc, ReaderEvent.length, length_drop]
        omega

private theorem sameLines_of_done (tu : Nat) : ∀ {room : Nat → Nat} {s : HeaderParsing}, s.Inv →
    headerParseLoop lib tu room s = some (.done headers') →
      SameLines lib s.headers s.rest headers' [] := by
  induction tu with
  | zero => exact nofun
  | succ tu ih =>
    intro room s h hlo
    obtain ⟨hi, hr, hh, -⟩ := h.copy (room 0)
    rw [← hr, ← hh]
    rw [headerParseLoop] at hlo
    generalize s.copy (room 0) = s' at *
    split at hlo
    next he =>
      cases hlo
      rw [Bool.and_eq_true, List.isEmpty_iff] at he
      rw [HeaderParsing.rest, he.1, hi.eof_nil he.2]
      exact ⟨rfl, Iff.rfl⟩
    · cases heo : s'.eof with
      | true =>
        rw [heo, parseLines_eof] at hlo
        cases hlo
      | false =>
        obtain ⟨headers1, w, hpa, -, -, hle, hsa⟩ := parseLines_spec hlf hcr s'.headers s'.window
        rw [heo, hpa] at hlo
        exact (hsa hi.window_le _).trans
          (@ih _ { s' with headers := headers1, window := w, eof := false }
            ⟨hi.ready, hle.trans hi.window_le, nofun⟩ hlo)

omit hlf hcr in
private theorem length_lt_of_fits (hse : lib.strip p = p) (hfr : 0x0a ∉ p)
    (h : Fits lib (p ++ t)) : p.length < windowSize ∧ (t = [] → p = []) := by
  by_cases hp : p = []
  · rw [hp]
    exact ⟨Nat.zero_lt_succ 4095, fun _ => rfl⟩
  obtain ⟨x, xs, hs⟩ := exists_cons_of_ne_nil (split_ne_nil 0x0a t)
  rw [Fits, split_append_left hfr hs] at h
  cases xs with
  | nil =>
    have hla := h.2 (p ++ x) rfl
    rw [(strip_append_iff hp).mpr hse, append_eq_nil_iff] at hla
    exact absurd hla.1 hp
  | cons y xs =>
    have hfi := h.1 (p ++ x) mem_cons_self
    rw [(strip_append_iff hp).mpr hse, length_append] at hfi
    refine ⟨by omega, fun ht => ?_⟩
    rw [ht] at hs
    cases hs

private theorem exists_done (n : Nat) : ∀ {room : Nat → Nat}
    {s : HeaderParsing}, s.Inv → s.eof = false →
    lib.strip s.window = s.window → 0x0a ∉ s.window → Fits lib s.rest →
      s.reader.contents.length ≤ n →
        ∃ turns out, headerParseLoop lib turns room s = some (.done out) := by
  induction n using Nat.strong_induction_on with
  | _ n ih =>
    intro room s h he hse hfr hfi hn
    obtain ⟨hi, hr, -, hc⟩ := h.copy (room 0)
    obtain ⟨hro, hni⟩ := length_lt_of_fits hse hfr hfi
    rw [← hr] at hfi
    generalize hs : s.copy (room 0) = s' at *
    rcases hc hro he with ⟨he', hw⟩ | ⟨he', hlt⟩
    · rw [HeaderParsing.rest, hi.eof_nil he', hw] at hr
      refine ⟨1, s'.headers, ?_⟩
      rw [headerParseLoop, hs, hw, hni (append_cancel_left hr).symm, he']
      rfl
    obtain ⟨headers1, w, hpa, hs', hf', hle, hsa⟩ := parseLines_spec hlf hcr s'.headers s'.window
    obtain ⟨turns, out, hlo⟩ := @ih s'.reader.contents.length (by omega) (fun k => room (k + 1))
      { s' with headers := headers1, window := w }
      ⟨hi.ready, hle.trans hi.window_le, hi.eof_nil⟩ he' hs' hf'
      ((hsa hi.window_le _).2.mp hfi) (le_rfl)
    refine ⟨turns + 1, out, ?_⟩
    rw [headerParseLoop, hs]
    simp only [he', Bool.and_false, hpa]
    simp only [he'] at hlo
    exact hlo

end Loop

/-- `header_parse_buffer` returns and has added the headers of all lines exactly if every line fits
into the window and nothing but white space is behind the last newline, however the content is
divided. -/
theorem headerParseBuffer_iff (hlf : lib.isWhitespace 0x0a = true)
    (hcr : lib.isWhitespace 0x0d = true) {gb : GrowingBuffer} (hw : gb.toChunkQueue.WF)
    (hfir : ¬gb.ReservedFirst) (headers : StringMap) (room : Nat → Nat) :
    (∃ turns, headerParseBuffer lib turns room headers gb =
      some (.done (addLines lib headers gb.contents))) ↔ Fits lib gb.contents := by
  obtain ⟨hre, hc⟩ := ready_new hw hfir
  have hi : HeaderParsing.Inv { reader := .new gb, headers } := ⟨hre, Nat.zero_le _, nofun⟩
  have hni : Fits lib [] := by simp [Fits, Separated.split, strip, stripLeft]
  rw [← hc]
  constructor
  · rintro ⟨turns, hlo⟩
    exact (sameLines_of_done hlf hcr turns hi hlo).2.mpr hni
  · intro hfi
    obtain ⟨turns, out, hlo⟩ := @exists_done lib hlf hcr _ room _ hi rfl rfl
      not_mem_nil hfi (le_rfl)
    have hsa : addLines lib headers (new gb).contents = out :=
      (sameLines_of_done hlf hcr turns hi hlo).1
    rw [hsa]
    exact ⟨turns, hlo⟩

/-- A library for examples: every name is valid. -/
def anyName : HeaderLineLib where
  nameValid _ := true
  isWhitespace c := c ≤ 0x20

/-- One line in two chunks. -/
theorem headerParseBuffer_one_line :
    ∃ turns, headerParseBuffer anyName turns (fun _ => 0) [] ⟨⟨[ascii "A:", ascii "b\n"], 0⟩⟩ =
      some (.done [(ascii "a", ascii "b")]) :=
  (headerParseBuffer_iff rfl rfl ⟨by decide, by decide⟩ (by decide) [] _).mpr
    ⟨by decide, by decide⟩

/-- The last line has no newline, and the search for one goes on behind the window. -/
theorem headerParseBuffer_no_newline :
    headerParseBuffer anyName 2 (fun _ => 9) [] ⟨⟨[ascii "A:b"], 0⟩⟩ = some .outOfBounds := by
  decide +kernel

end BengProxy.Http
