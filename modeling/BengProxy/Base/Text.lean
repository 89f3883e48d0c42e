import Mathlib.Data.List.Basic

/-!
# Strings of bytes

Byte strings and the few operations of a string library that do not depend on a locale: ASCII
case folding, splitting and stripping. A string is the list of its bytes; a terminator is not part
of it.
-/

namespace BengProxy.Base

open List

/-- The bytes of a string. -/
abbrev Text := List UInt8

namespace Text

/-- A literal of ASCII characters. -/
def ascii (s : String) : Text := s.toList.map fun c => UInt8.ofNat c.toNat

/-- ASCII lower case. -/
def lower (ch : UInt8) : UInt8 := if 0x41 ≤ ch ∧ ch ≤ 0x5a then ch + 0x20 else ch

/-- ASCII letters. -/
def isAlphaASCII (ch : UInt8) : Bool := (0x41 ≤ ch && ch ≤ 0x5a) || (0x61 ≤ ch && ch ≤ 0x7a)

/-- ASCII digits. -/
def isDigitASCII (ch : UInt8) : Bool := 0x30 ≤ ch && ch ≤ 0x39

/-- White space, control characters and null. -/
def isWhitespaceOrNull (ch : UInt8) : Bool := ch ≤ 0x20

/-- Equality up to ASCII case. -/
def equalIgnoreCase (s t : Text) : Bool := s.map lower == t.map lower

variable (s : Text)

@[simp]
theorem equalIgnoreCase_self : equalIgnoreCase s s = true := beq_self_eq_true _

/-- Split after the longest prefix of characters that satisfy the predicate. -/
def splitWhile (p : UInt8 → Bool) : Text × Text := (s.takeWhile p, s.dropWhile p)

/-- Split at the first occurrence of the separator, which is dropped. -/
def split (separator : UInt8) : Text × Text :=
  (s.takeWhile (· != separator), (s.dropWhile (· != separator)).drop 1)

/-- Drop the white space at the beginning. -/
def stripLeft (isWhitespace : UInt8 → Bool) (s : Text) : Text := s.dropWhile isWhitespace

/-- What is before and what is after the first occurrence of the separator, if there is one. -/
def cut (separator : UInt8) : Text → Option (Text × Text)
  | [] => none
  | c :: s =>
    if c = separator then some ([], s)
    else (cut separator s).map fun (before, after) => (c :: before, after)

variable {separator : UInt8}

theorem cut_cons {c : UInt8} (h : c ≠ separator) (s : Text) :
    cut separator (c :: s) = (cut separator s).map fun parts => (c :: parts.1, parts.2) := by
  rw [cut, if_neg h]

variable {s : Text}

/-- There is nothing to cut without the separator. -/
theorem cut_eq_none (h : separator ∉ s) :
    cut separator s = none := by
  induction s with
  | nil => rfl
  | cons c s ih =>
    rw [mem_cons, not_or] at h
    rw [cut, if_neg (Ne.symm h.1), ih h.2, Option.map_none]

/-- The string is cut at the first occurrence of the separator. -/
theorem cut_append (h : separator ∉ s) (t : Text) :
    cut separator (s ++ separator :: t) = some (s, t) := by
  induction s with
  | nil => rw [nil_append, cut, if_pos rfl]
  | cons c s ih =>
    rw [mem_cons, not_or] at h
    rw [cons_append, cut, if_neg (Ne.symm h.1), ih h.2, Option.map_some]

/-- A string that cannot be cut does not have the separator. -/
theorem not_mem_of_cut_eq_none (h : cut separator s = none) :
    separator ∉ s := by
  intro hme
  obtain ⟨before, after, rfl, hb⟩ := eq_append_cons_of_mem hme
  rw [cut_append hb] at h
  cases h

theorem eq_of_cut {before after : Text} (h : cut separator s = some (before, after)) :
    s = before ++ separator :: after ∧ separator ∉ before := by
  induction s generalizing before with
  | nil => cases h
  | cons c s ih =>
    rw [cut] at h
    split at h
    next he =>
      cases h
      exact ⟨by rw [he]; rfl, not_mem_nil⟩
    next hne =>
      rw [Option.map_eq_some_iff] at h
      obtain ⟨⟨before', after'⟩, hc, he⟩ := h
      cases he
      obtain ⟨hs, hn⟩ := ih hc
      refine ⟨by rw [hs]; rfl, ?_⟩
      rw [mem_cons, not_or]
      exact ⟨Ne.symm hne, hn⟩

theorem length_of_cut {before after : Text} (h : cut separator s = some (before, after)) :
    before.length + after.length + 1 = s.length := by
  rw [(eq_of_cut h).1, length_append, length_cons]
  omega

/-- The rest of a split is not longer than the string. -/
theorem length_splitWhile_le (s : Text) (p : UInt8 → Bool) :
    (splitWhile s p).2.length ≤ s.length := (dropWhile_sublist p).length_le

/-- The rest is shorter if something has been split off. -/
theorem length_splitWhile_lt {p : UInt8 → Bool} (h : (splitWhile s p).1 ≠ []) :
    (splitWhile s p).2.length < s.length := by
  have hle := congrArg List.length (takeWhile_append_dropWhile (p := p) (l := s))
  rw [length_append] at hle
  have hpo : 0 < (s.takeWhile p).length := length_pos_iff.mpr h
  show (s.dropWhile p).length < s.length
  omega

theorem length_split_le (s : Text) (separator : UInt8) :
    (split s separator).2.length ≤ s.length := by
  have h := (dropWhile_sublist (l := s) (· != separator)).length_le
  show ((s.dropWhile (· != separator)).drop 1).length ≤ s.length
  rw [length_drop]
  omega

theorem length_stripLeft_le (isWhitespace : UInt8 → Bool) (s : Text) :
    (stripLeft isWhitespace s).length ≤ s.length := (dropWhile_sublist isWhitespace).length_le

end Text
end BengProxy.Base
