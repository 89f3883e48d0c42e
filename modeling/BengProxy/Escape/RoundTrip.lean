import BengProxy.Escape.Class

/-!
# Escaping and unescaping

Unescaping is the inverse of escaping, and it never makes a string longer: no turn of its loop
writes more than it has read. The size of an escaped HTML string is what `html_escape_size()`
returns; `css_escape_size()` does not return unless the string is empty.
-/

namespace BengProxy.Escape

open Base Text List Option

private theorem cssUnescape_cons {c : UInt8} (h : c ≠ 0x5c) (p : Text) :
    cssUnescape (c :: p) = c :: cssUnescape p := by
  have hc := cut_cons h p
  conv => lhs; unfold cssUnescape
  conv => rhs; unfold cssUnescape
  cases hp : cut 0x5c p with
  | none =>
    rw [hp] at hc
    split
    · rfl
    next he => rw [hc] at he; cases he
    next he => rw [hc] at he; cases he
  | some parts =>
    obtain ⟨before, after⟩ := parts
    rw [hp] at hc
    split
    next he => rw [hc] at he; cases he
    next he =>
      rw [hc] at he
      cases he
      rfl
    next he =>
      rw [hc] at he
      cases he
      simp only
      split
      · rfl
      · rfl

private theorem cssUnescape_escaped {c : UInt8} (h : needSimpleEscape c = true) (p : Text) :
    cssUnescape (0x5c :: c :: p) = c :: cssUnescape p := by
  have hc : cut 0x5c (0x5c :: c :: p) = some ([], c :: p) := if_pos rfl
  conv => lhs; unfold cssUnescape
  split
  next he => rw [hc] at he; cases he
  next he => rw [hc] at he; cases he
  next he =>
    cases he
    rw [if_pos h]
    rfl

/-- Unescaping is the inverse of escaping in style sheets. -/
theorem cssUnescape_cssEscape (s : Text) : cssUnescape (cssEscape s) = s := by
  induction s with
  | nil =>
    unfold cssUnescape
    rfl
  | cons c s ih =>
    rw [cssEscape]
    split
    next h => rw [cssUnescape_escaped h, ih]
    next h =>
      have hne : c ≠ 0x5c := by
        rintro rfl
        exact h rfl
      rw [cssUnescape_cons hne, ih]

/-- Unescaping does not write more than it reads. -/
theorem length_cssUnescape_le (p : Text) : (cssUnescape p).length ≤ p.length := by
  fun_induction cssUnescape p with
  | case1 p => exact Nat.le_refl _
  | case2 p before h =>
    have hle := length_of_cut h
    rw [length_append, length_singleton]
    omega
  | case3 p before ch rest h he ih =>
    have hle := length_of_cut h
    rw [length_append, length_cons]
    rw [length_cons] at hle
    omega
  | case4 p before ch rest h he ih =>
    have hle := length_of_cut h
    rw [length_append, length_cons]
    omega

/-- The pointer is never advanced. -/
theorem cssEscapeSize_cons (turns : Nat) (c : UInt8) (p : Text) :
    cssEscapeSize turns (c :: p) = none := by
  have hlo : ∀ turns size, cssEscapeSizeLoop turns (c :: p) size = none := by
    intro turns
    induction turns with
    | zero => exact fun _ => rfl
    | succ turns ih => exact fun size => ih _
  exact hlo turns 0

variable (lib : Utf8Lib)

private theorem htmlUnescape_eq (src : Text) :
    htmlUnescape lib src = match cut 0x26 src with
      | none => src
      | some (before, after) =>
        match firstEntity lib after with
        | none => before ++ 0x26 :: htmlUnescape lib after
        | some (text, rest) => before ++ text ++ htmlUnescape lib rest := by
  conv => lhs; unfold htmlUnescape
  split
  next hc => rw [hc]
  next hc =>
    rw [hc]
    simp only
    split
    next he => rw [he]
    next he => rw [he]

private theorem htmlUnescape_cons {c : UInt8} (h : c ≠ 0x26) (p : Text) :
    htmlUnescape lib (c :: p) = c :: htmlUnescape lib p := by
  rw [htmlUnescape_eq, htmlUnescape_eq lib p, cut_cons h]
  cases cut 0x26 p with
  | none => rfl
  | some parts =>
    simp only [map_some]
    cases firstEntity lib parts.2 with
    | none | some next => rfl

private theorem htmlUnescape_amp {lib : Utf8Lib} {e : Text} (h : 0x3b ∉ e) (p : Text) :
    htmlUnescape lib (0x26 :: (e ++ 0x3b :: p)) = match htmlEntity lib e with
      | none => 0x26 :: htmlUnescape lib (e ++ 0x3b :: p)
      | some text => text ++ htmlUnescape lib p := by
  rw [htmlUnescape_eq, cut, if_pos rfl]
  simp only [firstEntity, cut_append h]
  cases htmlEntity lib e with
  | none | some text => rfl

private theorem htmlUnescape_named (e en : Text) (c : UInt8)
    (h : 0x3b ∉ en) (hc : htmlEntity lib en = some [c])
    (he : e = 0x26 :: (en ++ [0x3b])) (p : Text) :
    htmlUnescape lib (e ++ p) = c :: htmlUnescape lib p := by
  have hap : e ++ p = 0x26 :: (en ++ 0x3b :: p) := by
    rw [he, cons_append, append_assoc, singleton_append]
  rw [hap, htmlUnescape_amp h, hc]
  rfl

/-- Unescaping is the inverse of escaping in HTML. -/
theorem htmlUnescape_htmlEscape (s : Text) : htmlUnescape lib (htmlEscape s) = s := by
  induction s with
  | nil =>
    unfold htmlUnescape
    rfl
  | cons c s ih =>
    rw [htmlEscape]
    split
    next h =>
      rw [htmlUnescape_named lib (ascii "&amp;") (ascii "amp") 0x26
        (by decide) rfl rfl, ih, h]
    next ham =>
      split
      next h =>
        rw [htmlUnescape_named lib (ascii "&quot;") (ascii "quot") 0x22
          (by decide) rfl rfl, ih, h]
      split
      next h =>
        rw [htmlUnescape_named lib (ascii "&apos;") (ascii "apos") 0x27
          (by decide) rfl rfl, ih, h]
      split
      next h =>
        rw [htmlUnescape_named lib (ascii "&lt;") (ascii "lt") 0x3c
          (by decide) rfl rfl, ih, h]
      split
      next h =>
        rw [htmlUnescape_named lib (ascii "&gt;") (ascii "gt") 0x3e
          (by decide) rfl rfl, ih, h]
      rw [singleton_append, htmlUnescape_cons lib ham, ih]

private theorem length_htmlEntity_le {lib : Utf8Lib} {e text : Text}
    (h : htmlEntity lib e = some text) : text.length ≤ e.length + 2 := by
  -- each of the names stands for one character
  have ho : ∀ {s : Text}, s.length = 1 → some s = some text → text.length ≤ e.length + 2 := by
    intro s hs he
    rw [← some.inj he]
    omega
  unfold htmlEntity at h
  split at h
  · exact ho (by decide) h
  split at h
  · exact ho (by decide) h
  split at h
  · exact ho (by decide) h
  split at h
  · exact ho (by decide) h
  split at h
  · exact ho (by decide) h
  split at h
  next number =>
    rw [numericEntity] at h
    obtain ⟨hne, h⟩ := ite_none_left_eq_some.mp h
    -- at least one digit, and the characters that mark a numeric entity
    have hpo := length_pos_iff.mpr hne
    simp only at h
    obtain ⟨hv, h⟩ := ite_none_left_eq_some.mp h
    rw [not_or, not_or, Nat.not_lt] at hv
    have hle := lib.length_le _ hv.2.1
    rw [some.inj h] at hle
    rw [length_cons]
    omega
  · cases h

/-- Unescaping does not write more than it reads. -/
theorem length_htmlUnescape_le (src : Text) : (htmlUnescape lib src).length ≤ src.length := by
  fun_induction htmlUnescape lib src with
  | case1 src => exact Nat.le_refl _
  | case2 src before after h _ ih =>
    have hl := length_of_cut h
    rw [length_append, length_cons]
    omega
  | case3 src before after h text rest h' ih =>
    obtain ⟨entity, hc, ht⟩ := exists_of_firstEntity h'
    have hb := length_of_cut h
    have he := length_of_cut hc
    have hle := length_htmlEntity_le ht
    rw [length_append, length_append]
    omega

/-- The size is what is written. -/
theorem htmlEscapeSize_eq (s : Text) : htmlEscapeSize s = (htmlEscape s).length := by
  induction s with
  | nil => rfl
  | cons c s ih =>
    rw [htmlEscapeSize, htmlEscape, length_append]
    congr 1
    by_cases ham : c = 0x26
    · rw [if_pos ham, if_pos ham]
      decide
    rw [if_neg ham, if_neg ham]
    by_cases hq : c = 0x22
    · rw [if_pos (.inl hq), if_pos hq]
      decide
    by_cases hap : c = 0x27
    · rw [if_pos (.inr hap), if_neg hq, if_pos hap]
      decide
    rw [if_neg (not_or.mpr ⟨hq, hap⟩), if_neg hq, if_neg hap]
    by_cases hlt : c = 0x3c
    · rw [if_pos (.inl hlt), if_pos hlt]
      decide
    by_cases hg : c = 0x3e
    · rw [if_pos (.inr hg), if_neg hlt, if_pos hg]
      decide
    · rw [if_neg (not_or.mpr ⟨hlt, hg⟩), if_neg hlt, if_neg hg]
      rfl

/-- The value of a string of hexadecimal digits. -/
def hexDigitsValue (digits : Text) : Nat :=
  digits.foldl (fun v ch => v * 0x10 + (parseHexDigit ch).getD 0) 0

/-- The number that a reference denotes, without `&#` and the semicolon. -/
def numericValue : Text → Option Nat
  | 0x78 :: digits =>
    if digits.all fun ch => (parseHexDigit ch).isSome then some (hexDigitsValue digits) else none
  | digits => if digits.all isDigit then some (digitsValue digits) else none

private theorem parseDecimal_eq {s : Text} (h : s.all isDigit = true) (v : Nat) :
    parseDecimal (v % 2 ^ 32) s =
      (s.foldl (fun v ch => 10 * v + (ch.toNat - 0x30)) v % 2 ^ 32, []) := by
  induction s generalizing v with
  | nil => rfl
  | cons c s ih =>
    rw [all_cons, Bool.and_eq_true] at h
    rw [parseDecimal, if_pos h.1, foldl_cons, ← ih h.2]
    congr 1
    omega

private theorem parseHex_eq {s : Text} (h : s.all (fun ch => (parseHexDigit ch).isSome) = true)
    (v : Nat) :
    parseHex (v % 2 ^ 32) s =
      (s.foldl (fun v ch => v * 0x10 + (parseHexDigit ch).getD 0) v % 2 ^ 32, []) := by
  induction s generalizing v with
  | nil => rfl
  | cons c s ih =>
    rw [all_cons, Bool.and_eq_true, isSome_iff_exists] at h
    obtain ⟨⟨d, hd⟩, hs⟩ := h
    simp only [parseHex, hd, foldl_cons, getD_some]
    rw [← ih hs]
    congr 1
    omega

private theorem htmlUnescape_append {s : Text} (h : 0x26 ∉ s) (p : Text) :
    htmlUnescape lib (s ++ p) = s ++ htmlUnescape lib p := by
  induction s with
  | nil => rfl
  | cons c s ih =>
    rw [mem_cons, not_or] at h
    rw [cons_append, htmlUnescape_cons lib (Ne.symm h.1), ih h.2, cons_append]

private theorem numericValue_spec {e : Text} {v : Nat} (h : numericValue e = some v) :
    parseNumericEntity e = (v % 2 ^ 32, []) ∧ 0x3b ∉ e ∧ 0x26 ∉ e ∧
      (e.length ≤ 1 → v < 256) := by
  unfold numericValue at h
  split at h
  next digits =>
    obtain ⟨hal, h⟩ := ite_none_right_eq_some.mp h
    cases h
    refine ⟨parseHex_eq hal 0, ?_, ?_, fun hle => ?_⟩
    · simpa using fun hm => absurd (all_eq_true.mp hal _ hm) (by decide)
    · simpa using fun hm => absurd (all_eq_true.mp hal _ hm) (by decide)
    · rw [eq_nil_of_length_eq_zero (Nat.le_zero.mp (Nat.le_of_succ_le_succ hle))]
      decide
  next digits hx =>
    obtain ⟨hal, h⟩ := ite_none_right_eq_some.mp h
    cases h
    refine ⟨?_, ?_, ?_, fun hle => ?_⟩
    · rw [parseNumericEntity.eq_2 _ hx]
      exact parseDecimal_eq hal 0
    · exact fun hm => absurd (all_eq_true.mp hal _ hm) (by decide)
    · exact fun hm => absurd (all_eq_true.mp hal _ hm) (by decide)
    · cases e with
      | nil => decide
      | cons c s =>
        rw [eq_nil_of_length_eq_zero (Nat.le_zero.mp (Nat.le_of_succ_le_succ hle))]
        have hc := c.toNat_lt
        simp only [digitsValue, foldl_cons, foldl_nil]
        omega

/-- A numeric reference is decoded exactly if its value is that of a character, and left as it is
otherwise, unless the value exceeds a word and becomes that of a character when it is cut off. -/
theorem numericReference_iff {entity : Text} {v : Nat} (h : numericValue entity = some v)
    (p : Text) :
    htmlUnescape lib (ascii "&#" ++ entity ++ ascii ";" ++ p) =
        (if 1 ≤ v ∧ v ≤ 0x10ffff then lib.unicodeToUTF8 v
          else ascii "&#" ++ entity ++ ascii ";") ++ htmlUnescape lib p ↔
      ¬(2 ^ 32 ≤ v ∧ 1 ≤ v % 2 ^ 32 ∧ v % 2 ^ 32 ≤ 0x10ffff) := by
  obtain ⟨hp, hse, ham, hlen⟩ := numericValue_spec h
  have hsr : ascii "&#" ++ entity ++ ascii ";" ++ p = 0x26 :: (0x23 :: entity ++ 0x3b :: p) := by
    simp [ascii]
  have he : htmlEntity lib (0x23 :: entity) =
      if 1 ≤ v % 2 ^ 32 ∧ v % 2 ^ 32 ≤ 0x10ffff then some (lib.unicodeToUTF8 (v % 2 ^ 32))
      else none := by
    have hnu : htmlEntity lib (0x23 :: entity) = numericEntity lib entity := rfl
    rw [hnu, numericEntity, hp]
    split
    next hni =>
      rw [hni] at hp
      rw [if_neg fun hm => absurd (congrArg Prod.fst hp) (Nat.ne_of_lt hm.1)]
    · simp only
      split
      next hm => rw [if_neg (by simp only [ne_eq, not_true_eq_false, or_false] at hm; omega)]
      next hm => rw [if_pos (by simp only [ne_eq, not_true_eq_false] at hm; omega)]
  rw [hsr, htmlUnescape_amp (by simpa using hse), he]
  by_cases hm : 1 ≤ v % 2 ^ 32 ∧ v % 2 ^ 32 ≤ 0x10ffff
  · rw [if_pos hm]
    by_cases hv : v < 2 ^ 32
    · rw [Nat.mod_eq_of_lt hv] at hm ⊢
      rw [if_pos hm]
      exact iff_of_true rfl (by omega)
    -- the value has been cut off, and what is written is shorter than the reference
    rw [if_neg (by omega), append_left_inj]
    refine iff_of_false (fun heq => ?_) (not_not.mpr ⟨by omega, hm⟩)
    have hle := lib.length_le _ hm.2
    rw [heq] at hle
    simp [ascii] at hle
    omega
  · rw [if_neg hm]
    have hv : ¬(1 ≤ v ∧ v ≤ 0x10ffff) := fun hv => hm (by rwa [Nat.mod_eq_of_lt (by omega)])
    rw [if_neg hv, htmlUnescape_append lib (by simpa using ham), htmlUnescape_cons lib (by decide)]
    exact iff_of_true (by simp [ascii]) fun hx => hm hx.2

/-- A library for examples, for ASCII. -/
def asciiLib : Utf8Lib where
  unicodeToUTF8 value := [UInt8.ofNat value]
  length_le _ _ := Nat.le_add_left 1 3

/-- A reference to a capital letter. -/
theorem numericReference_letter :
    htmlUnescape asciiLib (ascii "&#" ++ ascii "65" ++ ascii ";" ++ []) =
      ascii "A" ++ htmlUnescape asciiLib [] :=
  (@numericReference_iff asciiLib (ascii "65") 65 rfl []).mpr (by decide)

/-- The value `2 ^ 32 + 65` is taken for that of the same letter. -/
theorem numericReference_wraps : numericValue (ascii "4294967361") = some (2 ^ 32 + 65) ∧
    htmlUnescape asciiLib (ascii "&#4294967361;") = ascii "A" := by
  decide +kernel

end BengProxy.Escape
