import BengProxy.Base.Number
import Mathlib.Data.Nat.Digits.Lemmas

/-!
# Escaped strings

Percent encoding of byte strings, and how a string can be read back from the beginning of a longer
one: up to the first character that cannot be a part of it. Decimal numbers are written so, too.
-/

namespace BengProxy.Base.Text

open List

variable {c : UInt8}

/-- Two strings that are followed by something else agree if the whole agrees. -/
theorem append_cons_inj {p : UInt8 → Bool} {s s' t t' : Text} {c' : UInt8}
    (hs : ∀ x ∈ s, p x = true) (hs' : ∀ x ∈ s', p x = true) (hc : p c = false)
    (hc' : p c' = false) (h : s ++ c :: t = s' ++ c' :: t') : s = s' ∧ c = c' ∧ t = t' := by
  have ht : ∀ {s t : Text} {c : UInt8}, (∀ x ∈ s, p x = true) → p c = false →
      (s ++ c :: t).takeWhile p = s := by
    intro s t c hs hc
    rw [takeWhile_append_of_pos hs, takeWhile_cons_of_neg (by rw [hc]; decide), append_nil]
  have he : s = s' := by rw [← ht (t := t) hs hc, h, ht hs' hc']
  rw [he] at h
  exact ⟨he, cons.inj (append_cancel_left h)⟩

/-- Two strings with the same number of delimiters that are followed by one agree if the whole
agrees. -/
theorem append_delimiter_inj {s s' t t' : Text} (hc : s.count c = s'.count c)
    (h : s ++ c :: t = s' ++ c :: t') : s = s' ∧ t = t' := by
  induction s generalizing s' with
  | nil =>
    cases s' with
    | nil => exact ⟨rfl, (cons.inj h).2⟩
    | cons x s' =>
      -- the delimiter would be the first character of the other string
      rw [← (cons.inj h).1, count_cons_self, count_nil] at hc
      omega
  | cons x s ih =>
    cases s' with
    | nil =>
      rw [(cons.inj h).1, count_cons_self, count_nil] at hc
      omega
    | cons x' s' =>
      have hx : x = x' := (cons.inj h).1
      have hr : s ++ c :: t = s' ++ c :: t' := (cons.inj h).2
      rw [hx, count_cons, count_cons] at hc
      have hag := ih (Nat.add_right_cancel hc) hr
      exact ⟨by rw [hx, hag.1], hag.2⟩

/-- What follows after the characters that satisfy the predicate. -/
theorem dropWhile_append_cons {p : UInt8 → Bool} {s t : Text} (hs : ∀ x ∈ s, p x = true)
    (hc : p c = false) : (s ++ c :: t).dropWhile p = c :: t := by
  rw [dropWhile_append_of_pos hs, dropWhile_cons_of_neg (by rw [hc]; decide)]

/-- What follows begins with a character before the delimiter, or with the delimiter. -/
theorem mem_of_dropWhile_append_cons {p : UInt8 → Bool} {s t rest : Text} {d : UInt8}
    (hc : p c = false) (h : (s ++ c :: t).dropWhile p = d :: rest) : d ∈ s ∨ d = c := by
  induction s with
  | nil =>
    rw [nil_append, dropWhile_cons_of_neg (by rw [hc]; decide)] at h
    exact .inr (cons.inj h).1.symm
  | cons x s ih =>
    rw [cons_append, dropWhile_cons] at h
    split at h
    · exact (ih h).imp_left (mem_cons_of_mem x)
    · rw [← (cons.inj h).1]
      exact .inl mem_cons_self

/-- All bytes can be enumerated. -/
theorem forall_byte {P : UInt8 → Prop} (h : ∀ n < 256, P (UInt8.ofNat n)) (c : UInt8) : P c := by
  rw [← UInt8.ofNat_toNat (x := c)]
  exact h c.toNat (UInt8.toNat_lt c)

/-- A number in decimal notation. -/
def formatDecimal (n : Nat) : Text :=
  if n = 0 then [0x30] else (Nat.digits 10 n).reverse.map fun d => UInt8.ofNat (0x30 + d)

theorem isDigit_of_mem_formatDecimal {n : Nat} (h : c ∈ formatDecimal n) :
    isDigit c = true := by
  have hdi : ∀ d < 10, isDigit (UInt8.ofNat (0x30 + d)) = true := by decide
  unfold formatDecimal at h
  split at h
  · rw [mem_singleton.mp h]
    decide
  · obtain ⟨d, hd, rfl⟩ := mem_map.mp h
    exact hdi d (Nat.digits_lt_base (by omega) (mem_reverse.mp hd))

theorem formatDecimal_inj {n m : Nat} (hn : n ≠ 0) (hm : m ≠ 0)
    (h : formatDecimal n = formatDecimal m) : n = m := by
  have hv : ∀ d < 10, (UInt8.ofNat (0x30 + d)).toNat - 0x30 = d := by decide
  have hdi : ∀ {n : Nat}, n ≠ 0 →
      (formatDecimal n).map (fun c => c.toNat - 0x30) = (Nat.digits 10 n).reverse := by
    intro n hn
    rw [formatDecimal, if_neg hn, map_map]
    conv_rhs => rw [← map_id (Nat.digits 10 n).reverse]
    apply map_congr_left
    intro d hd
    exact hv d (Nat.digits_lt_base (by omega) (mem_reverse.mp hd))
  apply Nat.digits_inj_iff.mp
  apply reverse_injective
  rw [← hdi hn, h, hdi hm]

/-- The characters that are not escaped. -/
def isUnreserved (c : UInt8) : Bool :=
  (0x30 ≤ c && c ≤ 0x39) || (0x41 ≤ c && c ≤ 0x5a) || (0x61 ≤ c && c ≤ 0x7a) || c == 0x2d ||
    c == 0x2e || c == 0x5f || c == 0x7e

/-- The characters of escaped strings. -/
def isEscaped (c : UInt8) : Bool := isUnreserved c || c == 0x25

/-- An escape function: it loses nothing, and its results have only these characters. -/
structure UriEscape where
  escape : Text → Text
  injective : Function.Injective escape
  isEscaped_of_mem : ∀ {s c}, c ∈ escape s → isEscaped c = true

/-- A hexadecimal digit. -/
def hexDigit (n : UInt8) : UInt8 := if n < 10 then 0x30 + n else 0x37 + n

/-- One character. -/
def percentChar (c : UInt8) : Text :=
  if isUnreserved c then [c] else [0x25, hexDigit (c / 16), hexDigit (c % 16)]

/-- All of them. -/
def percentEscape (s : Text) : Text := s.flatMap percentChar

/-- The character that two hexadecimal digits denote. -/
def hexValue (high low : UInt8) : UInt8 :=
  let value (c : UInt8) := if c < 0x3a then c - 0x30 else c - 0x37
  16 * value high + value low

theorem hexValue_hexDigits (c : UInt8) : hexValue (hexDigit (c / 16)) (hexDigit (c % 16)) = c := by
  apply forall_byte (P := fun c => hexValue (hexDigit (c / 16)) (hexDigit (c % 16)) = c)
  decide +kernel

theorem percentChar_ne_nil (c : UInt8) : percentChar c ≠ [] := by
  unfold percentChar
  split <;> exact cons_ne_nil _ _

theorem percentChar_append_inj {c' : UInt8} {t t' : Text}
    (h : percentChar c ++ t = percentChar c' ++ t') : c = c' ∧ t = t' := by
  have hu : isUnreserved 0x25 = false := by decide
  unfold percentChar at h
  split at h <;> split at h
  · exact cons.inj h
  next hc _ =>
    have he : c = 0x25 := (cons.inj h).1
    rw [he, hu] at hc
    cases hc
  next _ hc' =>
    have he : c' = 0x25 := (cons.inj h).1.symm
    rw [he, hu] at hc'
    cases hc'
  · obtain ⟨-, h⟩ := cons.inj h
    obtain ⟨hh, h⟩ := cons.inj h
    obtain ⟨hlo, h⟩ := cons.inj h
    exact ⟨by rw [← hexValue_hexDigits c, hh, hlo, hexValue_hexDigits], h⟩

theorem percentEscape_injective : Function.Injective percentEscape := by
  intro s
  induction s with
  | nil =>
    intro s' h
    cases s' with
    | nil => rfl
    | cons c' s' => exact absurd (append_eq_nil_iff.mp h.symm).1 (percentChar_ne_nil c')
  | cons c s ih =>
    intro s' h
    cases s' with
    | nil => exact absurd (append_eq_nil_iff.mp h).1 (percentChar_ne_nil c)
    | cons c' s' =>
      obtain ⟨rfl, he⟩ := percentChar_append_inj h
      rw [ih he]

theorem isEscaped_of_mem_percentChar {x : UInt8} (h : c ∈ percentChar x) :
    isEscaped c = true := by
  apply forall_byte (P := fun x => ∀ c ∈ percentChar x, isEscaped c = true) _ x c h
  decide +kernel

/-- Percent encoding. -/
def UriEscape.percent : UriEscape where
  escape := percentEscape
  injective := percentEscape_injective
  isEscaped_of_mem := by
    intro s c h
    obtain ⟨x, -, hc⟩ := mem_flatMap.mp h
    exact isEscaped_of_mem_percentChar hc

end BengProxy.Base.Text
