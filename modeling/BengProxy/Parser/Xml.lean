import BengProxy.Base.Text
import Mathlib.Data.List.Induction

/-!
# Sections of an XML document

The states of `XmlParser::Feed`, `src/parser/XmlParser.cxx`, in which the parser looks for the end
of a `CDATA` section and of a comment. The handler accepts all character data, and what is reported
in several calls is put together.
-/

namespace BengProxy.Xml

open Base Text List

/-- `State::CDATA_SECTION` with `cdend_match`, `State::COMMENT` with `minus_count`, and
`State::NONE`. -/
inductive Section where
  | cdata (cdendMatch : Nat)
  | comment (minusCount : Nat)
  | none
  deriving DecidableEq, Repr

/-- One character, `XmlParser.cxx:376-488`, and the character data that was reported. -/
def Section.step (p : Section × Text) (ch : UInt8) : Section × Text :=
  match p with
  | (.cdata n, reported) =>
    if ch = 0x5d ∧ n < 2 then (.cdata (n + 1), reported)
    else if ch = 0x3e ∧ n = 2 then (.none, reported)
    -- a partial match is restored
    else (.cdata 0, reported ++ replicate n 0x5d ++ [ch])
  | (.comment n, reported) =>
    -- not consumed: it is character data in `State::NONE`
    if n = 2 ∧ ch = 0x3e then (.none, reported ++ [ch])
    else (.comment (if ch = 0x2d then min 2 (n + 1) else 0), reported)
  | (.none, reported) => (.none, reported)

/-- A section is fed in pieces. -/
def feedSection (s : Section) (pieces : List Text) : Section × Text :=
  pieces.foldl (foldl Section.step) (s, [])

/-- The section is left at the end of the pieces and not before, and this has been reported. -/
def EndsWith (s : Section) (pieces : List Text) (reported : Text) : Prop :=
  feedSection s pieces = (.none, reported) ∧
    ∀ front, front <+: pieces.flatten → front ≠ pieces.flatten → (feedSection s [front]).1 ≠ .none

/-- How often the character occurs at the end. -/
def trailing (ch : UInt8) (s : Text) : Nat := (s.reverse.takeWhile (· == ch)).length

private theorem trailing_concat (ch c : UInt8) (s : Text) :
    trailing ch (s ++ [c]) = if c = ch then trailing ch s + 1 else 0 := by
  by_cases hc : c = ch <;> simp [trailing, hc]

private theorem not_isInfix_of_concat {m data : Text} {ch : UInt8}
    (h : ¬ m <:+: data ++ [ch]) : ¬ m <:+: data :=
  fun hi => h (hi.trans (prefix_append data [ch]).isInfix)

private theorem feed_cdata {data : Text} (h : ¬ ascii "]]>" <:+: data) :
    ∃ reported, data.foldl Section.step (.cdata 0, []) =
        (.cdata (trailing 0x5d data % 3), reported) ∧
      reported ++ replicate (trailing 0x5d data % 3) 0x5d = data := by
  induction data using List.reverseRecOn with
  | nil => exact ⟨[], rfl, rfl⟩
  | append_singleton data ch ih =>
    obtain ⟨reported, hf, hr⟩ := ih (not_isInfix_of_concat h)
    rw [foldl_append, hf, trailing_concat]
    simp only [foldl_cons, Section.step]
    generalize hn : trailing 0x5d data % 3 = n at *
    by_cases hb : ch = 0x5d
    · by_cases h2 : n < 2
      · have ht : (trailing 0x5d data + 1) % 3 = n + 1 := by omega
        rw [if_pos ⟨hb, h2⟩, if_pos hb, ht]
        exact ⟨reported, rfl, by rw [replicate_succ', ← append_assoc, hr, hb]⟩
      · have ht : (trailing 0x5d data + 1) % 3 = 0 := by omega
        rw [if_neg (h2 ·.2), if_neg (by simp [hb]), if_pos hb, ht, hr]
        exact ⟨_, rfl, append_nil _⟩
    · have he : ¬ (ch = 0x3e ∧ n = 2) := by
        rintro ⟨rfl, rfl⟩
        exact h ⟨reported, [], by simp [← hr, ascii]⟩
      rw [if_neg (hb ·.1), if_neg he, if_neg hb, hr]
      exact ⟨_, rfl, append_nil _⟩

private theorem feed_comment {data : Text} (h : ¬ ascii "-->" <:+: data) :
    data.foldl Section.step (.comment 0, []) = (.comment (min 2 (trailing 0x2d data)), []) ∧
      ∃ front, front ++ replicate (min 2 (trailing 0x2d data)) 0x2d = data := by
  induction data using List.reverseRecOn with
  | nil => exact ⟨rfl, [], rfl⟩
  | append_singleton data ch ih =>
    obtain ⟨hf, front, hr⟩ := ih (not_isInfix_of_concat h)
    rw [foldl_append, hf, trailing_concat]
    simp only [foldl_cons, Section.step]
    have he : ¬ (min 2 (trailing 0x2d data) = 2 ∧ ch = 0x3e) := by
      rintro ⟨hm, rfl⟩
      rw [hm] at hr
      exact h ⟨front, [], by simp [← hr, ascii]⟩
    rw [if_neg he]
    by_cases hb : ch = 0x2d
    · rw [if_pos hb, if_pos hb]
      by_cases h2 : trailing 0x2d data < 2
      · have hm : min 2 (trailing 0x2d data + 1) = min 2 (trailing 0x2d data) + 1 := by omega
        rw [hm, Nat.min_eq_right (by omega)]
        exact ⟨rfl, front, by rw [replicate_succ', ← append_assoc, hr, hb]⟩
      · have hm : min 2 (trailing 0x2d data) = 2 := by omega
        rw [hm] at hr ⊢
        rw [Nat.min_eq_left (by omega), Nat.min_eq_left (by omega)]
        exact ⟨rfl, front ++ [0x2d], by simp [← hr, hb]⟩
    · rw [if_neg hb, if_neg hb]
      exact ⟨rfl, data ++ [ch], append_nil _⟩

private theorem endsWith_concat {s : Section} {data : Text} {ch : UInt8} {p : List Text}
    (hp : p.flatten = data ++ [ch])
    (hl : ∀ front, front <+: data → (front.foldl Section.step (s, [])).1 ≠ .none)
    (r : Text) :
    EndsWith s p r ↔
      Section.step (data.foldl Section.step (s, [])) ch = (.none, r) := by
  rw [EndsWith, feedSection, ← foldl_flatten, hp, foldl_append, foldl_cons]
  refine and_iff_left fun front hf hn => ?_
  rcases prefix_concat_iff.mp hf with he | hf
  · exact absurd he hn
  · exact hl front hf

/-- A `CDATA` section ends with the first `]]>`, and all before it is reported, exactly if the
number of brackets before the marker is a multiple of three. A comment ends with the first `-->`,
and the last character of the marker is reported. -/
theorem endsWith_iff (content : Text) (pieces : List Text) :
    (¬ ascii "]]>" <:+: content ++ ascii "]]" → pieces.flatten = content ++ ascii "]]>" →
      (EndsWith (.cdata 0) pieces content ↔ trailing 0x5d content % 3 = 0)) ∧
    (¬ ascii "-->" <:+: content ++ ascii "--" → pieces.flatten = content ++ ascii "-->" →
      ∀ reported, EndsWith (.comment 0) pieces reported ↔ reported = ascii ">") := by
  have ht (ch : UInt8) : trailing ch (content ++ [ch, ch]) = trailing ch content + 2 := by
    simp [trailing]
  constructor
  · intro hn hp
    obtain ⟨reported, hf, hr⟩ := feed_cdata hn
    rw [@endsWith_concat _ (content ++ ascii "]]") 0x3e _ (by simpa [ascii] using hp), hf]
    · have hm : trailing 0x5d (content ++ ascii "]]") = trailing 0x5d content + 2 := ht 0x5d
      rw [hm] at hr ⊢
      by_cases h0 : trailing 0x5d content % 3 = 0
      · have h2 : (trailing 0x5d content + 2) % 3 = 2 := by omega
        rw [h2] at hr
        simpa [Section.step, h2, h0, ascii] using append_left_injective _ hr
      · have h2 : (trailing 0x5d content + 2) % 3 ≠ 2 := by omega
        simp [Section.step, h2, h0]
    · intro front hfr
      obtain ⟨_, hx, -⟩ := feed_cdata fun hi => hn (hi.trans hfr.isInfix)
      rw [hx]
      nofun
  · intro hn hp reported
    obtain ⟨hf, -⟩ := feed_comment hn
    rw [@endsWith_concat _ (content ++ ascii "--") 0x3e _ (by simpa [ascii] using hp), hf]
    · have hm : trailing 0x2d (content ++ ascii "--") = trailing 0x2d content + 2 := ht 0x2d
      rw [hm]
      simpa [Section.step, ascii] using eq_comm
    · intro front hfr
      rw [(feed_comment fun hi => hn (hi.trans hfr.isInfix)).1]
      nofun

/-- Two pieces of a section without brackets. -/
theorem endsWith_plain : EndsWith (.cdata 0) [ascii "a]", ascii "]>"] (ascii "a") :=
  ((endsWith_iff (ascii "a") [ascii "a]", ascii "]>"]).1 (by decide) (by decide)).mpr (by decide)

/-- With one more bracket, the section goes on after the marker; and the end of the marker of a
comment is reported. -/
theorem endsWith_bracket :
    feedSection (.cdata 0) [ascii "a]]]>b"] = (.cdata 0, ascii "a]]]>b") ∧
      feedSection (.comment 0) [ascii "a-->"] = (.none, ascii ">") := by
  decide

end BengProxy.Xml
