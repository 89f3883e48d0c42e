import BengProxy.Escape.Class

/-!
# Finding an escaped suffix

Models `UriFindUnescapedSuffix()`, `src/uri/Compare.cxx`, which compares the end of a string with a
percent-escaped suffix without unescaping it: both are scanned from the right, and an escape is
recognised by the `'%'` two characters to the left. Here, what is before an iterator is the list of
these characters in the order in which the iterator will reach them.

The scan is compared with a decoder that reads from left to right.
-/

namespace BengProxy.Uri

open Base Text Escape List Option

/-- The character `'%'`. -/
abbrev percent : UInt8 := 0x25

/-- What one iteration takes from the suffix: a character that stands for itself, or an escape with
its two digits. -/
inductive Piece where
  | literal (ch : UInt8)
  | escape (digit2 digit1 : Nat)
  deriving DecidableEq, Repr

/-- The character that is compared, `Compare.cxx:28`, `45`. -/
def Piece.suffixCh : Piece → UInt8
  | .literal ch => ch
  | .escape digit2 digit1 => UInt8.ofNat (digit2 <<< 4 ||| digit1)

/-- The last piece of the suffix and what is before it, `Compare.cxx:26-46`; missing if it
is malformed. -/
def takePiece : Text → Option (Piece × Text)
  | [] => none
  | ch :: suffix =>
    if ch = percent then none
    else
      match suffix with
      | ch2 :: 0x25 :: before =>
        match parseHexDigit ch, parseHexDigit ch2 with
        | some digit1, some digit2 => some (.escape digit2 digit1, before)
        | _, _ => none
      | _ => some (.literal ch, suffix)

/-- The loop, `Compare.cxx:15-52`: where the match begins. -/
def findUnescapedSuffixLoop : (uri suffix : Text) → Option Nat
  | uri, [] => some uri.length
  | [], _ :: _ => none
  | ch :: uri, suffix =>
    match takePiece suffix with
    | none => none
    | some (piece, suffix) =>
      if ch = piece.suffixCh then findUnescapedSuffixLoop uri suffix else none

/-- `UriFindUnescapedSuffix()`, `Compare.cxx:8-53`; the pointer is given by its offset. -/
def uriFindUnescapedSuffix (uri suffix : Text) : Option Nat :=
  findUnescapedSuffixLoop uri.reverse suffix.reverse

private theorem takePiece_lt {su b : Text} {p : Piece}
    (h : takePiece su = some (p, b)) : b.length < su.length := by
  unfold takePiece at h
  split at h
  · cases h
  next ch su =>
    split at h
    · cases h
    split at h
    next ch2 before' =>
      split at h
      · cases h
        simp only [length_cons]
        omega
      · cases h
    · cases h
      exact Nat.lt_succ_self _

/-- The pieces that the iterations take from a suffix, the last one first; missing if one of them
is malformed. -/
def takePieces (suffix : Text) : Option (List Piece) :=
  if suffix = [] then some []
  else
    match _h : takePiece suffix with
    | none => none
    | some (piece, before) => (takePieces before).map (piece :: ·)
termination_by suffix.length
decreasing_by exact takePiece_lt _h

/-- The pieces of a string, from left to right; missing if it is malformed. -/
def pieces : Text → Option (List Piece)
  | [] => some []
  | ch :: s =>
    if ch = percent then
      match s with
      | ch2 :: ch1 :: rest =>
        match parseHexDigit ch2, parseHexDigit ch1 with
        | some digit2, some digit1 => (pieces rest).map (.escape digit2 digit1 :: ·)
        | _, _ => none
      | _ => none
    else (pieces s).map (.literal ch :: ·)

/-- The string that is denoted by a percent-escaped one. -/
def unescaped (s : Text) : Option Text := (pieces s).map fun ps => ps.map Piece.suffixCh

/-- Every `'%'` is followed by two hexadecimal digits. -/
def WellEscaped (s : Text) : Prop :=
  ∀ before rest, s = before ++ percent :: rest →
    ∃ ch2 ch1 behind, rest = ch2 :: ch1 :: behind ∧
      (parseHexDigit ch2).isSome = true ∧ (parseHexDigit ch1).isSome = true

/-- The pieces that spell a string. -/
inductive Spells : Text → List Piece → Prop
  | nil : Spells [] []
  | literal {ch : UInt8} {s : Text} {ps : List Piece} (hch : ch ≠ percent) (h : Spells s ps) :
      Spells (ch :: s) (.literal ch :: ps)
  | escape {ch2 ch1 : UInt8} {digit2 digit1 : Nat} {s : Text} {ps : List Piece}
      (h2 : parseHexDigit ch2 = some digit2) (h1 : parseHexDigit ch1 = some digit1)
      (h : Spells s ps) : Spells (percent :: ch2 :: ch1 :: s) (.escape digit2 digit1 :: ps)

variable {s t : Text} {ps qs : List Piece}

private theorem parseHexDigit_ne {ch : UInt8} {d : Nat} (h : parseHexDigit ch = some d) :
    ch ≠ percent := by
  rintro rfl
  cases h

private theorem Spells.append (h : Spells s ps) (ht : Spells t qs) : Spells (s ++ t)
    (ps ++ qs) := by
  induction h with
  | nil => exact ht
  | literal hch _ ih => exact .literal hch ih
  | escape h2 h1 _ ih => exact .escape h2 h1 ih

private theorem Spells.exists_concat {p : Piece} (h : Spells s (ps ++ [p])) :
    ∃ before last, s = before ++ last ∧ Spells before ps ∧ Spells last [p] := by
  induction ps generalizing s with
  | nil => exact ⟨[], s, rfl, .nil, h⟩
  | cons q ps ih =>
    cases h with
    | @literal ch s _ hch h =>
      obtain ⟨before, last, rfl, hb, hla⟩ := ih h
      exact ⟨ch :: before, last, rfl, .literal hch hb, hla⟩
    | @escape ch2 ch1 _ _ s _ h2 h1 h =>
      obtain ⟨before, last, rfl, hb, hla⟩ := ih h
      exact ⟨percent :: ch2 :: ch1 :: before, last, rfl, .escape h2 h1 hb, hla⟩

private theorem Spells.wellEscaped (h : Spells s ps) : WellEscaped s := by
  induction h with
  | nil =>
    intro before rest he
    cases before <;> cases he
  | @literal ch s ps hch _ ih =>
    intro before rest he
    cases before with
    | nil =>
      cases he
      exact absurd rfl hch
    | cons c before =>
      cases he
      exact ih before rest rfl
  | @escape ch2 ch1 _ _ s ps h2 h1 _ ih =>
    -- the '%' is the one of this escape, or behind it: the digits are none
    intro before rest he
    rcases before with _ | ⟨c, _ | ⟨c2, _ | ⟨c1, before⟩⟩⟩
    · cases he
      exact ⟨ch2, ch1, s, rfl, isSome_iff_exists.mpr ⟨_, h2⟩, isSome_iff_exists.mpr ⟨_, h1⟩⟩
    · cases he
      exact absurd rfl (parseHexDigit_ne h2)
    · cases he
      exact absurd rfl (parseHexDigit_ne h1)
    · cases he
      exact ih before rest rfl

private theorem pieces_eq_some_iff (s : Text) (ps : List Piece) :
    pieces s = some ps ↔ Spells s ps := by
  constructor
  · intro h
    fun_induction pieces s generalizing ps with
    | case1 =>
      cases h
      exact .nil
    | case2 ch2 ch1 rest digit2 digit1 h1 h2 ih =>
      rw [map_eq_some_iff] at h
      obtain ⟨qs, hq, rfl⟩ := h
      exact .escape h2 h1 (ih qs hq)
    | case3 => cases h
    | case4 => cases h
    | case5 ch s hch ih =>
      rw [map_eq_some_iff] at h
      obtain ⟨qs, hq, rfl⟩ := h
      exact .literal hch (ih qs hq)
  · intro h
    induction h with
    | nil => rw [pieces]
    | literal hch _ ih =>
      unfold pieces
      rw [if_neg hch, ih, map_some]
    | escape h2 h1 _ ih => simp only [pieces, if_true, h2, h1, ih, map_some]

private theorem WellEscaped.exists_spells (h : WellEscaped s) : ∃ ps, Spells s ps := by
  induction hn : s.length using Nat.strongRecOn generalizing s with
  | ind n ih =>
    have ht {front s' : Text} (hs : s = front ++ s') : WellEscaped s' := by
      intro before rest he
      apply h (front ++ before) rest
      rw [hs, he, append_assoc]
    cases s with
    | nil => exact ⟨[], .nil⟩
    | cons ch s =>
      by_cases hch : ch = percent
      · subst hch
        obtain ⟨ch2, ch1, rest, rfl, h2, h1⟩ := h [] s rfl
        obtain ⟨digit2, h2⟩ := isSome_iff_exists.mp h2
        obtain ⟨digit1, h1⟩ := isSome_iff_exists.mp h1
        obtain ⟨ps, hps⟩ := ih rest.length (by simp only [← hn, length_cons]; omega)
          (@ht [percent, ch2, ch1] rest rfl) rfl
        exact ⟨_, .escape h2 h1 hps⟩
      · obtain ⟨ps, hps⟩ := ih s.length (by simp only [← hn, length_cons]; omega)
          (@ht [ch] s rfl) rfl
        exact ⟨_, .literal hch hps⟩

private theorem spells_of_takePiece {b : Text} {p : Piece}
    (h : takePiece s = some (p, b)) :
    ∃ last, s.reverse = b.reverse ++ last ∧ Spells last [p] := by
  unfold takePiece at h
  split at h
  · cases h
  next ch s =>
    split at h
    · cases h
    next hch =>
      split at h
      next ch2 before' =>
        split at h
        next digit1 digit2 h1 h2 =>
          cases h
          exact ⟨[percent, ch2, ch], by simp, .escape h2 h1 .nil⟩
        · cases h
      · cases h
        exact ⟨[ch], by simp, .literal hch .nil⟩

private theorem takePiece_of_spells {b last : Text} {p : Piece} (h : Spells b ps)
    (hla : Spells last [p]) :
    takePiece (last.reverse ++ b.reverse) = some (p, b.reverse) := by
  cases hla with
  | @literal ch _ _ hch hni =>
    cases hni
    rw [reverse_singleton, singleton_append]
    unfold takePiece
    simp only [hch, if_false]
    split
    next ch2 front he =>
      have hb : b = front.reverse ++ percent :: [ch2] := by
        rw [← reverse_reverse b, he]
        simp
      obtain ⟨_, _, _, hd, -⟩ := h.wellEscaped front.reverse [ch2] hb
      cases hd
    · rfl
  | @escape ch2 ch1 _ _ _ _ h2 h1 hni =>
    cases hni
    have hre : [percent, ch2, ch1].reverse ++ b.reverse =
        ch1 :: ch2 :: percent :: b.reverse := rfl
    rw [hre, takePiece, if_neg (parseHexDigit_ne h1)]
    simp only [h1, h2]

private theorem takePieces_cons_iff (c : UInt8) (s : Text) (ps : List Piece) :
    takePieces (c :: s) = some ps ↔
      ∃ p qs before, takePiece (c :: s) = some (p, before) ∧ takePieces before = some qs ∧
        ps = p :: qs := by
  rw [takePieces, if_neg (cons_ne_nil c s)]
  split
  next hn =>
    constructor
    · intro h
      cases h
    · rintro ⟨_, _, _, ht, -⟩
      cases hn.symm.trans ht
  next p before hso =>
    rw [map_eq_some_iff]
    constructor
    · rintro ⟨qs, hq, rfl⟩
      exact ⟨p, qs, before, hso, hq, rfl⟩
    · rintro ⟨_, qs, _, ht, hq, rfl⟩
      cases hso.symm.trans ht
      exact ⟨qs, hq, rfl⟩

private theorem takePieces_eq_some_iff (s : Text) (ps : List Piece) :
    takePieces s = some ps ↔ Spells s.reverse ps.reverse := by
  constructor
  · intro h
    fun_induction takePieces s generalizing ps with
    | case1 =>
      cases h
      exact .nil
    | case2 => cases h
    | case3 s hne p before ht ih =>
      rw [map_eq_some_iff] at h
      obtain ⟨qs, hq, rfl⟩ := h
      obtain ⟨last, hs, hla⟩ := spells_of_takePiece ht
      rw [hs, reverse_cons]
      exact (ih qs hq).append hla
  · intro h
    induction ps generalizing s with
    | nil =>
      generalize hs : s.reverse = t at h
      cases h
      rw [reverse_eq_nil_iff.mp hs, takePieces, if_pos rfl]
    | cons p ps ih =>
      rw [reverse_cons] at h
      obtain ⟨before, last, hs, hb, hla⟩ := h.exists_concat
      have hs' : s = last.reverse ++ before.reverse := by
        rw [← reverse_append, ← hs, reverse_reverse]
      have ht := takePiece_of_spells hb hla
      have hne : s ≠ [] := by
        rintro rfl
        rw [← hs'] at ht
        cases ht
      obtain ⟨c, s, rfl⟩ := exists_cons_of_ne_nil hne
      rw [← hs'] at ht
      apply (takePieces_cons_iff c s _).mpr
      exact ⟨p, ps, before.reverse, ht, ih _ (by rwa [reverse_reverse]), rfl⟩

private theorem findUnescapedSuffixLoop_nil (uri : Text) (k : Nat) :
    findUnescapedSuffixLoop uri [] = some k ↔
      ∃ ps front, takePieces [] = some ps ∧ uri = ps.map Piece.suffixCh ++ front ∧
        k = front.length := by
  rw [findUnescapedSuffixLoop, takePieces]
  constructor
  · intro h
    cases h
    exact ⟨[], uri, rfl, rfl, rfl⟩
  · rintro ⟨ps, front, hps, rfl, rfl⟩
    cases hps
    rfl

private theorem findUnescapedSuffixLoop_eq_some_iff (uri su : Text) (k : Nat) :
    findUnescapedSuffixLoop uri su = some k ↔
      ∃ ps front, takePieces su = some ps ∧ uri = ps.map Piece.suffixCh ++ front ∧
        k = front.length := by
  induction uri generalizing su with
  | nil =>
    cases su with
    | nil => exact findUnescapedSuffixLoop_nil [] k
    | cons c su =>
      constructor
      · intro h
        cases h
      · rintro ⟨ps, front, hps, hu, -⟩
        obtain ⟨p, qs, before, -, -, rfl⟩ := (takePieces_cons_iff c su ps).mp hps
        cases hu
  | cons ch uri ih =>
    cases su with
    | nil => exact findUnescapedSuffixLoop_nil (ch :: uri) k
    | cons c su =>
      rw [findUnescapedSuffixLoop.eq_3 _ _ _ (cons_ne_nil c su)]
      constructor
      · intro h
        split at h
        · cases h
        next p before ht =>
          obtain ⟨hch, h⟩ := ite_none_right_eq_some.mp h
          obtain ⟨ps, front, hps, rfl, hk⟩ := (ih before).mp h
          exact ⟨p :: ps, front, (takePieces_cons_iff c su _).mpr
            ⟨p, ps, before, ht, hps, rfl⟩, by rw [hch]; rfl, hk⟩
      · rintro ⟨ps, front, hps, hu, hk⟩
        obtain ⟨p, qs, before, ht, hq, rfl⟩ := (takePieces_cons_iff c su ps).mp hps
        rw [map_cons, cons_append, List.cons.injEq] at hu
        simp only [ht]
        rw [if_pos hu.1]
        exact (ih before).mpr ⟨qs, front, hq, hu.2, hk⟩

private theorem takePieces_reverse (suffix : Text) :
    (takePieces suffix.reverse).map List.reverse = pieces suffix := by
  apply ext
  intro ps
  rw [pieces_eq_some_iff, map_eq_some_iff]
  constructor
  · rintro ⟨qs, hq, rfl⟩
    have hsp := (takePieces_eq_some_iff suffix.reverse qs).mp hq
    rwa [reverse_reverse] at hsp
  · intro hsp
    refine ⟨ps.reverse, (takePieces_eq_some_iff _ _).mpr ?_, reverse_reverse ps⟩
    rwa [reverse_reverse, reverse_reverse]

/-- The result is the length of what is before the decoded suffix. -/
theorem uriFindUnescapedSuffix_eq_some_iff (uri suffix : Text) (k : Nat) :
    uriFindUnescapedSuffix uri suffix = some k ↔
      ∃ front decoded, unescaped suffix = some decoded ∧ uri = front ++ decoded ∧
        k = front.length := by
  rw [uriFindUnescapedSuffix, findUnescapedSuffixLoop_eq_some_iff, unescaped, ← takePieces_reverse]
  constructor
  · rintro ⟨ps, front, hps, hu, rfl⟩
    refine ⟨front.reverse, (ps.map Piece.suffixCh).reverse, ?_, ?_, ?_⟩
    · rw [hps, map_some, map_some, map_reverse]
    · rw [← reverse_append, ← hu, reverse_reverse]
    · rw [length_reverse]
  · rintro ⟨front, decoded, hd, rfl, rfl⟩
    rw [Option.map_map, Option.map_eq_some_iff] at hd
    obtain ⟨ps, hps, rfl⟩ := hd
    refine ⟨ps, front.reverse, hps, ?_, ?_⟩
    · rw [reverse_append, Function.comp_apply, map_reverse, reverse_reverse]
    · rw [length_reverse]

/-- The result is where the end of the string begins that is denoted by the suffix. The suffix is
well-formed if and only if it denotes something, and the scan from the right takes the same pieces
from it as the decoder. -/
theorem uriFindUnescapedSuffix_iff (uri suffix : Text) :
    (∀ k, uriFindUnescapedSuffix uri suffix = some k ↔
        ∃ front decoded, unescaped suffix = some decoded ∧ uri = front ++ decoded ∧
          k = front.length) ∧
      ((unescaped suffix).isSome = true ↔ WellEscaped suffix) ∧
      (takePieces suffix.reverse).map List.reverse = pieces suffix := by
  refine ⟨uriFindUnescapedSuffix_eq_some_iff uri suffix, ?_, takePieces_reverse suffix⟩
  rw [unescaped, isSome_map, isSome_iff_exists]
  constructor
  · rintro ⟨ps, hps⟩
    exact ((pieces_eq_some_iff suffix ps).mp hps).wellEscaped
  · intro hw
    obtain ⟨ps, hps⟩ := hw.exists_spells
    exact ⟨ps, (pieces_eq_some_iff suffix ps).mpr hps⟩

example : uriFindUnescapedSuffix (ascii "/foo") (ascii "%6f%6F") = some 2 ∧
    uriFindUnescapedSuffix (ascii "/foo") (ascii "%%6f") = none := by
  decide

end BengProxy.Uri
