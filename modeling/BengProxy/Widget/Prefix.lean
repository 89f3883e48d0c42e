import BengProxy.Base.Escape
import BengProxy.Parser.Css

/-!
# Prefixes of identifiers

A widget has a quoted class name and a prefix, `src/widget/Widget.cxx`. Two leading underscores of a
class or an id in a template are replaced with the former, and three of them with the latter: by
`src/bp/XmlProcessor.cxx` in the attributes, and by `src/bp/CssProcessor.cxx` in the selectors.
-/

namespace BengProxy.Widgets

open Base Text Css List

/-- `valid_prefix_start_char`, `Widget.cxx:18-24`. -/
def validPrefixStartChar (ch : UInt8) : Bool := isAlphaASCII ch || ch == 0x5f

/-- `valid_prefix_char`, `Widget.cxx:26-31`. -/
def validPrefixChar (ch : UInt8) : Bool := validPrefixStartChar ch || isDigitASCII ch

/-- `quote_byte`, `Widget.cxx:49-54`. -/
def quoteByte (ch : UInt8) : Text :=
  let digit (n : UInt8) : UInt8 := if n < 10 then 0x30 + n else 0x57 + n
  [0x5f, digit (ch / 16), digit (ch % 16)]

/-- One character of `quote_prefix`. -/
def quoteChar (valid : UInt8 → Bool) (ch : UInt8) : Text :=
  if valid ch then [ch] else quoteByte ch

/-- `quote_prefix`, `Widget.cxx:56-83`. -/
def quotePrefix : Text → Text
  | [] => []
  | ch :: s => quoteChar validPrefixStartChar ch ++ s.flatMap (quoteChar validPrefixChar)

/-- The prefix in `Widget::SetId`, `Widget.cxx:98-102`. -/
def setId (parent id : Text) : Text := parent ++ quotePrefix id ++ ascii "__"

/-- The prefix of a widget with these ids below the root, `src/widget/Root.cxx:13`. -/
def pathPrefix (path : List Text) : Text := path.foldl setId (ascii "C_")

/-- All characters are valid. -/
def isPlain : Text → Bool
  | [] => true
  | ch :: s => validPrefixStartChar ch && s.all validPrefixChar

/-- There are characters that an invalid character is quoted with. -/
def Escapes (x : Text) : Prop :=
  ∃ u c v, c ≠ 0 ∧ x = u ++ quoteByte c ++ v ∧
    (if u = [] then validPrefixStartChar c else validPrefixChar c) = false

/-- There are characters like those between two ids. -/
def Joins (x : Text) : Prop :=
  ∃ u c v, u ≠ [] ∧ validPrefixStartChar c = true ∧ x = u ++ ascii "__" ++ c :: v

/-- The ids of a widget below the root. -/
def IsPath (path : List Text) : Prop := path ≠ [] ∧ ∀ id ∈ path, id ≠ [] ∧ 0 ∉ id

private theorem flatMap_quoteChar {s : Text} (h : s.all validPrefixChar = true) :
    s.flatMap (quoteChar validPrefixChar) = s := by
  induction s with
  | nil => rfl
  | cons c s ih =>
    rw [all_cons, Bool.and_eq_true] at h
    rw [flatMap_cons, quoteChar, if_pos h.1, ih h.2, singleton_append]

private theorem quotePrefix_plain {x : Text} (h : isPlain x = true) : quotePrefix x = x := by
  cases x with
  | nil => rfl
  | cons c s =>
    rw [isPlain, Bool.and_eq_true] at h
    rw [quotePrefix, quoteChar, if_pos h.1, flatMap_quoteChar h.2, singleton_append]

private theorem isPlain_append {a : Text} (h : a ≠ []) (b : Text) :
    isPlain (a ++ b) = (isPlain a && b.all validPrefixChar) := by
  cases a with
  | nil => exact absurd rfl h
  | cons c a => simp [isPlain, Bool.and_assoc]

private theorem all_of_plain {x : Text} (h : isPlain x = true) : x.all validPrefixChar = true := by
  cases x with
  | nil => rfl
  | cons c s => simp_all [isPlain, validPrefixChar]

private theorem isPlain_quoteByte (c : UInt8) : isPlain (quoteByte c) = true := by
  apply forall_byte (P := fun c => isPlain (quoteByte c) = true)
  decide +kernel

private theorem isPlain_quotePrefix (x : Text) : isPlain (quotePrefix x) = true := by
  cases x with
  | nil => rfl
  | cons c s =>
    have hc : quoteChar validPrefixStartChar c ≠ [] ∧
        isPlain (quoteChar validPrefixStartChar c) = true := by
      rw [quoteChar]
      split
      next hv => exact ⟨cons_ne_nil _ _, by simp [isPlain, hv]⟩
      · exact ⟨cons_ne_nil _ _, isPlain_quoteByte c⟩
    rw [quotePrefix, isPlain_append hc.1, hc.2, Bool.true_and, all_flatMap, all_eq_true]
    intro d _
    rw [quoteChar]
    split
    next hv => simp [hv]
    · exact all_of_plain (isPlain_quoteByte d)

private theorem not_mem_of_plain {x : Text} (h : isPlain x = true) : 0 ∉ x :=
  fun h0 => absurd (all_eq_true.mp (all_of_plain h) 0 h0) (by decide)

private theorem flatMap_of_not_valid {s : Text} (h : s.all validPrefixChar = false) :
    ∃ u c v, c ∈ s ∧ s.flatMap (quoteChar validPrefixChar) = u ++ quoteByte c ++ v ∧
      validPrefixChar c = false := by
  obtain ⟨c, hc, hv⟩ := all_eq_false.mp h
  obtain ⟨u, v, rfl⟩ := append_of_mem hc
  have hb : quoteChar validPrefixChar c = quoteByte c := if_neg hv
  rw [flatMap_append, flatMap_cons, hb, ← append_assoc]
  exact ⟨_, c, _, hc, rfl, by simpa using hv⟩

private theorem quoted_of_not_plain {y : Text} (h : isPlain y = false) :
    ∃ u c v, c ∈ y ∧ quotePrefix y = u ++ quoteByte c ++ v ∧
      (if u = [] then validPrefixStartChar c else validPrefixChar c) = false := by
  cases y with
  | nil => cases h
  | cons d s =>
    rw [quotePrefix, quoteChar]
    split
    next hd =>
      rw [isPlain, hd] at h
      obtain ⟨u, c, v, hc, hu, hv⟩ := flatMap_of_not_valid h
      exact ⟨d :: u, c, v, mem_cons_of_mem _ hc, by simp [hu], hv⟩
    next hd => exact ⟨[], d, _, mem_cons_self, rfl, by simpa using hd⟩

private theorem quotePrefix_inj_iff (x : Text) :
    (∀ y, 0 ∉ y → quotePrefix y = quotePrefix x → y = x) ↔ isPlain x = true ∧ ¬ Escapes x := by
  constructor
  · intro h
    have hq := isPlain_quotePrefix x
    have hp : isPlain x = true := h _ (not_mem_of_plain hq) (quotePrefix_plain hq) ▸ hq
    refine ⟨hp, ?_⟩
    rintro ⟨u, c, v, hc, rfl, hv⟩
    have h0 := not_mem_of_plain hp
    have hq : quotePrefix (u ++ c :: v) = u ++ quoteByte c ++ v := by
      rw [isPlain_append (by simp [quoteByte]), Bool.and_eq_true] at hp
      cases u with
      | nil => simp_all [quotePrefix, quoteChar, flatMap_quoteChar]
      | cons d u =>
        rw [isPlain_append (cons_ne_nil _ _), Bool.and_eq_true] at hp
        have hs : quotePrefix (d :: u ++ c :: v) = quotePrefix (d :: u) ++
            quoteChar validPrefixChar c ++ v.flatMap (quoteChar validPrefixChar) := by
          simp [quotePrefix]
        have hb : quoteChar validPrefixChar c = quoteByte c := by simp_all [quoteChar]
        rw [hs, quotePrefix_plain hp.1.1, hb, flatMap_quoteChar hp.2]
    rw [mem_append, mem_append, not_or, not_or] at h0
    have hy := h (u ++ c :: v) (by simp [h0, Ne.symm hc]) (hq.trans (quotePrefix_plain hp).symm)
    have hl := congrArg length hy
    simp [quoteByte] at hl
  · rintro ⟨hp, he⟩ y h0 hq
    rw [quotePrefix_plain hp] at hq
    cases hy : isPlain y with
    | true => rwa [quotePrefix_plain hy] at hq
    | false =>
      obtain ⟨u, c, v, hc, hu, hv⟩ := quoted_of_not_plain hy
      exact absurd ⟨u, c, v, fun h => h0 (h ▸ hc), hq.symm.trans hu, hv⟩ he

private theorem foldl_setId (path : List Text) (p : Text) :
    path.foldl setId p = p ++ path.flatMap fun id => quotePrefix id ++ ascii "__" := by
  induction path generalizing p with
  | nil => simp
  | cons id path ih => simp [ih, setId]

private theorem quotePrefix_ne_nil {x : Text} (h : x ≠ []) : quotePrefix x ≠ [] := by
  cases x with
  | nil => exact absurd rfl h
  | cons c s =>
    by_cases hc : validPrefixStartChar c <;> simp [quotePrefix, quoteChar, hc, quoteByte]

private theorem join_spec {path : List Text} (h : IsPath path) :
    ∃ w, path.flatMap (fun id => quotePrefix id ++ ascii "__") = w ++ ascii "__" ∧ w ≠ [] ∧
      isPlain w = true := by
  induction path with
  | nil => exact absurd rfl h.1
  | cons x path ih =>
    have hx := quotePrefix_ne_nil (h.2 x mem_cons_self).1
    have hp := isPlain_quotePrefix x
    by_cases hn : path = []
    · exact ⟨quotePrefix x, by simp [hn], hx, hp⟩
    obtain ⟨w, hw, -, hv⟩ := ih ⟨hn, fun id hi => h.2 id (mem_cons_of_mem _ hi)⟩
    refine ⟨quotePrefix x ++ (ascii "__" ++ w), ?_, by simp [hx], ?_⟩
    · rw [flatMap_cons, hw]
      simp
    · rw [isPlain_append hx, hp, all_append, all_of_plain hv]
      rfl

/-- A class name is the only one with its quoted name exactly if it is quoted with itself, and
nothing in it looks like a quoted character. The ids of a widget are the only ones with their prefix
exactly if there is only one of them, which also does not look like two ids. -/
theorem pathPrefix_inj_iff (x : Text) {path : List Text} (hpa : IsPath path) :
    ((∀ y, 0 ∉ y → quotePrefix y = quotePrefix x → y = x) ↔ isPlain x = true ∧ ¬ Escapes x) ∧
      ((∀ path', IsPath path' → pathPrefix path' = pathPrefix path → path' = path) ↔
        ∃ x, path = [x] ∧ isPlain x = true ∧ ¬ Escapes x ∧ ¬ Joins x) := by
  refine ⟨quotePrefix_inj_iff x, ?_⟩
  simp only [pathPrefix, foldl_setId, append_cancel_left_eq]
  constructor
  · intro h
    obtain ⟨w, hw, hn, hp⟩ := join_spec hpa
    -- the prefix is also the one of a single id
    obtain rfl := h [w] ⟨cons_ne_nil _ _, by simpa [hn] using not_mem_of_plain hp⟩
      (by simp [hw, quotePrefix_plain hp])
    have hi := (quotePrefix_inj_iff w).mp fun y h0 hy => by
      have hy0 : y ≠ [] := by
        rintro rfl
        exact quotePrefix_ne_nil hn hy.symm
      simpa using h [y] ⟨cons_ne_nil _ _, by simp [hy0, h0]⟩ (by simp [hy])
    refine ⟨w, rfl, hi.1, hi.2, ?_⟩
    rintro ⟨u, c, v, hu, hc, rfl⟩
    have h0 := not_mem_of_plain hp
    rw [append_assoc, isPlain_append hu, all_append, all_cons] at hp
    simp only [Bool.and_eq_true] at hp
    have hcv : isPlain (c :: v) = true := by rw [isPlain, hc, hp.2.2.2, Bool.and_self]
    have ht := h [u, c :: v] ⟨cons_ne_nil _ _, by simp_all⟩
      (by rw [hw]; simp [quotePrefix_plain hp.1, quotePrefix_plain hcv])
    simp at ht
  · rintro ⟨x, rfl, hp, he, hj⟩ path' hpa' hq
    cases path' with
    | nil => exact absurd rfl hpa'.1
    | cons y ys =>
      by_cases hys : ys = []
      · subst hys
        have hy := (quotePrefix_inj_iff x).mpr ⟨hp, he⟩ y (hpa'.2 y mem_cons_self).2
        rw [hy (by simpa using hq)]
      obtain ⟨w, hw, hn, hv⟩ := join_spec ⟨hys, fun id hi => hpa'.2 id (mem_cons_of_mem _ hi)⟩
      have hx : x = quotePrefix y ++ ascii "__" ++ w := by
        rw [flatMap_cons, hw, flatMap_singleton, quotePrefix_plain hp, ← append_assoc] at hq
        exact (append_cancel_right hq).symm
      cases w with
      | nil => exact absurd rfl hn
      | cons c v =>
        rw [isPlain, Bool.and_eq_true] at hv
        exact absurd ⟨_, c, v, quotePrefix_ne_nil (hpa'.2 y mem_cons_self).1, hv.1, hx⟩ hj

/-- The prefix of two ids is not theirs alone. -/
theorem pathPrefix_inj_two : ¬ ∀ path, IsPath path →
    pathPrefix path = pathPrefix [ascii "a", ascii "b"] → path = [ascii "a", ascii "b"] := by
  intro h
  obtain ⟨x, hx, -⟩ := (pathPrefix_inj_iff [] ⟨by decide, by decide⟩).2.mp h
  cases hx

/-- A space is quoted like the characters it is quoted with, and an id with two underscores gives
the same prefix as two ids. -/
theorem pathPrefix_collision :
    quotePrefix (ascii "a b") = ascii "a_20b" ∧ quotePrefix (ascii "a_20b") = ascii "a_20b" ∧
      pathPrefix [ascii "a__b"] = ascii "C_a__b__" ∧
      pathPrefix [ascii "a", ascii "b"] = ascii "C_a__b__" := by
  decide

/-- `underscore_prefix`, `src/parser/CssUtil.hxx:20-28`. -/
def underscorePrefix (s : Text) : Nat := (s.takeWhile (· == 0x5f)).length

/-- `is_underscore_prefix`, `src/parser/CssUtil.hxx:30-36`. -/
def isUnderscorePrefix (s : Text) : Bool := underscorePrefix s == 2 || underscorePrefix s == 3

/-- `Widget::GetPrefix` and `Widget::GetQuotedClassName`, `src/widget/Widget.hxx:287-293`. -/
structure Names where
  pathPrefix : Option Text
  quotedClassName : Option Text

/-- What so many underscores are replaced with. -/
def Names.replacement (w : Names) (n : Nat) : Option Text :=
  if n = 3 then w.pathPrefix else if n = 2 then w.quotedClassName else none

/-- Replace the underscores of an identifier as documented, but only so many of two. -/
def Names.replace (w : Names) (two : Nat) (name : Text) : Text :=
  let n := underscorePrefix name
  (w.replacement n).elim name (· ++ name.drop (if n = 2 then two else n))

/-- `css_processor_parser_class_name`, `CssProcessor.cxx:88-117`. -/
def Names.cssClass (w : Names) (name : Text) : Text := w.replace 2 name

/-- `css_processor_parser_xml_id`, `CssProcessor.cxx:121-153`: one of two underscores is kept. -/
def Names.cssId (w : Names) (name : Text) : Text := w.replace 1 name

/-- `XmlProcessor::HandleIdAttribute`, `XmlProcessor.cxx:735-761`. -/
def Names.htmlId (w : Names) (name : Text) : Text := w.replace 2 name

/-- The loop of `find_underscore`, `XmlProcessor.cxx:673-681`. -/
def nextUnderscore : Text → Option (Text × Text)
  | [] => none
  | c :: s =>
    if isWhitespaceOrNull c && isUnderscorePrefix s then some ([c], s)
    else (nextUnderscore s).map fun p => (c :: p.1, p.2)

/-- `find_underscore`, `XmlProcessor.cxx:660-682`: what is before it, and the rest. -/
def findUnderscore (s : Text) : Option (Text × Text) :=
  if isUnderscorePrefix s then some ([], s) else nextUnderscore s

/-- The loop of `HandleClassAttribute`, `XmlProcessor.cxx:696-730`; each turn consumes two
characters at least. -/
def Names.expandClass (w : Names) : Nat → Text → Text
  | 0, s => s
  | fuel + 1, s =>
    match findUnderscore s with
    | none => s
    | some (before, u) =>
      let n := underscorePrefix u
      before ++ (w.replacement n).getD (u.take n) ++ w.expandClass fuel (u.drop n)

/-- `XmlProcessor::HandleClassAttribute`, `XmlProcessor.cxx:684-733`: nothing is replaced if the
buffer is too small. -/
def Names.htmlClass (w : Names) (value : Text) : Text :=
  let text := w.expandClass value.length value
  if text.length ≤ 2048 then text else value

private theorem underscorePrefix_drop (s : Text) :
    underscorePrefix (s.drop (underscorePrefix s)) = 0 := by
  induction s with
  | nil => rfl
  | cons c s ih =>
    by_cases hc : c = 0x5f
    · simpa [underscorePrefix, hc] using ih
    · simp [underscorePrefix, hc]

private theorem replace_two (w : Names) (name : Text) :
    w.replace 2 name =
      (w.replacement (underscorePrefix name)).elim name
        (· ++ name.drop (underscorePrefix name)) := by
  rw [Names.replace]
  split
  next h2 => rw [h2]
  · rfl

section

variable {name : Text} (h : ∀ c ∈ name, isCssNmchar c = true)
include h

private theorem nextUnderscore_eq_none : nextUnderscore name = none := by
  induction name with
  | nil => rfl
  | cons c s ih =>
    have hw : isWhitespaceOrNull c = false := by
      have hc := h c mem_cons_self
      simp [isCssNmchar, isCssNmstart, isAlphaASCII, isDigitASCII, UInt8.le_iff_toNat_le,
        ← UInt8.toNat_inj] at hc
      simp [isWhitespaceOrNull, UInt8.lt_iff_toNat_lt]
      omega
    rw [nextUnderscore, hw, Bool.false_and, if_neg Bool.false_ne_true,
      ih fun d hd => h d (mem_cons_of_mem _ hd), Option.map_none]

private theorem expandClass_eq (w : Names) : w.expandClass name.length name = w.replace 2 name := by
  have hz : findUnderscore (name.drop (underscorePrefix name)) = none := by
    rw [findUnderscore, isUnderscorePrefix, underscorePrefix_drop]
    exact nextUnderscore_eq_none fun c hc => h c (mem_of_mem_drop hc)
  rw [replace_two]
  by_cases hu : isUnderscorePrefix name = true
  · have hl : underscorePrefix name ≤ name.length := (takeWhile_sublist _).length_le
    rw [isUnderscorePrefix, Bool.or_eq_true, beq_iff_eq, beq_iff_eq] at hu
    obtain ⟨k, hk⟩ := Nat.exists_eq_add_of_le' (show 2 ≤ name.length by omega)
    have hf : findUnderscore name = some ([], name) := by
      simp [findUnderscore, isUnderscorePrefix, hu]
    simp only [hk, Names.expandClass, hf, hz]
    cases w.replacement (underscorePrefix name) with
    | none => simp
    | some r => rfl
  have hf : findUnderscore name = none := by
    rw [findUnderscore, if_neg hu, nextUnderscore_eq_none h]
  have hr : w.replacement (underscorePrefix name) = none := by
    simp_all [isUnderscorePrefix, Names.replacement]
  rw [hr]
  cases name.length with
  | zero => rfl
  | succ n => simp only [Names.expandClass, hf, Option.elim]

/-- Both processors write the identifier that is documented: for an id exactly if there are not two
underscores to be replaced, and for a class exactly if what is written fits into the buffer, or the
underscores are replaced with themselves. -/
theorem prefixed_agree_iff (w : Names) :
    (w.htmlId name = w.cssId name ↔
        ¬ (underscorePrefix name = 2 ∧ w.quotedClassName.isSome = true)) ∧
      (w.htmlClass name = w.cssClass name ↔
        ∀ r, w.replacement (underscorePrefix name) = some r →
          (r ++ name.drop (underscorePrefix name)).length ≤ 2048 ∨
            r = name.take (underscorePrefix name)) := by
  have hn : underscorePrefix name ≤ name.length := (takeWhile_sublist _).length_le
  constructor
  · rw [Names.htmlId, Names.cssId, Names.replace, Names.replace]
    by_cases h2 : underscorePrefix name = 2
    · cases hq : w.quotedClassName with
      | none => simp [Names.replacement, h2, hq]
      | some r =>
        simp [Names.replacement, h2, hq]
        intro he
        have hl := congrArg length he
        rw [length_drop, length_tail] at hl
        omega
    · simp [h2]
  · have hc : w.htmlClass name = w.replace 2 name ↔
        (w.replace 2 name).length ≤ 2048 ∨ w.replace 2 name = name := by
      rw [Names.htmlClass, expandClass_eq h]
      split
      next hl => simp [hl]
      next hl => simpa [hl] using eq_comm
    rw [Names.cssClass, hc, replace_two]
    cases w.replacement (underscorePrefix name) with
    | none => simp
    | some r =>
      have ht := @append_left_inj _ r (name.take (underscorePrefix name))
        (name.drop (underscorePrefix name))
      rw [take_append_drop] at ht
      simp [ht]

end

/-- Three underscores are replaced with the prefix. -/
theorem prefixed_agree_three :
    Names.htmlId ⟨some (ascii "C_a__"), some (ascii "k")⟩ (ascii "___b") =
      Names.cssId ⟨some (ascii "C_a__"), some (ascii "k")⟩ (ascii "___b") :=
  (prefixed_agree_iff (by decide +kernel) _).1.mpr (by decide)

/-- Two underscores are replaced with the class name in the attribute, and one of them in the style
sheet. -/
theorem prefixed_id_differs :
    Names.htmlId ⟨none, some (ascii "k")⟩ (ascii "__b") = ascii "kb" ∧
      Names.cssId ⟨none, some (ascii "k")⟩ (ascii "__b") = ascii "k_b" := by
  decide

end BengProxy.Widgets
