import BengProxy.Istream.SubstTree

/-!
# The keywords of a search tree

The tree holds the keywords that `SubstTree::Add` accepted, and `CheckMatch()` tells whether the
input may be one of them.
-/

namespace BengProxy.Istream

open Base List Option

variable {t' : SubstNode}

namespace SubstNode

/-- The keywords of a tree. -/
def keywords : SubstNode → List Text
  | .null => []
  | .node ch left right equals _ =>
    left.keywords ++ (if ch = 0 then [[]] else equals.keywords.map (ch :: ·)) ++ right.keywords

/-- The characters of a level; a leaf has the null character. -/
def chars : SubstNode → List UInt8
  | .null => []
  | .node ch left right _ _ => left.chars ++ ch :: right.chars

/-- Each level is a binary search tree, and each character but the null character leads to another
level. -/
inductive Wf : SubstNode → Prop where
  | null : Wf .null
  | node {ch : UInt8} {left right equals : SubstNode} {leaf : Option (Text × Text)}
      (hleft : Wf left) (hright : Wf right) (hequals : Wf equals)
      (hleaf : equals = .null ↔ ch = 0)
      (less : ∀ x ∈ left.chars, charValue x < charValue ch)
      (greater : ∀ x ∈ right.chars, charValue ch < charValue x) :
      Wf (.node ch left right equals leaf)

variable {t : SubstNode} {a b rest w : Text}

/-- The first character of a keyword, or the null character, is on the level. -/
theorem head_mem_chars (h : w ∈ t.keywords) : w.headD 0 ∈ t.chars := by
  induction t generalizing w with
  | null => cases h
  | node ch left right equals leaf ihl ihr _ =>
    rw [keywords, mem_append, mem_append] at h
    rw [chars, mem_append, mem_cons]
    rcases h with (h | h) | h
    · exact .inl (ihl h)
    · right
      left
      split at h
      next hch =>
        rw [mem_singleton.mp h, hch]
        rfl
      · obtain ⟨w', -, rfl⟩ := mem_map.mp h
        rfl
    · exact .inr (.inr (ihr h))

private theorem Wf.keywords_ne_nil (h : t.Wf) (hne : t ≠ .null) : t.keywords ≠ [] := by
  induction h with
  | null => exact absurd rfl hne
  | @node ch left right equals leaf _ _ _ hl _ _ _ _ ih =>
    by_cases hch : ch = 0
    · simp [keywords, hch]
    · simp [keywords, hch, ih (mt hl.mp hch)]

private theorem keywords_chain (a b : Text) (hr : 0 ∉ rest) :
    (chain a b rest).keywords = [rest] := by
  induction rest with
  | nil => rfl
  | cons ch rest ih =>
    rw [mem_cons, not_or] at hr
    simp [chain, keywords, ih hr.2, Ne.symm hr.1]

private theorem wf_chain (a b : Text) (hr : 0 ∉ rest) : (chain a b rest).Wf := by
  have hn (p : UInt8 → Prop) : ∀ x ∈ null.chars, p x := fun x hx => absurd hx not_mem_nil
  induction rest with
  | nil => exact .node .null .null .null (iff_of_true rfl rfl) (hn _) (hn _)
  | cons ch rest ih =>
    rw [mem_cons, not_or] at hr
    have hne : chain a b rest ≠ .null := by cases rest <;> simp [chain]
    exact .node .null .null (ih hr.2) (iff_of_false hne (Ne.symm hr.1)) (hn _) (hn _)

/-- Only the first character is new on a level. -/
theorem mem_chars_insert {x : UInt8} (h : t.insert a b rest = some t')
    (hx : x ∈ t'.chars) : x ∈ t.chars ∨ x = rest.headD 0 := by
  induction t generalizing rest t' with
  | null =>
    cases h
    cases rest <;> simpa [chain, chars] using hx
  | node c left right equals leaf ihl ihr _ =>
    cases rest with
    | nil => cases h
    | cons ch rest =>
      rw [insert] at h
      split at h
      · obtain ⟨left', hl, rfl⟩ := map_eq_some_iff.mp h
        rw [chars, mem_append] at hx ⊢
        rcases hx with hx | hx
        · exact (ihl hl hx).imp_left .inl
        · exact .inl (.inr hx)
      split at h
      · obtain ⟨right', hr, rfl⟩ := map_eq_some_iff.mp h
        rw [chars, mem_append, mem_cons] at hx ⊢
        rcases hx with hx | hx | hx
        · exact .inl (.inl hx)
        · exact .inl (.inr (.inl hx))
        · exact (ihr hr hx).imp_left fun h => .inr (.inr h)
      · obtain ⟨equals', -, rfl⟩ := map_eq_some_iff.mp h
        exact .inl hx

private theorem insert_ne_null (h : t.insert a b rest = some t') : t' ≠ .null := by
  rintro rfl
  cases t with
  | null => cases rest <;> cases h
  | node c left right equals leaf =>
    cases rest with
    | nil => cases h
    | cons ch rest =>
      rw [insert] at h
      split at h
      · simp at h
      · split at h <;> simp at h

/-- Adding a keyword keeps the tree in order. -/
theorem Wf.insert (hw : t.Wf) (hr : 0 ∉ rest) (h : t.insert a b rest = some t') : t'.Wf := by
  induction hw generalizing rest t' with
  | null =>
    cases h
    exact wf_chain a b hr
  | @node c left right equals leaf hl hri he hle less greater ihl ihr ihe =>
    cases rest with
    | nil => cases h
    | cons ch rest =>
      rw [SubstNode.insert] at h
      split at h
      next hlt =>
        obtain ⟨left', hi, rfl⟩ := map_eq_some_iff.mp h
        refine .node (ihl hr hi) hri he hle ?_ greater
        intro x hx
        rcases mem_chars_insert hi hx with hx | rfl
        · exact less x hx
        · exact hlt
      next hn =>
        split at h
        next hg =>
          obtain ⟨right', hi, rfl⟩ := map_eq_some_iff.mp h
          refine .node hl (ihr hr hi) he hle less ?_
          intro x hx
          rcases mem_chars_insert hi hx with hx | rfl
          · exact greater x hx
          · exact hg
        next hn' =>
          obtain ⟨equals', hi, rfl⟩ := map_eq_some_iff.mp h
          obtain rfl : ch = c := charValue_inj.mp (by omega)
          rw [mem_cons, not_or] at hr
          refine .node hl hri (ihe hr.2 hi) ?_ less greater
          exact iff_of_false (insert_ne_null hi) (Ne.symm hr.1)

/-- A keyword that is accepted is a keyword of the tree. -/
theorem mem_keywords_insert (hr : 0 ∉ rest)
    (h : t.insert a b rest = some t') : w ∈ t'.keywords ↔ w ∈ t.keywords ∨ w = rest := by
  induction t generalizing rest w t' with
  | null =>
    cases h
    rw [keywords_chain a b hr]
    simp [keywords]
  | node c left right equals leaf ihl ihr ihe =>
    cases rest with
    | nil => cases h
    | cons ch rest =>
      rw [insert] at h
      split at h
      · obtain ⟨left', hi, rfl⟩ := map_eq_some_iff.mp h
        rw [keywords, keywords, mem_append, mem_append, mem_append, mem_append, ihl hr hi]
        tauto
      next hn =>
        split at h
        · obtain ⟨right', hi, rfl⟩ := map_eq_some_iff.mp h
          rw [keywords, keywords, mem_append, mem_append, mem_append, mem_append, ihr hr hi]
          tauto
        next hn' =>
          obtain ⟨equals', hi, rfl⟩ := map_eq_some_iff.mp h
          obtain rfl : ch = c := charValue_inj.mp (by omega)
          rw [mem_cons, not_or] at hr
          have hma : w ∈ equals'.keywords.map (ch :: ·) ↔
              w ∈ equals.keywords.map (ch :: ·) ∨ w = ch :: rest := by
            rw [List.mem_map, List.mem_map]
            constructor
            · rintro ⟨w', hw', rfl⟩
              rcases (ihe hr.2 hi).mp hw' with hw' | rfl
              · exact .inl ⟨w', hw', rfl⟩
              · exact .inr rfl
            · rintro (⟨w', hw', rfl⟩ | rfl)
              · exact ⟨w', (ihe hr.2 hi).mpr (.inl hw'), rfl⟩
              · exact ⟨rest, (ihe hr.2 hi).mpr (.inr rfl), rfl⟩
          rw [keywords, keywords, if_neg (Ne.symm hr.1), if_neg (Ne.symm hr.1), mem_append,
            mem_append, mem_append, mem_append]
          tauto

-- a keyword is not on the wrong side
private theorem not_mem_left {ch c : UInt8} {left : SubstNode}
    (less : ∀ x ∈ left.chars, charValue x < charValue c) (hle : charValue c ≤ charValue ch)
    (hw : w.headD 0 = ch) : w ∉ left.keywords := by
  intro hme
  have hlt := less _ (head_mem_chars hme)
  rw [hw] at hlt
  omega

private theorem not_mem_right {ch c : UInt8} {r : SubstNode}
    (g : ∀ x ∈ r.chars, charValue c < charValue x) (hle : charValue ch ≤ charValue c)
    (hw : w.headD 0 = ch) : w ∉ r.keywords := by
  intro hme
  have hlt := g _ (head_mem_chars hme)
  rw [hw] at hlt
  omega

private theorem Wf.findLeaf_iff (h : t.Wf) : t.findLeaf.isSome = true ↔ [] ∈ t.keywords := by
  induction h with
  | null => simp [findLeaf, keywords]
  | @node c left right equals leaf _ _ _ _ less greater ihl ihr _ =>
    rw [findLeaf, keywords, mem_append, mem_append]
    by_cases hc : c = 0
    · rw [if_pos hc, if_pos hc]
      exact iff_of_true rfl (.inl (.inr (mem_singleton.mpr rfl)))
    have hma : ([] : Text) ∉ equals.keywords.map (c :: ·) := by simp
    rw [if_neg hc, if_neg hc, or_iff_left hma]
    by_cases hpo : charValue 0 < charValue c
    · rw [if_pos hpo, ihl, or_iff_left (not_mem_right greater (Int.le_of_lt hpo) rfl)]
    · rw [if_neg hpo, ihr, or_iff_right (not_mem_left less (Int.not_lt.mp hpo) rfl)]

/-- The character leads to the rest of the keywords that begin with it. -/
theorem Wf.findCharIn (h : t.Wf) {ch : UInt8} (hch : ch ≠ 0) :
    (t.findCharIn ch = none → ∀ w, ch :: w ∉ t.keywords) ∧
      ∀ e, t.findCharIn ch = some e →
        e.Wf ∧ e ≠ .null ∧ ∀ w, w ∈ e.keywords ↔ ch :: w ∈ t.keywords := by
  induction h with
  | null =>
    refine ⟨fun _ w => not_mem_nil, ?_⟩
    rintro e ⟨⟩
  | @node c left right equals leaf _ _ he hl less greater ihl ihr _ =>
    rw [SubstNode.findCharIn]
    by_cases hc : c = ch
    · subst hc
      rw [if_pos rfl]
      refine ⟨fun hn => (by cases hn), ?_⟩
      rintro e ⟨⟩
      refine ⟨he, mt hl.mp hch, ?_⟩
      intro w
      rw [keywords, if_neg hch, mem_append, mem_append,
        or_iff_left (not_mem_right greater (Int.le_refl _) rfl),
        or_iff_right (not_mem_left less (Int.le_refl _) rfl),
        List.mem_map_of_injective (cons_injective)]
    have hmi (w : Text) :
        ch :: w ∉ if c = 0 then [[]] else equals.keywords.map (c :: ·) := by
      split
      · simp
      · simp [hc]
    by_cases hlt : charValue ch < charValue c
    · have hsi (w : Text) :
          ch :: w ∈ (SubstNode.node c left right equals leaf).keywords ↔
            ch :: w ∈ left.keywords := by
        rw [keywords, mem_append, mem_append, or_iff_left (hmi w),
          or_iff_left (not_mem_right greater (Int.le_of_lt hlt) rfl)]
      rw [if_neg hc, if_pos hlt]
      simp only [hsi]
      exact ihl
    have hsi (w : Text) :
        ch :: w ∈ (SubstNode.node c left right equals leaf).keywords ↔
          ch :: w ∈ right.keywords := by
      rw [keywords, mem_append, mem_append, or_iff_left (hmi w),
        or_iff_right (not_mem_left less (Int.not_lt.mp hlt) rfl)]
    rw [if_neg hc, if_neg hlt]
    simp only [hsi]
    exact ihr

private theorem Wf.no_null (h : t.Wf) (hw : w ∈ t.keywords) : 0 ∉ w := by
  induction h generalizing w with
  | null => cases hw
  | @node c left right equals leaf _ _ _ _ _ _ ihl ihr ihe =>
    rw [keywords, mem_append, mem_append] at hw
    rcases hw with (hw | hw) | hw
    · exact ihl hw
    · split at hw
      · rw [mem_singleton.mp hw]
        exact not_mem_nil
      next hc =>
        obtain ⟨w', hw', rfl⟩ := mem_map.mp hw
        rw [mem_cons, not_or]
        exact ⟨Ne.symm hc, ihe hw'⟩
    · exact ihr hw

/-- The input is a keyword and something more, or the beginning of a keyword. -/
def MayMatch (words : List Text) (input : Text) : Prop :=
  ∃ w ∈ words, w <+: input ∨ input <+: w

/-- `CheckMatch()` tells whether the input may match. -/
theorem Wf.checkMatch_iff (h : t.Wf) (hne : t ≠ .null) {input : Text} :
    t.checkMatch input = true ↔ MayMatch t.keywords input := by
  induction input generalizing t with
  | nil =>
    obtain ⟨w, hw⟩ := exists_mem_of_ne_nil _ (h.keywords_ne_nil hne)
    exact iff_of_true rfl ⟨w, hw, .inr nil_prefix⟩
  | cons ch input ih =>
    rw [checkMatch]
    by_cases hl : t.findLeaf.isSome = true
    · rw [if_pos hl]
      exact iff_of_true rfl ⟨[], h.findLeaf_iff.mp hl, .inl nil_prefix⟩
    rw [if_neg hl]
    have hni := mt h.findLeaf_iff.mpr hl
    -- a keyword that may match begins with the character
    have hco : MayMatch t.keywords (ch :: input) ↔
        ∃ w, ch :: w ∈ t.keywords ∧ (w <+: input ∨ input <+: w) := by
      constructor
      · rintro ⟨w, hw, hpr⟩
        cases w with
        | nil => exact absurd hw hni
        | cons c w =>
          rw [cons_prefix_cons, cons_prefix_cons] at hpr
          have hc : c = ch := hpr.elim (fun h => h.1) fun h => h.1.symm
          subst hc
          exact ⟨w, hw, hpr.imp (fun h => h.2) fun h => h.2⟩
      · rintro ⟨w, hw, hpr⟩
        refine ⟨ch :: w, hw, ?_⟩
        rw [cons_prefix_cons, cons_prefix_cons]
        exact hpr.imp (fun h => ⟨rfl, h⟩) fun h => ⟨rfl, h⟩
    rw [hco]
    by_cases hch : ch = 0
    · subst hch
      refine iff_of_false Bool.false_ne_true ?_
      rintro ⟨w, hw, -⟩
      exact h.no_null hw mem_cons_self
    have hfi : t.findChar ch = t.findCharIn ch := if_neg hch
    obtain ⟨hn, hso⟩ := h.findCharIn hch
    rw [hfi]
    cases he : t.findCharIn ch with
    | none =>
      refine iff_of_false Bool.false_ne_true ?_
      rintro ⟨w, hw, -⟩
      exact hn he w hw
    | some e =>
      obtain ⟨hwf, hne', hke⟩ := hso e he
      simp only [ih hwf hne', MayMatch, hke]

end SubstNode
end BengProxy.Istream
