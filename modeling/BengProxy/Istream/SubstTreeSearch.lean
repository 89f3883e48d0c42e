import BengProxy.Istream.SubstTreeKeywords

/-!
# Searching the first character of a keyword

`FindFirstChar` visits the nodes of the top level with the help of the pointers to the parents, and
searches each start character. It is trapped at a node that has two children: when it comes back
from the left one, it starts with the left one again.
-/

namespace BengProxy.Istream

open Base List SubstNode Option

variable {n : List Side}

namespace SubstNode

variable {t : SubstNode}

/-- The nodes of a level, each of them once. -/
def level : SubstNode → List SubstNode
  | .null => []
  | .node ch left right equals leaf =>
    .node ch left right equals leaf :: (left.level ++ right.level)

/-- No node of the level has two children. -/
def Unbranched : SubstNode → Prop
  | .null => True
  | .node _ left right _ _ => (left = .null ∨ right = .null) ∧ left.Unbranched ∧ right.Unbranched

instance decidableUnbranched : (t : SubstNode) → Decidable t.Unbranched
  | .null => .isTrue trivial
  | .node _ left right _ _ =>
    have := left.decidableUnbranched
    have := right.decidableUnbranched
    inferInstanceAs (Decidable (_ ∧ _ ∧ _))

/-- The nodes that the loop over the top level visits; missing if it needs more iterations. -/
def visits (root : SubstNode) : Nat → Option (List Side) → Option (List SubstNode)
  | _, none => some []
  | 0, some _ => none
  | fuel + 1, some n => (visits root fuel (root.nextNonLeafNode n)).map (root.locate n :: ·)

private theorem findFirstCharLoop_eq (root : SubstNode) (data : Text) (fuel : Nat)
    (n : Option (List Side)) (best : Option (SubstNode × Nat)) :
    findFirstCharLoop root data fuel n best =
      (visits root fuel n).map fun nodes => nodes.foldl (checkNode data) best := by
  induction fuel generalizing n best with
  | zero => cases n <;> rfl
  | succ fuel ih =>
    cases n with
    | none => rfl
    | some n =>
      rw [findFirstCharLoop, visits, ih, Option.map_map]
      rfl

variable {root left right equals : SubstNode} {ch : UInt8} {leaf : Option (Text × Text)}

private theorem isInner_eq_false_iff (h : 0 ∉ t.chars) : t.isInner = false ↔ t = .null := by
  cases t with
  | null => exact iff_of_true rfl rfl
  | node ch left right equals leaf =>
    have hch : ch ≠ 0 := by
      rintro rfl
      exact h (by simp [chars])
    simp [isInner, hch]

private theorem locate_induction {p : SubstNode → Prop} (hro : p root)
    (hc : ∀ t side, p t → p (t.child side)) (n : List Side) : p (root.locate n) := by
  induction n with
  | nil => exact hro
  | cons side n ih => exact hc _ side ih

private theorem unbranched_locate (h : root.Unbranched) (n : List Side) :
    (root.locate n).Unbranched := by
  apply locate_induction h
  intro t side ht
  cases t with
  | null => exact ht
  | node => cases side <;> [exact ht.2.1; exact ht.2.2]

private theorem chars_locate (h : 0 ∉ root.chars) (n : List Side) :
    0 ∉ (root.locate n).chars := by
  apply locate_induction (p := fun t => 0 ∉ t.chars) h
  intro t side ht
  cases t with
  | null => exact ht
  | node ch left right equals leaf =>
    rw [chars, mem_append, mem_cons, not_or, not_or] at ht
    cases side <;> [exact ht.1; exact ht.2.2]

private theorem goUp_eq_none (h : root.Unbranched) (hn : root.locate n ≠ .null) :
    root.goUp n = none := by
  induction n with
  | nil => rfl
  | cons side n ih =>
    rw [locate] at hn
    have hpa : root.locate n ≠ .null := by
      intro hnu
      rw [hnu] at hn
      exact hn rfl
    cases side with
    | right => exact ih hpa
    | left =>
      have hu := unbranched_locate h n
      rw [goUp]
      cases hlo : root.locate n with
      | null => exact absurd hlo hpa
      | node ch left right equals leaf =>
        rw [hlo] at hn hu
        have hr : right = .null := hu.1.resolve_left hn
        rw [child, hr, if_neg (by decide), ih hpa]

private theorem visits_unbranched (h : root.Unbranched) (ha : 0 ∉ root.chars)
    (hn : root.locate n ≠ .null) :
    ∃ fuel, visits root fuel (some n) = some (root.locate n).level := by
  have hu := unbranched_locate h n
  have hi := chars_locate ha n
  have hup := goUp_eq_none h hn
  generalize hlo : root.locate n = t at hn hu hi
  induction t generalizing n with
  | null => exact absurd rfl hn
  | node ch left right equals leaf ihl ihr _ =>
    rw [chars, mem_append, mem_cons, not_or, not_or] at hi
    have hle : ((root.locate n).child .left) = left := by rw [hlo]; rfl
    have hri : ((root.locate n).child .right) = right := by rw [hlo]; rfl
    have hsi := hu.1
    by_cases hl : left = .null
    · by_cases hr : right = .null
      · refine ⟨1, ?_⟩
        have hx : root.nextNonLeafNode n = none := by
          rw [nextNonLeafNode, hle, hri, hl, hr, if_neg (by decide), if_neg (by decide), hup]
        rw [visits, hx, hlo, hl, hr]
        rfl
      have hx : root.nextNonLeafNode n = some (.right :: n) := by
        have hin : right.isInner = true := by
          rw [← Bool.not_eq_false, isInner_eq_false_iff hi.2.2]
          exact hr
        rw [nextNonLeafNode, hle, hri, hl, if_neg (by decide), if_pos hin]
      have hc : root.locate (.right :: n) = right := hri
      have hu' : root.goUp (.right :: n) = none := goUp_eq_none h (by rw [hc]; exact hr)
      obtain ⟨fuel, hfu⟩ := ihr hu' hc hr hu.2.2 hi.2.2
      refine ⟨fuel + 1, ?_⟩
      rw [visits, hx, hfu, hlo, hl]
      rfl
    · have hr := hsi.resolve_left hl
      have hx : root.nextNonLeafNode n = some (.left :: n) := by
        have hin : left.isInner = true := by
          rw [← Bool.not_eq_false, isInner_eq_false_iff hi.1]
          exact hl
        rw [nextNonLeafNode, hle, if_pos hin]
      have hc : root.locate (.left :: n) = left := hle
      have hu' : root.goUp (.left :: n) = none := goUp_eq_none h (by rw [hc]; exact hl)
      obtain ⟨fuel, hfu⟩ := ihl hu' hc hl hu.2.1 hi.1
      refine ⟨fuel + 1, ?_⟩
      rw [visits, hx, hfu, hlo, hr, level, level, append_nil]
      rfl

/-- The loop is at a node with two children, or in the left one of its subtrees. -/
def Trapped (branch n : List Side) : Prop :=
  n = branch ∨ ∃ way, n = way ++ .left :: branch

private theorem goUp_trapped {b : List Side}
    (hr : ((root.locate b).child .right).isInner = true) (way : List Side) :
    ∃ n, root.goUp (way ++ .left :: b) = some n ∧ Trapped b n := by
  induction way with
  | nil => exact ⟨b, by rw [nil_append, goUp, if_pos hr], .inl rfl⟩
  | cons side way ih =>
    rw [cons_append]
    cases side with
    | right => exact ih
    | left =>
      rw [goUp]
      split
      · exact ⟨_, rfl, .inr ⟨way, rfl⟩⟩
      · exact ih

private theorem nextNonLeafNode_trapped {b : List Side}
    (hl : ((root.locate b).child .left).isInner = true)
    (hr : ((root.locate b).child .right).isInner = true) (h : Trapped b n) :
    ∃ n', root.nextNonLeafNode n = some n' ∧ Trapped b n' := by
  rw [nextNonLeafNode]
  rcases h with rfl | ⟨way, rfl⟩
  · exact ⟨_, if_pos hl, .inr ⟨[], rfl⟩⟩
  split
  · exact ⟨_, rfl, .inr ⟨.left :: way, rfl⟩⟩
  · split
    · exact ⟨_, rfl, .inr ⟨.right :: way, rfl⟩⟩
    · exact goUp_trapped hr way

private theorem visits_trapped {b : List Side}
    (hl : ((root.locate b).child .left).isInner = true)
    (hr : ((root.locate b).child .right).isInner = true) (fuel : Nat)
    (h : Trapped b n) : visits root fuel (some n) = none := by
  induction fuel generalizing n with
  | zero => rfl
  | succ fuel ih =>
    obtain ⟨n', hn, h'⟩ := nextNonLeafNode_trapped hl hr h
    rw [visits, hn, ih h', map_none]

private theorem visits_branched (ha : 0 ∉ root.chars)
    (h : ¬ (root.locate n).Unbranched) (fuel : Nat) : visits root fuel (some n) = none := by
  have hi := chars_locate ha n
  generalize hlo : root.locate n = t at h hi
  induction t generalizing n fuel with
  | null => exact absurd trivial h
  | node ch left right equals leaf ihl ihr _ =>
    rw [chars, mem_append, mem_cons, not_or, not_or] at hi
    have hle : (root.locate n).child .left = left := by rw [hlo]; rfl
    have hri : (root.locate n).child .right = right := by rw [hlo]; rfl
    have hin {t : SubstNode} (ht : 0 ∉ t.chars) (hne : t ≠ .null) : t.isInner = true := by
      rw [← Bool.not_eq_false, isInner_eq_false_iff ht]
      exact hne
    by_cases hl : left = .null
    · have hr : ¬ right.Unbranched := fun hr => h ⟨.inl hl, by rw [hl]; trivial, hr⟩
      have hne : right ≠ .null := by
        rintro rfl
        exact hr trivial
      have hc : root.locate (.right :: n) = right := hri
      cases fuel with
      | zero => rfl
      | succ fuel =>
        rw [visits, nextNonLeafNode, hle, hri, hl, if_neg (by decide),
          if_pos (hin hi.2.2 hne), ihr fuel hc hr hi.2.2, map_none]
    by_cases hr : right = .null
    · have hl' : ¬ left.Unbranched := fun hl' => h ⟨.inr hr, hl', by rw [hr]; trivial⟩
      have hc : root.locate (.left :: n) = left := hle
      cases fuel with
      | zero => rfl
      | succ fuel =>
        rw [visits, nextNonLeafNode, hle, if_pos (hin hi.1 hl), ihl fuel hc hl' hi.1, map_none]
    · apply visits_trapped _ _ fuel (.inl rfl)
      · rw [hle]
        exact hin hi.1 hl
      · rw [hri]
        exact hin hi.2.2 hr

/-- The first position, from `start` on and before the limit, if there is one. -/
def FirstFrom (hit : Nat → Prop) (start : Nat) (limit : Option Nat) : Option Nat → Prop
  | some p => hit p ∧ (∀ m ∈ limit, p < m) ∧ ∀ q, start ≤ q → q < p → ¬ hit q
  | none => ∀ q, start ≤ q → (∀ m ∈ limit, q < m) → ¬ hit q

private theorem FirstFrom.behind {hit : Nat → Prop} {s : Nat} {l result : Option Nat}
    (hst : ¬ hit s) (h : FirstFrom hit (s + 1) l result) :
    FirstFrom hit s l result := by
  have hb {q : Nat} (hq : s ≤ q) : q = s ∨ s + 1 ≤ q := by omega
  cases result with
  | none =>
    intro q hq hli
    rcases hb hq with rfl | hq
    · exact hst
    · exact h q hq hli
  | some p =>
    refine ⟨h.1, h.2.1, ?_⟩
    intro q hq hlt
    rcases hb hq with rfl | hq
    · exact hst
    · exact h.2.2 q hq hlt

/-- The start character is at this position, and the rest may match. -/
def Hits (data : Text) (ch : UInt8) (equals : SubstNode) (position : Nat) : Prop :=
  data[position]? = some ch ∧ equals.checkMatch (data.drop (position + 1)) = true

private theorem findInstance_spec (ch : UInt8) (equals : SubstNode) (min : Option Nat)
    (data : Text) :
    ∀ (rest : Text) (position : Nat), rest = data.drop position →
      FirstFrom (Hits data ch equals) position min
        (findInstance ch equals min rest position) := by
  intro rest
  induction rest with
  | nil =>
    intro position hr q hq _ hh
    have hl := drop_eq_nil_iff.mp hr.symm
    obtain ⟨hlt, -⟩ := List.getElem?_eq_some_iff.mp hh.1
    omega
  | cons c rest ih =>
    intro position hr
    have hg : data[position]? = some c := by
      rw [← Nat.add_zero position, ← getElem?_drop, ← hr]
      rfl
    have hd : rest = data.drop (position + 1) := by
      rw [← drop_drop, ← hr]
      rfl
    have han : (min.any fun min => min ≤ position) = true ↔ ∃ m ∈ min, m ≤ position := by
      cases min <;> simp
    rw [findInstance]
    by_cases hc : c = ch
    · rw [if_neg (not_not_intro hc)]
      by_cases hmi : (min.any fun min => min ≤ position) = true
      · rw [if_pos hmi]
        intro q hq hli
        obtain ⟨m, hm, hle⟩ := han.mp hmi
        have hlt := hli m hm
        omega
      rw [if_neg hmi]
      by_cases he : equals.checkMatch rest = true
      · rw [if_pos he]
        refine ⟨⟨by rw [hg, hc], by rw [← hd]; exact he⟩, ?_, ?_⟩
        · intro m hm
          by_contra hle
          exact hmi (han.mpr ⟨m, hm, by omega⟩)
        · intro q hq hlt
          omega
      · rw [if_neg he]
        refine (ih (position + 1) hd).behind ?_
        rintro ⟨-, hc'⟩
        rw [← hd] at hc'
        exact he hc'
    · rw [if_pos hc]
      refine (ih (position + 1) hd).behind ?_
      rintro ⟨hg', -⟩
      rw [hg] at hg'
      exact hc (some.inj hg')

/-- Some node of the list has its start character at this position, and the rest may match. -/
def AnyHits (data : Text) (nodes : List SubstNode) (position : Nat) : Prop :=
  ∃ ch left right equals leaf, node ch left right equals leaf ∈ nodes ∧ Hits data ch equals position

/-- The best match of some nodes: the first position, and the node behind the start character. -/
def BestOf (data : Text) (nodes : List SubstNode) : Option (SubstNode × Nat) → Prop
  | none => ∀ q, ¬ AnyHits data nodes q
  | some (equals, p) =>
    (∃ ch left right leaf, node ch left right equals leaf ∈ nodes ∧
      Hits data ch equals p) ∧ ∀ q < p, ¬ AnyHits data nodes q

private theorem anyHits_append {data : Text} {no : List SubstNode} {q : Nat} :
    AnyHits data (no ++ [.node ch left right equals leaf]) q ↔
      AnyHits data no q ∨ Hits data ch equals q := by
  constructor
  · rintro ⟨ch', left', right', equals', leaf', hme, hh⟩
    rw [mem_append, mem_singleton] at hme
    rcases hme with hme | he
    · exact .inl ⟨ch', left', right', equals', leaf', hme, hh⟩
    · cases he
      exact .inr hh
  · rintro (⟨ch', left', right', equals', leaf', hme, hh⟩ | hh)
    · exact ⟨ch', left', right', equals', leaf', mem_append_left _ hme, hh⟩
    · exact ⟨ch, left, right, equals, leaf, by simp, hh⟩

private theorem BestOf.checkNode {data : Text} {no : List SubstNode}
    {best : Option (SubstNode × Nat)}
    (h : BestOf data no best) :
    BestOf data (no ++ [.node ch left right equals leaf])
      (checkNode data best (.node ch left right equals leaf)) := by
  have hfi := findInstance_spec ch equals (best.map Prod.snd) data data 0 rfl
  rw [SubstNode.checkNode]
  cases hf : findInstance ch equals (best.map Prod.snd) data 0 with
  | some p =>
    rw [hf] at hfi
    obtain ⟨hh, hli, hb⟩ := hfi
    refine ⟨⟨ch, left, right, leaf, by simp, hh⟩, ?_⟩
    intro q hq
    rw [anyHits_append, not_or]
    refine ⟨?_, hb q (Nat.zero_le q) hq⟩
    -- the best position so far is behind
    cases best with
    | none => exact h q
    | some best => exact h.2 q (Nat.lt_trans hq (hli best.2 rfl))
  | none =>
    rw [hf] at hfi
    cases best with
    | none =>
      intro q
      rw [anyHits_append, not_or]
      refine ⟨h q, hfi q (Nat.zero_le q) ?_⟩
      rintro m ⟨⟩
    | some best =>
      obtain ⟨⟨ch', left', right', leaf', hme, hh⟩, hb⟩ := h
      refine ⟨⟨ch', left', right', leaf', mem_append_left _ hme, hh⟩, ?_⟩
      intro q hq
      rw [anyHits_append, not_or]
      refine ⟨hb q hq, hfi q (Nat.zero_le q) ?_⟩
      rintro m ⟨⟩
      exact hq

private theorem bestOf_level (data : Text) (t : SubstNode) :
    BestOf data t.level (t.level.foldl (checkNode data) none) := by
  have hfo (more : List SubstNode) (hm : .null ∉ more) : ∀ {nodes : List SubstNode}
      {best : Option (SubstNode × Nat)}, BestOf data nodes best →
        BestOf data (nodes ++ more) (more.foldl (checkNode data) best) := by
    induction more with
    | nil =>
      intro nodes best h
      rw [append_nil]
      exact h
    | cons n more ih =>
      intro nodes best h
      rw [mem_cons, not_or] at hm
      rw [append_cons]
      cases n with
      | null => exact absurd rfl hm.1
      | node => exact ih hm.2 h.checkNode
  have hnu : .null ∉ t.level := by
    induction t with
    | null => exact not_mem_nil
    | node ch left right equals leaf ihl ihr _ => simp [level, ihl, ihr]
  have hn : BestOf data [] none := by
    rintro q ⟨ch, left, right, equals, leaf, hme, -⟩
    cases hme
  exact hfo t.level hnu hn

private theorem mem_chars_of_mem_level (h : node ch left right equals leaf ∈ t.level) :
    ch ∈ t.chars := by
  induction t with
  | null => cases h
  | node c l r e lf ihl ihr _ =>
    rw [level, mem_cons, mem_append] at h
    rw [chars, mem_append, mem_cons]
    rcases h with he | h | h
    · cases he
      exact .inr (.inl rfl)
    · exact .inl (ihl h)
    · exact .inr (.inr (ihr h))

private theorem Wf.findCharIn_iff (h : t.Wf) :
    t.findCharIn ch = some equals ↔
      ∃ left right leaf, SubstNode.node ch left right equals leaf ∈ t.level := by
  induction h with
  | null => simp [SubstNode.findCharIn, level]
  | @node c l r e lf _ _ _ _ less greater ihl ihr _ =>
    have hl {left right : SubstNode} {leaf : Option (Text × Text)}
        (hme : SubstNode.node ch left right equals leaf ∈ l.level) :
        charValue ch < charValue c := less ch (mem_chars_of_mem_level hme)
    have hr {left right : SubstNode} {leaf : Option (Text × Text)}
        (hme : SubstNode.node ch left right equals leaf ∈ r.level) :
        charValue c < charValue ch := greater ch (mem_chars_of_mem_level hme)
    rw [SubstNode.findCharIn]
    simp only [level, mem_cons, mem_append, SubstNode.node.injEq]
    by_cases hc : c = ch
    · subst hc
      rw [if_pos rfl, Option.some.injEq]
      constructor
      · rintro rfl
        exact ⟨l, r, lf, .inl ⟨rfl, rfl, rfl, rfl, rfl⟩⟩
      · rintro ⟨left, right, leaf, he | hme | hme⟩
        · exact he.2.2.2.1.symm
        · exact absurd (hl hme) (Int.lt_irrefl _)
        · exact absurd (hr hme) (Int.lt_irrefl _)
    rw [if_neg hc]
    by_cases hlt : charValue ch < charValue c
    · rw [if_pos hlt, ihl]
      constructor
      · rintro ⟨left, right, leaf, hme⟩
        exact ⟨left, right, leaf, .inr (.inl hme)⟩
      · rintro ⟨left, right, leaf, he | hme | hme⟩
        · exact absurd he.1.symm hc
        · exact ⟨left, right, leaf, hme⟩
        · exact absurd (hr hme) (Int.not_lt.mpr (Int.le_of_lt hlt))
    rw [if_neg hlt, ihr]
    constructor
    · rintro ⟨left, right, leaf, hme⟩
      exact ⟨left, right, leaf, .inr (.inr hme)⟩
    · rintro ⟨left, right, leaf, he | hme | hme⟩
      · exact absurd he.1.symm hc
      · exact absurd (hl hme) hlt
      · exact ⟨left, right, leaf, hme⟩

private theorem Wf.mayMatch_iff (h : root.Wf) (ha : 0 ∉ root.chars) {data : Text} {p : Nat}
    (hp : p < data.length) :
    MayMatch root.keywords (data.drop p) ↔ AnyHits data root.level p := by
  have hd : data.drop p = data[p] :: data.drop (p + 1) := drop_eq_getElem_cons hp
  have hg : data[p]? = some data[p] := getElem?_eq_getElem hp
  constructor
  · rintro ⟨w, hw, hpr⟩
    have hh := head_mem_chars hw
    cases w with
    | nil => exact absurd hh ha
    | cons c w =>
      rw [hd, cons_prefix_cons, cons_prefix_cons] at hpr
      have hc : c = data[p] := hpr.elim (fun h => h.1) fun h => h.1.symm
      have hne : c ≠ 0 := fun hz => ha (hz ▸ hh)
      obtain ⟨hn, hso⟩ := h.findCharIn hne
      cases hfi : root.findCharIn c with
      | none => exact absurd hw (hn hfi w)
      | some e =>
        obtain ⟨hwf, hnu, hke⟩ := hso e hfi
        obtain ⟨left, right, leaf, hme⟩ := h.findCharIn_iff.mp hfi
        refine ⟨c, left, right, e, leaf, hme, by rw [hg, hc], ?_⟩
        rw [hwf.checkMatch_iff hnu]
        exact ⟨w, (hke w).mpr hw, hpr.imp (fun h => h.2) fun h => h.2⟩
  · rintro ⟨ch, left, right, e, leaf, hme, hat, he⟩
    have hch : data[p] = ch := Option.some.inj (hg.symm.trans hat)
    have hne : ch ≠ 0 := fun hz => ha (hz ▸ mem_chars_of_mem_level hme)
    have hfi : root.findCharIn ch = some e := h.findCharIn_iff.mpr ⟨left, right, leaf, hme⟩
    obtain ⟨hwf, hnu, hke⟩ := (h.findCharIn hne).2 e hfi
    rw [hwf.checkMatch_iff hnu] at he
    obtain ⟨w, hw, hpr⟩ := he
    refine ⟨ch :: w, (hke w).mp hw, ?_⟩
    rw [hd, hch, cons_prefix_cons, cons_prefix_cons]
    exact hpr.imp (fun h => ⟨rfl, h⟩) fun h => ⟨rfl, h⟩

/-- The first position where one of the words may be, with the node behind its first character. -/
def IsFirst (root : SubstNode) (words : List Text) (data : Text) :
    Option (SubstNode × Nat) → Prop
  | none => ∀ q < data.length, ¬ MayMatch words (data.drop q)
  | some (n, p) => p < data.length ∧ MayMatch words (data.drop p) ∧
      (∀ q < p, ¬ MayMatch words (data.drop q)) ∧
      ∃ ch, data[p]? = some ch ∧ root.findChar ch = some n

private theorem Wf.isFirst (h : root.Wf) (hc : 0 ∉ root.chars) {data : Text}
    {best : Option (SubstNode × Nat)} (hb : BestOf data root.level best) :
    IsFirst root root.keywords data best := by
  cases best with
  | none =>
    intro q hq
    rw [h.mayMatch_iff hc hq]
    exact hb q
  | some best =>
    obtain ⟨⟨ch, left, right, leaf, hme, hh⟩, hbe⟩ := hb
    obtain ⟨hlt, -⟩ := List.getElem?_eq_some_iff.mp hh.1
    refine ⟨hlt, ?_, ?_, ch, hh.1, ?_⟩
    · rw [h.mayMatch_iff hc hlt]
      exact ⟨ch, left, right, best.1, leaf, hme, hh⟩
    · intro q hq
      rw [h.mayMatch_iff hc (Nat.lt_trans hq hlt)]
      exact hbe q hq
    · have hne : ch ≠ 0 := fun hz => hc (hz ▸ mem_chars_of_mem_level hme)
      rw [findChar, if_neg hne]
      exact h.findCharIn_iff.mpr ⟨left, right, leaf, hme⟩

end SubstNode

/-- A tree, and the keywords that were accepted. -/
structure SubstKeywords where
  root : SubstNode
  words : List Text

/-- Add a keyword `a` with its substitution `b`. -/
def SubstKeywords.add (s : SubstKeywords) (a b : Text) : SubstKeywords :=
  let result := s.root.add a b
  ⟨result.2, if result.1 then a :: s.words else s.words⟩

/-- Add some keywords to an empty tree. -/
def SubstKeywords.ofList (pairs : List (Text × Text)) : SubstKeywords :=
  pairs.foldl (fun s pair => s.add pair.1 pair.2) ⟨.null, []⟩

open SubstNode

namespace SubstKeywords

/-- The tree is in order, has no leaf at the top level, and has the keywords that were accepted. -/
structure Inv (s : SubstKeywords) : Prop where
  wf : s.root.Wf
  top : 0 ∉ s.root.chars
  words : ∀ w, w ∈ s.root.keywords ↔ w ∈ s.words

private theorem Inv.add {s : SubstKeywords} (h : s.Inv) {a : Text} (ha : a ≠ []) (hnu : 0 ∉ a)
    (b : Text) : (s.add a b).Inv := by
  cases hi : s.root.insert a b a with
  | none =>
    have had : s.add a b = s := by simp [SubstKeywords.add, SubstNode.add, hi]
    rw [had]
    exact h
  | some root =>
    have had : s.add a b = ⟨root, a :: s.words⟩ := by
      simp [SubstKeywords.add, SubstNode.add, hi]
    rw [had]
    refine ⟨h.wf.insert hnu hi, ?_, ?_⟩
    · intro hz
      rcases mem_chars_insert hi hz with hz | hz
      · exact h.top hz
      · cases a with
        | nil => exact ha rfl
        | cons c a => exact hnu (hz ▸ mem_cons_self)
    · intro w
      have hme := mem_keywords_insert (w := w) hnu hi
      rw [hme, h.words, mem_cons, or_comm]

private theorem Inv.ofList {p : List (Text × Text)}
    (h : ∀ pair ∈ p, pair.1 ≠ [] ∧ 0 ∉ pair.1) : (ofList p).Inv := by
  have hfo (p : List (Text × Text)) (h : ∀ pair ∈ p, pair.1 ≠ [] ∧ 0 ∉ pair.1) :
      ∀ {s : SubstKeywords}, s.Inv → (p.foldl (fun s pair => s.add pair.1 pair.2) s).Inv := by
    induction p with
    | nil => exact fun hs => hs
    | cons pair p ih =>
      intro s hs
      rw [forall_mem_cons] at h
      exact ih h.2 (hs.add h.1.1 h.1.2 pair.2)
  exact hfo p h ⟨.null, not_mem_nil, fun w => Iff.rfl⟩

end SubstKeywords

private theorem findFirstChar_unbranched {s : SubstKeywords} (h : s.Inv) (hro : s.root.Unbranched)
    (data : Text) : ∃ fuel result, s.root.findFirstChar data fuel = some result ∧
      IsFirst s.root s.words data result := by
  have hw {result : Option (SubstNode × Nat)} (hfi : IsFirst s.root s.root.keywords data result) :
      IsFirst s.root s.words data result := by
    cases result <;> simpa only [IsFirst, MayMatch, h.words] using hfi
  have hb := hw (h.wf.isFirst h.top (bestOf_level data s.root))
  by_cases hnu : s.root = .null
  · refine ⟨0, none, ?_, ?_⟩
    · rw [findFirstChar, if_pos hnu, findFirstCharLoop]
    · rwa [hnu, level, foldl_nil] at hb
  · obtain ⟨fuel, hv⟩ := visits_unbranched (n := []) hro h.top hnu
    refine ⟨fuel, _, ?_, hb⟩
    rw [findFirstChar, if_neg hnu, findFirstCharLoop_eq, hv]
    rfl

private theorem findFirstChar_branched {s : SubstKeywords} (h : s.Inv) (hro : ¬ s.root.Unbranched)
    (data : Text) (fuel : Nat) : s.root.findFirstChar data fuel = none := by
  have hnu : s.root ≠ .null := by
    intro hnu
    rw [hnu] at hro
    exact hro trivial
  rw [findFirstChar, if_neg hnu, findFirstCharLoop_eq, visits_branched (n := []) h.top hro,
    map_none]

/-- For every tree that is built from keywords, and every input, the search ends with the first
position where a keyword may be if and only if no node of the top level has two children. Exactly
then the loop visits each node of the top level once. -/
theorem findFirstChar_iff {pairs : List (Text × Text)}
    (h : ∀ pair ∈ pairs, pair.1 ≠ [] ∧ 0 ∉ pair.1) (data : Text) :
    let s := SubstKeywords.ofList pairs
    ((∃ fuel result, s.root.findFirstChar data fuel = some result ∧
        IsFirst s.root s.words data result) ↔ s.root.Unbranched) ∧
      (s.root ≠ .null →
        ((∃ fuel, visits s.root fuel (some []) = some s.root.level) ↔ s.root.Unbranched)) := by
  intro s
  have hi : s.Inv := .ofList h
  refine ⟨⟨?_, fun hro => findFirstChar_unbranched hi hro data⟩, fun hnu => ⟨?_, ?_⟩⟩
  · rintro ⟨fuel, result, hre, -⟩
    by_contra hro
    rw [findFirstChar_branched hi hro data fuel] at hre
    cases hre
  · rintro ⟨fuel, hv⟩
    by_contra hro
    rw [visits_branched (n := []) hi.top hro] at hv
    cases hv
  · exact fun hro => visits_unbranched (n := []) hro hi.top hnu

/-- Three keywords, each with a greater first character than the one before. -/
theorem findFirstChar_chain :
    ∃ fuel result, (SubstKeywords.ofList [(Text.ascii "a", []), (Text.ascii "b", []),
        (Text.ascii "c", [])]).root.findFirstChar (Text.ascii "xcb") fuel = some result ∧
      IsFirst (SubstKeywords.ofList [(Text.ascii "a", []), (Text.ascii "b", []),
        (Text.ascii "c", [])]).root (SubstKeywords.ofList [(Text.ascii "a", []),
          (Text.ascii "b", []), (Text.ascii "c", [])]).words (Text.ascii "xcb") result :=
  (findFirstChar_iff (by decide) (Text.ascii "xcb")).1.mpr (by decide)

/-- The first character of the second keyword is less than that of the first one, and that of the
third one is greater: the search does not end. -/
theorem findFirstChar_endless :
    ¬ ∃ fuel result, (SubstKeywords.ofList [(Text.ascii "b", []), (Text.ascii "a", []),
      (Text.ascii "c", [])]).root.findFirstChar (Text.ascii "xcb") fuel = some result := by
  rintro ⟨fuel, result, hre⟩
  rw [findFirstChar_branched (.ofList (by decide)) (by decide)] at hre
  cases hre

end BengProxy.Istream
