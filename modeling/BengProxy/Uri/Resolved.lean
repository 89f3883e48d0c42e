import BengProxy.Uri.Compress

/-!
# What compressing does to the segments of a path

Each pass of `uri_compress()` is an operation on the list of segments. Together they resolve the
path, unless it is relative and climbs above its start: then the code forgets how often. Two more
relative paths are not resolved: the path `"."` itself, and one that has a slash behind its leading
`"./"`.
-/

namespace BengProxy.Uri

open Base Text Separated List

variable {uri : Text}

/-- A segment that is a name. -/
structure IsName (x : Text) : Prop where
  ne_nil : x ≠ []
  ne_dot : x ≠ dot
  ne_dotDot : x ≠ dotDot

variable {d segs us vs : List Text} {a l x : Text}

private theorem resolveFrom_skip (h : x = [] ∨ x = dot) (d rest : List Text) :
    resolveFrom d (x :: rest) = resolveFrom d rest := by
  rw [resolveFrom, if_pos h]

private theorem IsName.resolveFrom (h : IsName x) (d rest : List Text) :
    Uri.resolveFrom d (x :: rest) = Uri.resolveFrom (x :: d) rest := by
  have hsk : ¬ (x = [] ∨ x = dot) := by
    rintro (hx | hx)
    · exact h.ne_nil hx
    · exact h.ne_dot hx
  rw [Uri.resolveFrom, if_neg hsk, if_neg h.ne_dotDot]

private theorem resolveFrom_append (d us vs : List Text) :
    resolveFrom d (us ++ vs) = (resolveFrom d us).bind fun e => resolveFrom e.reverse vs := by
  induction us generalizing d with
  | nil => rw [nil_append, resolveFrom, Option.bind_some, reverse_reverse]
  | cons u us ih =>
    rw [cons_append, resolveFrom, resolveFrom]
    split
    · exact ih d
    split
    · rw [Option.bind_assoc]
      congr 1
      funext parent
      exact ih parent
    · exact ih (u :: d)

private theorem resolveFrom_cancel (h : IsName x) (d us vs : List Text) :
    resolveFrom d (us ++ x :: dotDot :: vs) = resolveFrom d (us ++ vs) := by
  rw [resolveFrom_append, resolveFrom_append]
  congr 1
  funext e
  rw [h.resolveFrom, resolveFrom, if_neg (by decide), if_pos rfl, parentOf, Option.bind_some]

private theorem resolveFrom_names (h : ∀ x ∈ us, IsName x) (d : List Text) :
    resolveFrom d us = some (d.reverse ++ us) := by
  induction us generalizing d with
  | nil => rw [resolveFrom, append_nil]
  | cons u us ih =>
    rw [(h u mem_cons_self).resolveFrom, ih fun y hy => h y (mem_cons_of_mem u hy),
      reverse_cons, append_assoc, singleton_append]

private theorem resolveFrom_filter {t : Text} (h : t = [] ∨ t = dot) (d us : List Text) :
    resolveFrom d (us.filter (· ≠ t)) = resolveFrom d us := by
  induction us generalizing d with
  | nil => rfl
  | cons u us ih =>
    by_cases hu : u = t
    · rw [filter_cons_of_neg (by simpa using hu), ih, resolveFrom_skip (hu ▸ h)]
    rw [filter_cons_of_pos (by simpa using hu), resolveFrom, resolveFrom]
    split
    · exact ih d
    split
    · congr 1
      funext parent
      exact ih parent
    · exact ih (u :: d)

/-- No segment has a slash. -/
def SlashFree (segs : List Text) : Prop := ∀ x ∈ segs, slash ∉ x

private theorem eliminate_join {t : Text} (ht : slash ∉ t) (ha : slash ∉ a) (n : Nat) :
    ∀ {segs : List Text}, segs.length ≤ n → SlashFree segs →
      eliminate t (join slash (a :: segs)) = join slash (a :: removeInner t segs) := by
  induction n with
  | zero =>
    intro segs hn hfr
    obtain rfl : segs = [] := eq_nil_of_length_eq_zero (Nat.le_zero.mp hn)
    rw [eliminate]
    split
    · rfl
    next before after hfi =>
      rw [find_join ht ha hfr] at hfi
      cases hfi
  | succ n ih =>
    intro segs hn hfr
    rw [eliminate]
    split
    next hfi =>
      rw [find_join ht ha hfr, Option.map_eq_none_iff] at hfi
      rw [removeInner_of_not_mem (not_mem_of_cutInner hfi)]
    next before after hfi =>
      rw [find_join ht ha hfr, Option.map_eq_some_iff] at hfi
      obtain ⟨⟨us, vs⟩, hc, he⟩ := hfi
      cases he
      obtain ⟨hse, hv, -⟩ := eq_of_cutInner hc
      have hle : (us ++ vs).length ≤ n := by
        rw [hse] at hn
        simp only [length_append, length_cons] at hn ⊢
        omega
      have hf' : SlashFree (us ++ vs) := by
        intro x hx
        apply hfr
        rw [hse]
        rw [mem_append] at hx ⊢
        exact hx.imp_right (mem_cons_of_mem t)
      rw [removeInner_of_cutInner hc, ← ih hle hf', ← join_append slash
        (cons_ne_nil a us) hv, cons_append]

/-- Backtracking goes to the end of the parent directory. -/
theorem backtrack_join (hx : slash ∉ x) (us : List Text) :
    backtrack (join slash (us ++ [x])) = if us = [] then [] else join slash us ++ [slash] := by
  unfold backtrack
  by_cases hu : us = []
  · subst hu
    rw [if_pos rfl, nil_append, join, findLast_eq_none hx]
  · rw [if_neg hu, findLast_join hx hu]

private theorem eliminateParents_join (ha : slash ∉ a) (hfr : SlashFree segs) :
    eliminateParents (join slash (a :: segs)) = match cutInner dotDot segs with
      | none => some (join slash (a :: segs))
      | some (us, vs) =>
        if us = [] then if a = [] then none else eliminateParents (join slash vs)
        else eliminateParents (join slash (a :: us.dropLast ++ vs)) := by
  have hd : slash ∉ dotDot := by decide
  rw [eliminateParents]
  split
  next hfi =>
    rw [find_join hd ha hfr, Option.map_eq_none_iff] at hfi
    rw [hfi]
  next before after hfi =>
    rw [find_join hd ha hfr, Option.map_eq_some_iff] at hfi
    obtain ⟨⟨us, vs⟩, hc, he⟩ := hfi
    cases he
    obtain ⟨hse, hv, -⟩ := eq_of_cutInner hc
    rw [hc]
    simp only
    rcases eq_nil_or_concat us with rfl | ⟨us', u, rfl⟩
    · rw [if_pos rfl, join]
      by_cases hni : a = []
      · rw [if_pos hni, if_pos hni]
      · have hb := backtrack_join ha []
        change backtrack a = [] at hb
        rw [if_neg hni, if_neg hni, hb, nil_append]
    rw [concat_eq_append] at hse hc ⊢
    have hu : slash ∉ u := by
      apply hfr
      rw [hse]
      simp
    have hb := backtrack_join hu (a :: us')
    rw [if_neg (cons_ne_nil a us'), cons_append] at hb
    have hne : join slash (a :: (us' ++ [u])) ≠ [] := by
      rw [join_cons slash a (by simp)]
      simp
    rw [if_neg hne, if_neg (by simp), hb, dropLast_concat, append_assoc,
      singleton_append, ← join_append slash (cons_ne_nil a us') hv]

/-- A segment that is not lost when the path is resolved. -/
structure Kept (x : Text) : Prop where
  no_slash : slash ∉ x
  ne_nil : x ≠ []
  ne_dot : x ≠ dot

-- the cut is never behind the last segment
private theorem cut_concat {ws : List Text} (h : cutInner dotDot (ws ++ [l]) = some (us, vs)) :
    ∃ vs', vs = vs' ++ [l] ∧ ws = us ++ dotDot :: vs' ∧ dotDot ∉ us := by
  obtain ⟨he, hv, hn⟩ := eq_of_cutInner h
  rcases eq_nil_or_concat vs with rfl | ⟨vs', v, rfl⟩
  · exact absurd rfl hv
  rw [concat_eq_append] at he ⊢
  have hap : ws ++ [l] = us ++ dotDot :: vs' ++ [v] := by
    rw [he, append_assoc, cons_append]
  obtain ⟨hw, hl⟩ := append_inj' hap rfl
  cases hl
  exact ⟨vs', rfl, hw, hn⟩

private theorem slashFree_concat {ws : List Text} (h : ∀ x ∈ ws, Kept x) (hl : slash ∉ l) :
    SlashFree (ws ++ [l]) := by
  intro x hx
  rw [mem_append, mem_singleton] at hx
  rcases hx with hx | rfl
  · exact (h x hx).no_slash
  · exact hl

private theorem eliminateParents_absolute (hl : slash ∉ l) (n : Nat) :
    ∀ {ws : List Text}, ws.length ≤ n → (∀ x ∈ ws, Kept x) →
      eliminateParents (join slash ([] :: (ws ++ [l]))) =
        (resolveFrom [] ws).map fun e => join slash ([] :: (e ++ [l])) := by
  induction n with
  | zero =>
    intro ws hn hke
    obtain rfl : ws = [] := eq_nil_of_length_eq_zero (Nat.le_zero.mp hn)
    rw [eliminateParents_join not_mem_nil (slashFree_concat hke hl)]
    rfl
  | succ n ih =>
    intro ws hn hke
    rw [eliminateParents_join not_mem_nil (slashFree_concat hke hl)]
    cases hc : cutInner dotDot (ws ++ [l]) with
    | none =>
      have ht := not_mem_of_cutInner hc
      rw [dropLast_concat] at ht
      have hna : ∀ x ∈ ws, IsName x := fun x hx =>
        ⟨(hke x hx).ne_nil, (hke x hx).ne_dot, fun he => ht (he ▸ hx)⟩
      rw [resolveFrom_names hna]
      rfl
    | some parts =>
      obtain ⟨us, vs⟩ := parts
      obtain ⟨vs', rfl, rfl, ht⟩ := cut_concat hc
      simp only
      rcases eq_nil_or_concat us with rfl | ⟨us', u, rfl⟩
      · rw [if_pos rfl, if_pos trivial, nil_append, resolveFrom, if_neg (by decide)]
        rfl
      rw [concat_eq_append] at ht hke hn ⊢
      have hu := hke u (by simp)
      have hm : IsName u := ⟨hu.ne_nil, hu.ne_dot, fun he => ht (by simp [he])⟩
      have hk' : ∀ x ∈ us' ++ vs', Kept x := by
        intro x hx
        apply hke
        rw [mem_append] at hx
        rcases hx with hx | hx <;> simp [hx]
      rw [if_neg (by simp), dropLast_concat, cons_append, ← append_assoc,
        ih (by simp only [length_append, length_cons] at hn ⊢; omega) hk',
        append_assoc us' [u], singleton_append, resolveFrom_cancel hm]

private theorem eliminateParents_relative (hl : slash ∉ l) (n : Nat) :
    ∀ {ws : List Text}, ws.length ≤ n → (∀ x ∈ ws, Kept x) →
      ∃ ws', eliminateParents (join slash (ws ++ [l])) = some (join slash (ws' ++ [l])) ∧
        (∀ x ∈ ws', Kept x) ∧ ∀ e, resolveFrom [] ws = some e → ws' = e := by
  induction n with
  | zero =>
    intro ws hn hke
    obtain rfl : ws = [] := eq_nil_of_length_eq_zero (Nat.le_zero.mp hn)
    refine ⟨[], ?_, hke, fun e he => Option.some.inj he⟩
    rw [nil_append, eliminateParents_join hl (fun x hx => absurd hx not_mem_nil)]
    rfl
  | succ n ih =>
    intro ws hn hke
    cases ws with
    | nil => exact ih (Nat.zero_le n) hke
    | cons a ws =>
      have ha := hke a mem_cons_self
      have hw : ∀ x ∈ ws, Kept x := fun x hx => hke x (mem_cons_of_mem a hx)
      -- a path that does not climb does not begin with ".."
      have hfi {rest e : List Text} (he : resolveFrom [] (a :: rest) = some e) : IsName a := by
        refine ⟨ha.ne_nil, ha.ne_dot, ?_⟩
        rintro rfl
        cases he
      rw [cons_append, eliminateParents_join ha.no_slash (slashFree_concat hw hl)]
      cases hc : cutInner dotDot (ws ++ [l]) with
      | none =>
        have ht := not_mem_of_cutInner hc
        rw [dropLast_concat] at ht
        refine ⟨a :: ws, rfl, hke, ?_⟩
        intro e he
        have hm : ∀ x ∈ a :: ws, IsName x := by
          intro x hx
          rw [mem_cons] at hx
          rcases hx with rfl | hx
          · exact hfi he
          · exact ⟨(hw x hx).ne_nil, (hw x hx).ne_dot, fun heq => ht (heq ▸ hx)⟩
        rw [resolveFrom_names hm] at he
        exact Option.some.inj he
      | some parts =>
        obtain ⟨us, vs⟩ := parts
        obtain ⟨vs', rfl, rfl, ht⟩ := cut_concat hc
        simp only
        rcases eq_nil_or_concat us with rfl | ⟨us', u, rfl⟩
        · rw [if_neg ha.ne_nil]
          have hle : vs'.length ≤ n := by
            simp only [nil_append, length_cons] at hn
            omega
          obtain ⟨ws', hw', hk', hre⟩ := ih hle fun x hx => hw x (by simp [hx])
          refine ⟨ws', hw', hk', ?_⟩
          intro e he
          apply hre
          have hca := resolveFrom_cancel (hfi he) [] [] vs'
          rw [nil_append, nil_append] at hca
          rw [← hca]
          exact he
        rw [concat_eq_append] at ht hw hn ⊢
        have hu := hw u (by simp)
        have hna : IsName u := ⟨hu.ne_nil, hu.ne_dot, fun heq => ht (by simp [heq])⟩
        rw [if_neg (by simp), dropLast_concat, ← append_assoc]
        have hle : (a :: us' ++ vs').length ≤ n := by
          simp only [length_append, length_cons] at hn ⊢
          omega
        have hr : ∀ x ∈ a :: us' ++ vs', Kept x := by
          intro x hx
          rw [cons_append, mem_cons, mem_append] at hx
          rcases hx with rfl | hx | hx
          · exact ha
          · exact hw x (by simp [hx])
          · exact hw x (by simp [hx])
        obtain ⟨ws', hw', hk', hre⟩ := ih hle hr
        refine ⟨ws', hw', hk', ?_⟩
        intro e he
        apply hre
        rw [← resolveFrom_cancel hna, ← he]
        simp

variable (absolute : Bool)

/-- The empty segment before the leading slash of an absolute path. -/
def root : List Text := if absolute then [[]] else []

private theorem render_directory (e : List Text) : render absolute true e =
      if root absolute ++ e = [] then [] else join slash (root absolute ++ e) ++ [slash] := by
  cases absolute with
  | true | false =>
    cases e with
    | nil => rfl
    | cons x e => rfl

private theorem render_file (e : List Text) (l : Text) :
    render absolute false (e ++ [l]) = join slash (root absolute ++ e ++ [l]) := by
  unfold render root
  cases absolute with
  | true =>
    simp only [Bool.false_and, Bool.false_eq_true, if_false, append_nil]
    exact (join_cons slash [] (by simp)).symm
  | false => simp

private theorem resolveFrom_last (e : List Text) (l : Text) :
    resolveFrom e.reverse [l] = if l = [] ∨ l = dot then some e
      else if l = dotDot then if e = [] then none else some e.dropLast
      else some (e ++ [l]) := by
  rw [resolveFrom, resolveFrom]
  split
  · rw [reverse_reverse]
  split
  · rcases eq_nil_or_concat e with rfl | ⟨e', x, rfl⟩
    · rfl
    · rw [concat_eq_append, dropLast_concat]
      simp [parentOf, resolveFrom]
  · rw [resolveFrom, reverse_cons, reverse_reverse]

private theorem isDirectory_concat (segs : List Text) (l : Text) :
    isDirectory (segs ++ [l]) = decide (l = [] ∨ l = dot ∨ l = dotDot) := by
  rw [isDirectory, getLast?_concat]
  rfl

-- a path with a slash is not "."

private theorem ne_dot_of_mem {dest : Text} (h : slash ∈ dest) : dest ≠ dot := by
  rintro rfl
  exact absurd h (by decide)

private theorem mem_render {absolute : Bool} {e : List Text} (h : root absolute ++ e ≠ []) :
    slash ∈ render absolute true e := by
  rw [render_directory, if_neg h]
  exact mem_append_cons_self

private theorem eliminateTrailing_join {e : List Text} (he : ∀ x ∈ e, Kept x)
    (hl : slash ∉ l) (hc : root absolute ++ e = [] → l ≠ dotDot) :
    ((eliminateTrailing (join slash (root absolute ++ e ++ [l]))).map fun dest =>
        if dest = dot then [] else dest) =
      (resolveFrom e.reverse [l]).map
        (render absolute (decide (l = [] ∨ l = dot ∨ l = dotDot))) := by
  rw [resolveFrom_last]
  by_cases hro : root absolute ++ e = []
  · -- the last segment is all there is
    have hne := hc hro
    obtain ⟨hab, rfl⟩ := append_eq_nil_iff.mp hro
    have hfa : absolute = false := by
      cases absolute with
      | true => cases hab
      | false => rfl
    subst hfa
    rw [hro, nil_append, join, eliminateTrailing, findLast_eq_none hl]
    by_cases hd : l = dot
    · subst hd
      rfl
    · by_cases hni : l = []
      · subst hni
        rfl
      · simp [hd, hni, hne, render, join]
  rw [eliminateTrailing, findLast_join hl hro]
  simp only
  by_cases hd : l = dot
  · subst hd
    have hsl := mem_render hro
    rw [render_directory, if_neg hro] at hsl
    simp only [if_true, or_true, true_or, decide_true, Option.map_some, render_directory,
      if_neg hro, if_neg (ne_dot_of_mem hsl)]
  by_cases hpa : l = dotDot
  · subst hpa
    have hdi : ¬ (dotDot = [] ∨ dotDot = dot) := by decide
    simp only [if_neg hd, if_true, if_neg hdi, or_true, decide_true]
    rcases eq_nil_or_concat e with rfl | ⟨e', x, rfl⟩
    · -- only an absolute path is left
      have hab : absolute = true := by
        cases absolute with
        | true => rfl
        | false => exact absurd rfl hro
      subst hab
      rfl
    rw [concat_eq_append] at he hro ⊢
    have hx := he x (by simp)
    have hne : join slash (root absolute ++ (e' ++ [x])) ≠ [] := by
      rw [← append_assoc]
      by_cases hfi : root absolute ++ e' = []
      · rw [hfi]
        exact hx.ne_nil
      · rw [join_append slash hfi (cons_ne_nil x [])]
        simp
    rw [if_neg hne, if_neg (by simp), dropLast_concat, ← append_assoc,
      backtrack_join hx.no_slash, Option.map_some, Option.map_some, ← render_directory]
    by_cases hfi : root absolute ++ e' = []
    · rw [render_directory, if_pos hfi]
      rfl
    · rw [if_neg (ne_dot_of_mem (mem_render hfi))]
  · have hsl : slash ∈ join slash (root absolute ++ e ++ [l]) := by
      rw [join_append slash hro (cons_ne_nil l [])]
      exact mem_append_cons_self
    rw [if_neg hd, if_neg hpa, Option.map_some, if_neg (ne_dot_of_mem hsl)]
    by_cases hni : l = []
    · subst hni
      simp only [true_or, if_true, decide_true, Option.map_some, render_directory, if_neg hro]
      rw [join_append slash hro (cons_ne_nil [] [])]
      rfl
    · simp only [hni, hd, hpa, or_self, if_false, decide_false, Option.map_some, render_file]

/-- What is left of the inner segments after the first two passes. -/
def inner (us : List Text) : List Text := (us.filter (· ≠ [])).filter (· ≠ dot)

theorem resolveFrom_inner (d us : List Text) : resolveFrom d (inner us) = resolveFrom d us := by
  rw [inner, resolveFrom_filter (.inr rfl), resolveFrom_filter (.inl rfl)]

private theorem kept_inner (h : SlashFree us) : ∀ x ∈ inner us, Kept x := by
  intro x hx
  simp only [inner, mem_filter, decide_eq_true_eq] at hx
  exact ⟨h x hx.1.1, hx.1.2, hx.2⟩

/-- The first two passes. -/
theorem eliminate_eliminate (ha : slash ∉ a) (hfr : SlashFree (us ++ [l])) :
    eliminate dot (eliminate [] (join slash (a :: (us ++ [l])))) =
      join slash (a :: (inner us ++ [l])) := by
  have hi (t : Text) (us : List Text) : removeInner t (us ++ [l]) =
      us.filter (· ≠ t) ++ [l] := removeInner_append us (cons_ne_nil l [])
  have hf' : SlashFree (us.filter (· ≠ []) ++ [l]) := by
    intro x hx
    apply hfr
    rw [mem_append] at hx ⊢
    exact hx.imp_left mem_of_mem_filter
  rw [eliminate_join not_mem_nil ha _ (le_rfl) hfr, hi,
    eliminate_join (by decide) ha _ (le_rfl) hf', hi, inner]

private theorem mem_of_resolveFrom {e : List Text} (h : resolveFrom d us = some e) (hx : x ∈ e) :
    x ∈ d ∨ x ∈ us ∧ IsName x := by
  induction us generalizing d with
  | nil =>
    cases h
    exact .inl (mem_reverse.mp hx)
  | cons u us ih =>
    have hc (h : x ∈ us ∧ IsName x) : x ∈ u :: us ∧ IsName x := h.imp_left (mem_cons_of_mem u)
    rw [resolveFrom] at h
    split at h
    · exact (ih h).imp_right hc
    next hsk =>
      split at h
      · cases d with
        | nil => cases h
        | cons y d => exact (ih h).imp (mem_cons_of_mem y) hc
      next hpa =>
        rcases ih h with hd | hu
        · rw [mem_cons] at hd
          rcases hd with rfl | hd
          · rw [not_or] at hsk
            exact .inr ⟨mem_cons_self, hsk.1, hsk.2, hpa⟩
          · exact .inl hd
        · exact .inr (hc hu)

theorem slashFree_segments (uri : Text) : SlashFree (segments uri) :=
  fun _ hx => not_mem_of_mem_split hx

theorem join_segments (uri : Text) : join slash (segments uri) = uri := join_split slash uri

private theorem segments_absolute (h : isAbsolute uri = true) :
    ∃ us l, segments uri = [] :: (us ++ [l]) := by
  cases uri with
  | nil => cases h
  | cons c uri =>
    have hc : c = slash := by simpa [isAbsolute] using h
    rcases eq_nil_or_concat (split slash uri) with hni | ⟨us, l, hsp⟩
    · exact absurd hni (split_ne_nil slash uri)
    · refine ⟨us, l, ?_⟩
      rw [segments, Separated.split, if_pos hc, hsp, concat_eq_append]

private theorem compressCopy_absolute (h : isAbsolute uri = true) :
    compressCopy uri = resolved uri := by
  obtain ⟨us, l, hse⟩ := segments_absolute h
  have hal := slashFree_segments uri
  have hu := join_segments uri
  rw [hse] at hal hu
  have hfr : SlashFree (us ++ [l]) := fun x hx => hal x (mem_cons_of_mem _ hx)
  have hl : slash ∉ l := hfr l (by simp)
  have hus : SlashFree us := fun x hx => hfr x (mem_append_left _ hx)
  have hpa : compressCopy uri = ((resolveFrom [] us).bind fun e =>
      (eliminateTrailing (join slash ([] :: (e ++ [l])))).map fun dest =>
        if dest = dot then [] else dest) := by
    rw [compressCopy]
    nth_rewrite 1 [← hu]
    rw [eliminate_eliminate not_mem_nil hfr,
      eliminateParents_absolute hl _ (le_rfl) (kept_inner hus), resolveFrom_inner]
    cases resolveFrom [] us <;> rfl
  rw [hpa, resolved, h, hse, resolveFrom_skip (.inl rfl), resolveFrom_append]
  cases hre : resolveFrom [] us with
  | none => rfl
  | some e =>
    have hke : ∀ x ∈ e, Kept x := by
      intro x hx
      rw [← resolveFrom_inner] at hre
      apply kept_inner hus
      exact ((mem_of_resolveFrom hre hx).resolve_left not_mem_nil).1
    have ht := eliminateTrailing_join true hke hl nofun
    rw [← cons_append, isDirectory_concat]
    exact ht

-- the first two passes leave the first segment of a relative path alone

private theorem eliminate_relative {zs : List Text} (hfr : SlashFree (zs ++ [l]))
    (hfi : ∀ a, zs.head? = some a → a ≠ [] ∧ a ≠ dot) :
    ∃ ws, eliminate dot (eliminate [] (join slash (zs ++ [l]))) = join slash (ws ++ [l]) ∧
      (∀ x ∈ ws, Kept x) ∧ resolveFrom [] ws = resolveFrom [] zs := by
  cases zs with
  | nil =>
    have hl : slash ∉ l := hfr l (by simp)
    have hn : SlashFree [] := fun x hx => absurd hx not_mem_nil
    refine ⟨[], ?_, fun x hx => absurd hx not_mem_nil, rfl⟩
    rw [nil_append, eliminate_join not_mem_nil hl _ (le_rfl) hn]
    exact eliminate_join (by decide) hl _ (le_rfl) hn
  | cons a us =>
    obtain ⟨hni, hd⟩ := hfi a rfl
    have ha : slash ∉ a := hfr a mem_cons_self
    have hu : SlashFree us := fun x hx => hfr x (by simp [hx])
    refine ⟨a :: inner us, ?_, ?_, ?_⟩
    · rw [cons_append]
      exact eliminate_eliminate ha fun x hx => hfr x (mem_cons_of_mem a hx)
    · intro x hx
      rw [mem_cons] at hx
      rcases hx with rfl | hx
      · exact ⟨ha, hni, hd⟩
      · exact kept_inner hu x hx
    · have hb (d : List Text) : resolveFrom d (a :: inner us) = resolveFrom d (a :: us) := by
        rw [resolveFrom, resolveFrom]
        simp only [resolveFrom_inner]
      exact hb []

-- "/.." is not left of a relative path

private theorem eliminateTrailing_relative {ws : List Text} (hw : ∀ x ∈ ws, Kept x)
    (hl : slash ∉ l) : eliminateTrailing (join slash (ws ++ [l])) ≠ none := by
  by_cases hni : ws = []
  · subst hni
    rw [nil_append, join, eliminateTrailing, findLast_eq_none hl]
    exact Option.some_ne_none l
  have hne : join slash ws ≠ [] := by
    cases ws with
    | nil => exact absurd rfl hni
    | cons x ws =>
      have hx := (hw x mem_cons_self).ne_nil
      cases ws with
      | nil => exact hx
      | cons y ws =>
        rw [join_cons slash x (cons_ne_nil y ws)]
        simp
  rw [eliminateTrailing, findLast_join hl hni]
  simp only [if_neg hne]
  split
  · exact Option.some_ne_none _
  · split
    all_goals exact Option.some_ne_none _

/-- The passes over a relative path before the last one: names are left, and what they resolve to if
the path does not climb. -/
theorem compressCopy_passes (hro : isAbsolute uri = false)
    (hfi : (segments uri).head? = some dot → uri = dot) :
    ∃ zs l ws, segments uri = zs ++ [l] ∧ slash ∉ l ∧ (∀ x ∈ ws, Kept x) ∧
      compressCopy uri = ((eliminateTrailing (join slash (ws ++ [l]))).map fun dest =>
        if dest = dot then [] else dest) ∧
      ∀ e, resolveFrom [] zs = some e → ws = e := by
  have hfr := slashFree_segments uri
  have hu := join_segments uri
  rcases eq_nil_or_concat (segments uri) with hni | ⟨zs, l, hse⟩
  · exact absurd hni (split_ne_nil slash uri)
  rw [concat_eq_append] at hse
  rw [hse] at hfr hu hfi
  have hl : slash ∉ l := hfr l (by simp)
  have hh (a : Text) (ha : zs.head? = some a) : a ≠ [] ∧ a ≠ dot := by
    cases zs with
    | nil => cases ha
    | cons b us =>
      cases ha
      have hc : uri = a ++ slash :: join slash (us ++ [l]) := by
        rw [← hu, cons_append, join_cons slash a (by simp)]
      constructor
      · rintro rfl
        rw [hc] at hro
        cases hro
      · rintro rfl
        have hd := hfi rfl
        rw [hc] at hd
        cases hd
  obtain ⟨ws, hel, hke, hre⟩ := eliminate_relative hfr hh
  obtain ⟨ws', hpa, hk', heq⟩ := eliminateParents_relative hl _ (le_rfl) hke
  refine ⟨zs, l, ws', hse, hl, hk', ?_, fun e he => heq e (hre.trans he)⟩
  rw [compressCopy]
  nth_rewrite 1 [← hu]
  rw [hel, hpa]
  rfl

private theorem compressCopy_relative (hro : isAbsolute uri = false)
    (hfi : (segments uri).head? = some dot → uri = dot) :
    (resolveFrom [] (segments uri) = none → compressCopy uri ≠ none) ∧
      (resolveFrom [] (segments uri) ≠ none → compressCopy uri = resolved uri) := by
  obtain ⟨zs, l, ws, hse, hl, hke, hpa, heq⟩ := compressCopy_passes hro hfi
  rw [hpa]
  constructor
  · intro _ hn
    exact eliminateTrailing_relative hke hl (Option.map_eq_none_iff.mp hn)
  · intro hso
    rw [resolved, hro, hse, isDirectory_concat]
    rw [hse, resolveFrom_append] at hso
    rw [resolveFrom_append]
    cases he : resolveFrom [] zs with
    | none =>
      rw [he] at hso
      exact absurd rfl hso
    | some e =>
      obtain rfl := heq e he
      rw [he] at hso
      apply eliminateTrailing_join false hke hl
      rintro hni rfl
      obtain rfl : ws = [] := hni
      exact hso rfl

private theorem compressCopy_of_isCompressed (h : isCompressed uri = true) (hd : uri ≠ dot) :
    compressCopy uri = some uri := by
  simp only [isCompressed, Bool.and_eq_true, Option.isNone_iff_eq_none, Bool.not_eq_true'] at h
  obtain ⟨⟨⟨he, hsa⟩, hpa⟩, hla⟩ := h
  have hel : eliminate [] uri = uri := by
    rw [eliminate]
    split
    · rfl
    next before after hfi => cases he.symm.trans hfi
  have he' : eliminate dot uri = uri := by
    rw [eliminate]
    split
    · rfl
    next before after hfi => cases hsa.symm.trans hfi
  have hi : ¬ ascii "/.." <:+: uri := find_eq_none_iff.mp hpa
  have hp : eliminateParents uri = some uri := by
    have hn : find (slash :: (dotDot ++ [slash])) uri = none := by
      rw [find_eq_none_iff]
      intro hlo
      have hsh : ascii "/.." <:+: slash :: (dotDot ++ [slash]) := ⟨[], [slash], rfl⟩
      exact hi (hsh.trans hlo)
    rw [eliminateParents]
    split
    · rfl
    next before after hfi => cases hn.symm.trans hfi
  have ht : eliminateTrailing uri = some uri := by
    rw [eliminateTrailing]
    split
    · rfl
    next before after hfi =>
      have hu := eq_of_findLast hfi
      have hne : after ≠ dot := by
        rintro rfl
        have hsu : ascii "/." <:+ uri := ⟨before, hu.symm⟩
        rw [← isSuffixOf_iff_suffix, hla] at hsu
        cases hsu
      have hne' : after ≠ dotDot := by
        rintro rfl
        exact hi ⟨before, [], by rw [append_nil, hu]; rfl⟩
      rw [if_neg hne, if_neg hne']
  rw [compressCopy, hel, he', hp, Option.bind_some, ht, Option.map_some, if_neg hd]

/-- The segments of a path that begins with `"./"`. -/
theorem segments_dot (uri : Text) : segments (0x2e :: 0x2f :: uri) = dot :: segments uri := by
  rfl

/-- Skipping `"./"` does not change what the path resolves to, but for its leading slash. -/
theorem skipDots_spec (uri : Text) : (skipDots uri = uri ∨ isAbsolute uri = false) ∧
      resolveFrom [] (segments (skipDots uri)) = resolveFrom [] (segments uri) ∧
      isDirectory (segments (skipDots uri)) = isDirectory (segments uri) ∧
      ((segments (skipDots uri)).head? = some dot → skipDots uri = dot) := by
  fun_induction skipDots uri with
  | case1 uri ih =>
    obtain ⟨-, hre, hd, hfi⟩ := ih
    refine ⟨.inr rfl, ?_, ?_, hfi⟩
    · rw [hre, segments_dot, resolveFrom_skip (.inr rfl)]
    · rw [hd, segments_dot, isDirectory, isDirectory]
      cases hse : segments uri with
      | nil => exact absurd hse (split_ne_nil slash uri)
      | cons x rest => rw [getLast?_cons_cons]
  | case2 uri hn =>
    refine ⟨.inl rfl, rfl, rfl, ?_⟩
    intro hh
    have hu := join_segments uri
    cases hse : segments uri with
    | nil => exact absurd hse (split_ne_nil slash uri)
    | cons x rest =>
      rw [hse] at hh hu
      cases hh
      cases rest with
      | nil => exact hu.symm
      | cons y rest => exact absurd hu.symm (hn _)

/-- The path climbs above its start. -/
def climbs (uri : Text) : Bool := (resolveFrom [] (segments uri)).isNone

/-- The paths that are resolved: the absolute ones, and those that, without the leading `"./"`, are
not `"."`, not absolute unless they climb, and do not climb later than with the first segment. -/
def Compressible (uri : Text) : Prop :=
  isAbsolute uri = true ∨
    (skipDots uri ≠ dot ∧ (isAbsolute (skipDots uri) = true → climbs uri = true) ∧
      (climbs uri = true →
        isAbsolute (skipDots uri) = true ∨ beginsWithParent (skipDots uri) = true))

instance (uri : Text) : Decidable (Compressible uri) := by
  unfold Compressible
  infer_instance

private theorem resolveFrom_of_beginsWithParent (h : beginsWithParent uri = true) :
    resolveFrom [] (segments uri) = none := by
  have hfi (rest : List Text) : resolveFrom [] (dotDot :: rest) = none := by
    rfl
  rw [beginsWithParent, Bool.or_eq_true, beq_iff_eq, isPrefixOf_iff_prefix] at h
  rcases h with rfl | ⟨rest, rfl⟩
  · exact hfi []
  have hse : segments (dotDot ++ [slash] ++ rest) = dotDot :: segments rest := by
    have hsp : split slash (slash :: rest) = [] :: segments rest := by
      rw [Separated.split, if_pos rfl, segments]
    rw [segments, dotDot, append_assoc]
    simp only [cons_append, nil_append]
    rw [Separated.split, if_neg (by decide), Separated.split, if_neg (by decide), hsp]
  rw [hse, hfi]

-- the cheap route is only a shortcut

private theorem uriCompress_eq (hd : skipDots uri ≠ dot)
    (hpa : beginsWithParent (skipDots uri) = false) :
    uriCompress uri = compressCopy (skipDots uri) := by
  unfold uriCompress
  simp only [hpa, Bool.false_eq_true, if_false]
  by_cases hc : isCompressed (skipDots uri) = true
  · rw [if_pos hc, compressCopy_of_isCompressed hc hd]
  · rw [if_neg hc]

private theorem uriCompress_absolute (h : isAbsolute (skipDots uri) = true) :
    uriCompress uri = resolved (skipDots uri) := by
  rw [uriCompress_eq, compressCopy_absolute h]
  · intro hd
    rw [hd] at h
    cases h
  · cases hsk : skipDots uri with
    | nil => rfl
    | cons c rest =>
      rw [hsk] at h
      obtain rfl : c = slash := by simpa [isAbsolute] using h
      rfl

private theorem uriCompress_relative (h : isAbsolute (skipDots uri) = false) :
    uriCompress uri = resolved (skipDots uri) ↔ skipDots uri ≠ dot ∧
      (climbs uri = true → beginsWithParent (skipDots uri) = true) := by
  obtain ⟨-, hr, -, hfi⟩ := skipDots_spec uri
  have hcl : climbs uri = true ↔ resolveFrom [] (segments (skipDots uri)) = none := by
    rw [climbs, ← hr, Option.isNone_iff_eq_none]
  rw [hcl]
  by_cases hd : skipDots uri = dot
  · rw [uriCompress, hd]
    exact iff_of_false (by decide) fun han => han.1 rfl
  by_cases hpa : beginsWithParent (skipDots uri) = true
  · have hn := resolveFrom_of_beginsWithParent hpa
    have ht : uriCompress uri = none := by
      unfold uriCompress
      simp only [hpa, if_true]
    have hre : resolved (skipDots uri) = none := by rw [resolved, hn, Option.map_none]
    exact iff_of_true (ht.trans hre.symm) ⟨hd, fun _ => hpa⟩
  have hco := uriCompress_eq hd (Bool.eq_false_iff.mpr hpa)
  obtain ⟨hc, hst⟩ := compressCopy_relative h hfi
  rw [hco]
  by_cases hn : resolveFrom [] (segments (skipDots uri)) = none
  · have hre : resolved (skipDots uri) = none := by rw [resolved, hn, Option.map_none]
    rw [hre]
    exact iff_of_false (hc hn) fun han => hpa (han.2 hn)
  · exact iff_of_true (hst hn) ⟨hd, fun hc' => absurd hc' hn⟩

-- the leading slash tells the two paths apart

private theorem resolved_skipDots (hu : isAbsolute uri = false) :
    resolved (skipDots uri) = resolved uri ↔
      (isAbsolute (skipDots uri) = true → climbs uri = true) := by
  obtain ⟨-, hre, hd, -⟩ := skipDots_spec uri
  rw [resolved, resolved, hre, hd, hu, climbs]
  cases resolveFrom [] (segments uri) with
  | none => exact iff_of_true rfl fun _ => rfl
  | some e =>
    cases isAbsolute (skipDots uri) with
    | false => exact iff_of_true rfl nofun
    | true =>
      refine iff_of_false ?_ fun hi => absurd (hi rfl) Bool.false_ne_true
      intro he
      have hle := congrArg List.length (Option.some.inj he)
      simp only [render, if_true, Bool.false_eq_true, if_false, length_append, length_cons] at hle
      omega

-- the segments of a rendered path

private theorem mem_segments_render (absolute di : Bool) {e : List Text}
    (hfr : SlashFree e) (hx : x ∈ segments (render absolute di e)) : x = [] ∨ x ∈ e := by
  cases e with
  | nil =>
    have hni : render absolute di [] = if absolute then [slash] else [] := by
      simp [render, join]
    rw [hni] at hx
    cases absolute with
    | true =>
      have hme : x ∈ [[], []] := hx
      left
      simpa using hme
    | false => exact .inl (mem_singleton.mp hx)
  | cons y e =>
    -- both slashes have an empty segment at their side
    have hre : render absolute di (y :: e) =
        join slash (root absolute ++ (y :: e) ++ if di then [[]] else []) := by
      cases di with
      | true =>
        rw [render_directory, if_neg (by simp), if_pos rfl,
          join_append slash (by simp) (cons_ne_nil [] [])]
        rfl
      | false =>
        rcases eq_nil_or_concat (y :: e) with hni | ⟨e', l, he⟩
        · cases hni
        · rw [he, concat_eq_append, render_file]
          simp
    have hme (z : Text) (hz : z ∈ root absolute ++ (y :: e) ++ if di then [[]] else []) :
        z = [] ∨ z ∈ y :: e := by
      rw [mem_append, mem_append] at hz
      rcases hz with (hro | hz) | hen
      · left
        cases absolute with
        | true => exact mem_singleton.mp hro
        | false => cases hro
      · exact .inr hz
      · left
        cases di with
        | true => exact mem_singleton.mp hen
        | false => cases hen
    rw [hre, segments, split_join (by simp)] at hx
    · exact hme x hx
    · intro z hz
      rcases hme z hz with rfl | hz
      · exact not_mem_nil
      · exact hfr z hz

private theorem names_of_resolved {dest : Text} (h : resolved uri = some dest) :
    ∀ x ∈ segments dest, x ≠ dot ∧ x ≠ dotDot := by
  obtain ⟨e, he, rfl⟩ := Option.map_eq_some_iff.mp h
  have hna (x : Text) (hx : x ∈ e) : x ∈ segments uri ∧ IsName x :=
    (mem_of_resolveFrom he hx).resolve_left not_mem_nil
  intro x hx
  rcases mem_segments_render _ _ (fun y hy => slashFree_segments uri y (hna y hy).1) hx with
    rfl | hme
  · decide
  · exact ⟨(hna x hme).2.ne_dot, (hna x hme).2.ne_dotDot⟩

/-- The path that is returned is the resolved one, in which no `"."` and no `".."` is left, if and
only if the path can be resolved by the passes; a path that climbs is refused then. -/
theorem uriCompress_resolved_iff (uri : Text) :
    (uriCompress uri = resolved uri ↔ Compressible uri) ∧
      ∀ dest, resolved uri = some dest → ∀ x ∈ segments dest, x ≠ dot ∧ x ≠ dotDot := by
  refine ⟨?_, fun dest => names_of_resolved⟩
  unfold Compressible
  by_cases hu : isAbsolute uri = true
  · have hsk : skipDots uri = uri := by
      rcases (skipDots_spec uri).1 with he | hfa
      · exact he
      · rw [hu] at hfa
        cases hfa
    rw [← hsk] at hu
    have hre := uriCompress_absolute hu
    rw [hsk] at hre hu
    exact iff_of_true hre (.inl hu)
  have hsk := resolved_skipDots (Bool.eq_false_iff.mpr hu)
  by_cases hro : isAbsolute (skipDots uri) = true
  · rw [uriCompress_absolute hro, hsk]
    have hd : skipDots uri ≠ dot := by
      intro hd
      rw [hd] at hro
      cases hro
    simp only [hro, hu, hd, ne_eq, not_false_eq_true, true_and, false_or, true_or, implies_true,
      and_true, Bool.false_eq_true]
  · have he := hsk.mpr fun hr' => absurd hr' hro
    rw [← he, uriCompress_relative (Bool.eq_false_iff.mpr hro)]
    simp only [hro, hu, false_or, false_implies, true_and, Bool.false_eq_true]

/-- A relative path that climbs after its first segment: `"a/../../b"` becomes `"../b"`. -/
theorem uriCompress_climbs :
    uriCompress (ascii "a/../../b") = some (ascii "../b") ∧ climbs (ascii "a/../../b") = true ∧
      resolved (ascii "a/../../b") = none := by
  decide +kernel

end BengProxy.Uri
