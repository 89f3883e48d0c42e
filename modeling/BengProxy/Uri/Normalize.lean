import BengProxy.Uri.Resolved

/-!
# Normalising a path

Models `NormalizeUriPath()`, `src/uri/PNormalize.cxx`: like `uri_compress()`, but `".."` is a
segment like any other. The result may be a pointer into the string, to a copy or to a literal,
which matters to a caller that looks at the byte before it: `ResourceAddress::CacheLoad()`,
`src/ResourceAddress.cxx`.
-/

namespace BengProxy.Uri

open Base Text Separated List

variable (uri : Text)

/-- The condition of the cheap route, `PNormalize.cxx:24-26`. -/
def isNormalized : Bool :=
  (find (ascii "//") uri).isNone && (find (ascii "/./") uri).isNone && !(ascii "/.").isSuffixOf uri

/-- Eliminate a trailing `"/."`, `PNormalize.cxx:50-54`. -/
def eliminateDot (dest : Text) : Text :=
  match findLast slash dest with
  | none => dest
  | some (before, after) => if after = dot then before ++ [slash] else dest

/-- The passes over a copy of the string, `PNormalize.cxx:31-62`. -/
def normalizeCopy : Text :=
  let dest := eliminateDot (eliminate dot (eliminate [] uri))
  if dest = dot then [] else dest

/-- A pointer that is returned: into the string, with the number of bytes that it skips, to a copy,
or to the empty string literal. -/
inductive Pointer where
  | within (skipped : Nat)
  | copy (text : Text)
  | empty
  deriving DecidableEq, Repr

/-- `NormalizeUriPath()`, `PNormalize.cxx:13-63`. -/
def normalizeUriPath : Pointer :=
  let rest := skipDots uri
  if rest = dot then .empty
  else if isNormalized rest then .within (uri.length - rest.length)
  else .copy (normalizeCopy rest)

/-- The string that a pointer points to. -/
def Pointer.text (uri : Text) : Pointer → Text
  | .within skipped => uri.drop skipped
  | .copy text => text
  | .empty => []

/-- The path that is returned. -/
def normalized : Text := (normalizeUriPath uri).text uri

/-- The string at the byte before a pointer, if this byte belongs to the same string; the string
that was normalised is the end of `uri` from `start` on. -/
def Pointer.textBefore (start : Nat) : Pointer → Option Text
  | .within skipped => if start + skipped = 0 then none else some (uri.drop (start + skipped - 1))
  | .copy _ => none
  | .empty => none

/-- The string that `ResourceAddress::CacheLoad()` passes to `uri_path_verify_paranoid()`,
`ResourceAddress.cxx:345-349`, with `require_base_tail()`, `src/uri/Base.cxx:22-30`. -/
def cacheLoadVerified (uri base : Text) : Option Text :=
  (normalizeUriPath (uri.drop base.length)).textBefore uri base.length

/-- A segment that says something. -/
def isProper (x : Text) : Bool := x ≠ [] && x ≠ dot

/-- The segments of a normalised path: only the first and the last one may be empty. -/
structure Normal (a : Text) (segs : List Text) : Prop where
  slashFree : SlashFree (a :: segs)
  ne_dot : a ≠ dot
  not_mem : [] ∉ segs.dropLast
  dot_not_mem : dot ∉ segs

variable {a l : Text} {us segs : List Text}

private theorem suffix_join_iff (hl : slash ∉ l) (ws : List Text) :
    ascii "/." <:+ join slash (a :: (ws ++ [l])) ↔ l = dot := by
  rw [← cons_append, join_append slash (cons_ne_nil a ws) (cons_ne_nil l []), join]
  constructor
  · rintro ⟨before, hb⟩
    have hfi : findLast slash (before ++ slash :: dot) = some (before, dot) :=
      findLast_append (by decide) before
    have hse := findLast_append hl (join slash (a :: ws))
    rw [← hb] at hse
    have hbo := hse.symm.trans hfi
    cases hbo
    rfl
  · rintro rfl
    exact ⟨join slash (a :: ws), rfl⟩

private theorem isNormalized_join_iff (hfr : SlashFree (a :: segs)) :
    isNormalized (join slash (a :: segs)) = true ↔ [] ∉ segs.dropLast ∧ dot ∉ segs := by
  have ha : slash ∉ a := hfr a mem_cons_self
  have hse : SlashFree segs := fun x hx => hfr x (mem_cons_of_mem a hx)
  have hfi {t : Text} (ht : slash ∉ t) :
      (find (slash :: (t ++ [slash])) (join slash (a :: segs))).isNone = true ↔
        t ∉ segs.dropLast := by
    rw [find_join ht ha hse, Option.isNone_iff_eq_none, Option.map_eq_none_iff,
      cutInner_eq_none_iff]
  have hla : (ascii "/.").isSuffixOf (join slash (a :: segs)) = true ↔
      segs.getLast? = some dot := by
    rw [isSuffixOf_iff_suffix]
    rcases eq_nil_or_concat segs with rfl | ⟨ws, l, rfl⟩
    · rw [join]
      constructor
      · intro h
        exact absurd (h.subset (show slash ∈ ascii "/." by decide)) ha
      · intro h
        cases h
    · rw [concat_eq_append] at hse ⊢
      rw [suffix_join_iff (hse l (by simp)) ws, getLast?_concat, Option.some.injEq]
  rw [isNormalized, Bool.and_eq_true, Bool.and_eq_true, Bool.not_eq_true', ← Bool.not_eq_true,
    hla, and_assoc]
  have hd : dot ∉ segs ↔ dot ∉ segs.dropLast ∧ segs.getLast? ≠ some dot := by
    rcases eq_nil_or_concat segs with rfl | ⟨ws, l, rfl⟩
    · simp
    · rw [concat_eq_append, dropLast_concat, getLast?_concat, mem_append,
        mem_singleton, not_or, ne_eq, Option.some.injEq, eq_comm]
  rw [hd]
  have hdo : slash ∉ dot := by decide
  exact and_congr (hfi not_mem_nil) (and_congr (hfi hdo) Iff.rfl)

private theorem Normal.normalizeUriPath (h : Normal a segs) :
    Uri.normalizeUriPath (join slash (a :: segs)) = .within 0 := by
  have ha : slash ∉ a := h.slashFree a mem_cons_self
  have hsk : skipDots (join slash (a :: segs)) = join slash (a :: segs) := by
    rw [skipDots.eq_def]
    split
    next rest he =>
      -- the first segment is not "."
      have hpr : dot ++ [slash] <+: join slash (a :: segs) := by
        rw [he]
        exact ⟨rest, rfl⟩
      exact absurd ((prefix_join_iff (by decide) ha).mp hpr).1 h.ne_dot
    · rfl
  have hne : join slash (a :: segs) ≠ dot := by
    intro he
    have hsp : segments (join slash (a :: segs)) = segments dot := by rw [he]
    rw [segments, split_join (cons_ne_nil a segs) h.slashFree] at hsp
    have hfi : a = dot := (List.cons.inj hsp).1
    exact h.ne_dot hfi
  have hro : isNormalized (join slash (a :: segs)) = true :=
    (isNormalized_join_iff h.slashFree).mpr ⟨h.not_mem, h.dot_not_mem⟩
  rw [Uri.normalizeUriPath, hsk]
  simp only [if_neg hne, if_pos hro, Nat.sub_self]

private theorem exists_skipped :
    ∃ front, uri = front ++ skipDots uri ∧ (front = [] ∨ front.getLast? = some slash) := by
  fun_induction skipDots uri with
  | case1 uri ih =>
    obtain ⟨front, hu, hla⟩ := ih
    refine ⟨0x2e :: slash :: front, ?_, .inr ?_⟩
    · rw [cons_append, cons_append, ← hu]
      rfl
    · rcases hla with rfl | hla
      · rfl
      · rw [getLast?_cons, getLast?_cons, hla]
        rfl
  | case2 uri h => exact ⟨[], rfl, .inl rfl⟩

private theorem length_skipped {uri f : Text} (h : uri = f ++ skipDots uri) :
    uri.length - (skipDots uri).length = f.length := by
  nth_rewrite 1 [h]
  rw [length_append]
  omega

private theorem drop_skipped : uri.drop (uri.length - (skipDots uri).length) = skipDots uri := by
  obtain ⟨front, hfr, -⟩ := exists_skipped uri
  rw [length_skipped hfr]
  nth_rewrite 1 [hfr]
  exact drop_left

private theorem isAbsolute_skipDots_iff : isAbsolute (skipDots uri) = true ↔
      ∃ n, (List.replicate n (ascii "./")).flatten ++ [slash] <+: uri := by
  fun_induction skipDots uri with
  | case1 uri ih =>
    rw [ih]
    constructor
    · rintro ⟨n, hn⟩
      exact ⟨n + 1, prefix_append_right_inj (ascii "./") |>.mpr hn⟩
    · rintro ⟨n, hn⟩
      cases n with
      | zero =>
        have hh := cons_prefix_cons.mp hn
        exact absurd hh.1 (by decide)
      | succ n => exact ⟨n, (prefix_append_right_inj (ascii "./")).mp hn⟩
  | case2 uri h =>
    constructor
    · intro hab
      refine ⟨0, ?_⟩
      cases uri with
      | nil => cases hab
      | cons c rest =>
        have hc : c = slash := by simpa [isAbsolute] using hab
        rw [hc]
        exact ⟨rest, rfl⟩
    · rintro ⟨n, rest, rfl⟩
      cases n with
      | zero => rfl
      | succ n => exact absurd rfl (h ((List.replicate n (ascii "./")).flatten ++ [slash] ++ rest))

private theorem proper_skipDots :
    (segments (skipDots uri)).filter isProper = (segments uri).filter isProper := by
  fun_induction skipDots uri with
  | case1 uri ih => rw [ih, segments_dot, filter_cons_of_neg (by decide)]
  | case2 uri h => rfl

private theorem proper_inner (us : List Text) :
    (inner us).filter isProper = us.filter isProper := by
  rw [inner, filter_filter, filter_filter]
  apply filter_congr
  intro x _
  rw [isProper]
  by_cases hni : x = []
  · simp [hni]
  · simp [hni]

/-- The last segment after the last pass. -/
def lastSegment (l : Text) : Text := if l = dot then [] else l

private theorem proper_lastSegment (l : Text) :
    [lastSegment l].filter isProper = [l].filter isProper := by
  unfold lastSegment
  by_cases h : l = dot
  · rw [h]
    decide
  · rw [if_neg h]

private theorem normalizeCopy_join (ha : slash ∉ a) (hfr : SlashFree (us ++ [l])) :
    normalizeCopy (join slash (a :: (us ++ [l]))) =
      join slash (a :: (inner us ++ [lastSegment l])) := by
  have hl : slash ∉ l := hfr l (by simp)
  have ht : eliminateDot (join slash (a :: (inner us ++ [l]))) =
      join slash (a :: (inner us ++ [lastSegment l])) := by
    rw [← cons_append, eliminateDot, findLast_join hl (cons_ne_nil a _), lastSegment]
    by_cases hd : l = dot
    · simp only [if_pos hd]
      rw [← cons_append, join_append slash (cons_ne_nil a _) (cons_ne_nil [] []), join]
    · simp only [if_neg hd]
      rw [cons_append]
  have hsl : slash ∈ join slash (a :: (inner us ++ [lastSegment l])) := by
    rw [join_cons slash a (by simp)]
    exact mem_append_cons_self
  rw [normalizeCopy, eliminate_eliminate ha hfr, ht]
  apply if_neg
  intro hd
  rw [hd] at hsl
  exact absurd hsl (by decide)

private theorem isAbsolute_join (ha : slash ∉ a) (hne : segs ≠ []) :
    isAbsolute (join slash (a :: segs)) = decide (a = []) := by
  rw [join_cons slash a hne]
  cases a with
  | nil => rfl
  | cons c a =>
    have hc : c ≠ slash := fun he => ha (he ▸ mem_cons_self)
    rw [isAbsolute, cons_append]
    simp [hc]

private theorem normalized_eq : normalized uri = if skipDots uri = dot then []
      else if isNormalized (skipDots uri) then skipDots uri
      else normalizeCopy (skipDots uri) := by
  unfold normalized normalizeUriPath
  simp only
  split
  · rfl
  · split
    · exact drop_skipped uri
    · rfl

private theorem exists_normal : ∃ a segs, normalized uri = join slash (a :: segs) ∧ Normal a segs ∧
      (a :: segs).filter isProper = (segments uri).filter isProper ∧
      isAbsolute (normalized uri) = isAbsolute (skipDots uri) := by
  have hfr := slashFree_segments (skipDots uri)
  have hj := join_segments (skipDots uri)
  have hd := (skipDots_spec uri).2.2.2
  have hpr := proper_skipDots uri
  rw [normalized_eq]
  generalize skipDots uri = rest at hfr hj hd hpr ⊢
  cases hse : segments rest with
  | nil => exact absurd hse (split_ne_nil slash rest)
  | cons a segs =>
    rw [hse] at hfr hj hpr
    have ha : slash ∉ a := hfr a mem_cons_self
    by_cases hr : rest = dot
    · -- the literal
      rw [if_pos hr]
      refine ⟨[], [], rfl, ⟨?_, by decide, not_mem_nil, not_mem_nil⟩, ?_, ?_⟩
      · intro x hx
        rw [mem_singleton.mp hx]
        exact not_mem_nil
      · rw [← hpr, ← hse, hr]
        decide
      · rw [hr]
        decide
    rw [if_neg hr]
    have hne : a ≠ dot := by
      rintro rfl
      exact hr (hd (by rw [hse]; rfl))
    by_cases hro : isNormalized rest = true
    · -- the string itself
      rw [if_pos hro]
      rw [← hj] at hro
      obtain ⟨he, hdo⟩ := (isNormalized_join_iff hfr).mp hro
      exact ⟨a, segs, hj.symm, ⟨hfr, hne, he, hdo⟩, hpr, rfl⟩
    -- the copy
    rw [if_neg hro]
    rcases eq_nil_or_concat segs with rfl | ⟨us, l, rfl⟩
    · rw [← hj] at hro
      exact absurd ((isNormalized_join_iff hfr).mpr ⟨not_mem_nil, not_mem_nil⟩)
        hro
    rw [concat_eq_append] at hfr hj hpr
    have ht : SlashFree (us ++ [l]) := fun x hx => hfr x (mem_cons_of_mem a hx)
    have hc : normalizeCopy rest = join slash (a :: (inner us ++ [lastSegment l])) := by
      rw [← hj, normalizeCopy_join ha ht]
    refine ⟨a, inner us ++ [lastSegment l], hc, ⟨?_, hne, ?_, ?_⟩, ?_, ?_⟩
    · intro x hx
      rw [mem_cons, mem_append, mem_singleton] at hx
      rcases hx with rfl | hx | rfl
      · exact ha
      · rw [inner, mem_filter, mem_filter] at hx
        exact ht x (mem_append_left _ hx.1.1)
      · unfold lastSegment
        split
        · exact not_mem_nil
        · exact ht l (by simp)
    · rw [dropLast_concat, inner, mem_filter]
      simp
    · rw [mem_append, mem_singleton, inner]
      unfold lastSegment
      split
      · simp [dot]
      next hl => simp [Ne.symm hl]
    · rw [← hpr, filter_cons, filter_cons, filter_append,
        filter_append, proper_inner, proper_lastSegment]
    · rw [hc, isAbsolute_join ha (by simp), ← hj, isAbsolute_join ha (by simp)]

private theorem Kept.isAbsolute_join {x : Text} (h : Kept x) (rest : List Text) (t : Text) :
    isAbsolute (join slash (x :: rest) ++ t) = false := by
  obtain ⟨c, x, rfl⟩ := exists_cons_of_ne_nil h.ne_nil
  have hc : c ≠ slash := fun he => h.no_slash (he ▸ mem_cons_self)
  have hh : (join slash ((c :: x) :: rest) ++ t).head? = some c := by
    cases rest with
    | nil | cons y rest => rfl
  rw [isAbsolute, hh]
  simp [hc]

private theorem isAbsolute_eliminateTrailing {ws : List Text} {dest : Text} (hke : ∀ x ∈ ws, Kept x)
    (hl : slash ∉ l) (h : eliminateTrailing (join slash (ws ++ [l])) = some dest) :
    isAbsolute dest = false := by
  cases ws with
  | nil =>
    rw [nil_append, join, eliminateTrailing, findLast_eq_none hl] at h
    cases h
    cases l with
    | nil => rfl
    | cons c l =>
      have hc : c ≠ slash := fun he => hl (he ▸ mem_cons_self)
      simp [isAbsolute, hc]
  | cons x ws =>
    have hx : Kept x := hke x mem_cons_self
    rw [eliminateTrailing, findLast_join hl (cons_ne_nil x ws)] at h
    simp only at h
    split at h
    · cases h
      exact hx.isAbsolute_join ws [slash]
    split at h
    · split at h
      · cases h
      -- without its last name, the path is empty or begins with the same one
      cases h
      rcases eq_nil_or_concat (x :: ws) with hni | ⟨us, u, hus⟩
      · cases hni
      rw [concat_eq_append] at hus
      have hu : slash ∉ u := (hke u (by rw [hus]; simp)).no_slash
      rw [hus, backtrack_join hu us]
      cases us with
      | nil => rfl
      | cons y us => exact (hke y (by rw [hus]; simp)).isAbsolute_join us [slash]
    · cases h
      have hab := hx.isAbsolute_join (ws ++ [l]) []
      rw [append_nil] at hab
      exact hab

private theorem isAbsolute_uriCompress {uri r : Text} (h : uriCompress uri = some r)
    (hr : isAbsolute (skipDots uri) = false) : isAbsolute r = false := by
  rw [uriCompress] at h
  split at h
  · cases h
  split at h
  · cases h
    exact hr
  obtain ⟨zs, l, ws, -, hl, hke, hpa, -⟩ := compressCopy_passes hr (skipDots_spec uri).2.2.2
  rw [hpa, Option.map_eq_some_iff] at h
  obtain ⟨dest, hd, rfl⟩ := h
  split
  · rfl
  · exact isAbsolute_eliminateTrailing hke hl hd

/-- A path stays relative exactly if it does not begin with a number of `"./"` and a slash. -/
theorem relative_stays_relative_iff : (isAbsolute (normalized uri) = false ∧
        ∀ r, uriCompress uri = some r → isAbsolute r = false) ↔
      ¬ ∃ n, (List.replicate n (ascii "./")).flatten ++ [slash] <+: uri := by
  obtain ⟨a, segs, -, -, -, hab⟩ := exists_normal uri
  rw [hab, ← isAbsolute_skipDots_iff, Bool.not_eq_true]
  constructor
  · exact fun hb => hb.1
  · exact fun hrest => ⟨hrest, fun r hr => isAbsolute_uriCompress hr hrest⟩

/-- One more slash behind the leading `"./"` makes the path absolute. -/
theorem relative_becomes_absolute :
    isAbsolute (ascii ".//etc/passwd") = false ∧
      normalized (ascii ".//etc/passwd") = ascii "/etc/passwd" ∧
      uriCompress (ascii ".//etc/passwd") = some (ascii "/etc/passwd") := by
  decide +kernel

/-- The result has no `"//"`, `"/./"`, leading `"./"` or trailing `"/."` and is not `"."`, it has
the proper segments of the path, and normalising it once more returns the same pointer. -/
theorem normalizeUriPath_normal :
    ¬ ascii "//" <:+: normalized uri ∧ ¬ ascii "/./" <:+: normalized uri ∧
      ¬ ascii "./" <+: normalized uri ∧ ¬ ascii "/." <:+ normalized uri ∧
      normalized uri ≠ ascii "." ∧
      (segments (normalized uri)).filter isProper = (segments uri).filter isProper ∧
      normalizeUriPath (normalized uri) = .within 0 ∧
      normalized (normalized uri) = normalized uri := by
  obtain ⟨a, segs, hj, hnor, hpro, -⟩ := exists_normal uri
  have ha : slash ∉ a := hnor.slashFree a mem_cons_self
  have hro := (isNormalized_join_iff hnor.slashFree).mpr
    ⟨hnor.not_mem, hnor.dot_not_mem⟩
  have hsa := hnor.normalizeUriPath
  rw [isNormalized, Bool.and_eq_true, Bool.and_eq_true, Option.isNone_iff_eq_none,
    Option.isNone_iff_eq_none, find_eq_none_iff, find_eq_none_iff, Bool.not_eq_true',
    ← Bool.not_eq_true, isSuffixOf_iff_suffix] at hro
  rw [← hj] at hro hsa
  refine ⟨hro.1.1, hro.1.2, ?_, hro.2, ?_, ?_, hsa, ?_⟩
  · intro hpr
    rw [hj] at hpr
    exact hnor.ne_dot ((prefix_join_iff (t := dot) (by decide) ha).mp hpr).1
  · intro he
    rw [he] at hsa
    exact absurd hsa (by decide)
  · rw [hj, segments, split_join (cons_ne_nil a segs) hnor.slashFree, hpro]
  · rw [normalized, hsa, Pointer.text, drop_zero]

example : normalized (ascii "./a//.././//./.") = ascii "a/../" := by
  decide +kernel

private theorem textBefore_within {base tail : Text} (hsl : base.getLast? = some slash) :
    (Pointer.within (tail.length - (skipDots tail).length)).textBefore (base ++ tail)
      base.length = some (slash :: skipDots tail) := by
  obtain ⟨front, hfr, hla⟩ := exists_skipped tail
  have he : (base ++ front).getLast? = some slash := by
    rcases hla with rfl | hla
    · rw [append_nil, hsl]
    · rw [getLast?_append, hla, Option.some_or]
  obtain ⟨init, hi⟩ := getLast?_eq_some_iff.mp he
  have hle : base.length + front.length = init.length + 1 := by
    rw [← length_append, hi, length_append, length_singleton]
  rw [Pointer.textBefore, length_skipped hfr, hle, Nat.add_sub_cancel]
  nth_rewrite 1 [hfr]
  rw [← append_assoc, hi, append_assoc, drop_left]
  rfl

/-- The string that is verified is the normalised rest with a slash before it exactly if it has not
been copied and is not the literal. In the other cases, the byte before it does not belong to it. -/
theorem cacheLoadVerified_iff (uri base : Text) (hb : base <+: uri)
    (hsl : base.getLast? = some slash) :
    cacheLoadVerified uri base = some (slash :: normalized (uri.drop base.length)) ↔
      skipDots (uri.drop base.length) ≠ dot ∧
        isNormalized (skipDots (uri.drop base.length)) = true := by
  obtain ⟨tail, rfl⟩ := hb
  rw [cacheLoadVerified, drop_left, normalized_eq, normalizeUriPath]
  by_cases hd : skipDots tail = dot
  · rw [if_pos hd]
    simp only [Pointer.textBefore, reduceCtorEq, hd, ne_eq, not_true_eq_false, false_and]
  by_cases hro : isNormalized (skipDots tail) = true
  · rw [if_neg hd, if_pos hro, if_neg hd, if_pos hro, textBefore_within hsl]
    exact ⟨fun _ => ⟨hd, hro⟩, fun _ => rfl⟩
  · rw [if_neg hd, if_neg hro]
    simp only [Pointer.textBefore, reduceCtorEq, hro, and_false]

/-- A rest that only has to be skipped to. -/
theorem cacheLoadVerified_skipped :
    cacheLoadVerified (ascii "/foo/./bar") (ascii "/foo/") =
      some (slash :: normalized ((ascii "/foo/./bar").drop (ascii "/foo/").length)) :=
  (cacheLoadVerified_iff (ascii "/foo/./bar") (ascii "/foo/") ⟨ascii "./bar", rfl⟩ rfl).mpr
    (by decide)

/-- The byte before a copy, and the byte before the literal, do not belong to the string. -/
theorem cacheLoadVerified_copied :
    cacheLoadVerified (ascii "/foo/a//b") (ascii "/foo/") = none ∧
      normalized (ascii "a//b") = ascii "a/b" ∧
      cacheLoadVerified (ascii "/foo/.") (ascii "/foo/") = none ∧
      normalized (ascii ".") = [] := by
  decide +kernel

end BengProxy.Uri
