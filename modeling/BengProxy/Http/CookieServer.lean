import BengProxy.Base.Separated
import BengProxy.Http.CookieJar
import Mathlib.Data.List.DropRight

/-!
# Cookies sent by the client

Models `src/http/CookieServer.cxx` and `src/http/CookieExtract.cxx`. `cookie_exclude()` copies what
is in front of the first member with the name verbatim and then appends the other members, each with
a separator behind it. The white space in front of the first hit and the separators of empty members
stay, so there may be a string without a cookie in it.
-/

namespace BengProxy.Http

open Base Text List Separated
open Separated hiding split

/-- What separates the members of a `Cookie` header. -/
def semicolon : UInt8 := 0x3b

/-- `cookie_next_rfc_ignorant_value`, `src/http/CookieString.cxx:28-60` and `53-60`. -/
def cookieNextRfcIgnorantValue (input : Text) : Text × Text :=
  if input.head? == some quote then httpNextQuotedStringRaw input
  else splitWhile input fun ch => charIsCookieOctet ch || ch == 0x20 || ch == 0x2c

/-- The value behind a name. -/
def cookieValue : Text → Option Text
  | [] => some []
  | ch :: i => if ch = 0x3d then some (cookieNextRfcIgnorantValue i).1 else none

variable (u : Util)

/-- The name of a member and what is behind it. -/
def member (i : Text) : Text × Text := httpNextToken (stripLeft u.isWhitespace i)

/-- The members of a header. -/
def members (p : Text) : List (Text × Text) := (split semicolon p).map (member u)

/-- `ExtractCookieRaw`, `CookieExtract.cxx:11-31`. -/
def extractCookieRaw (cookieHeader name : Text) : Option Text :=
  ((members u cookieHeader).find? (·.1 == name)).bind fun i => cookieValue i.2

/-- The loop of `cookie_exclude`, `CookieServer.cxx:25-39`, over the rest of the members,
behind the text of the others: the text that has been copied to `dest`, and `found`. -/
def cookieExcludeLoop (exclude : Text) : List Text → Text → Text × Bool → Text × Bool
  | [], _, s => s
  | i :: rest, before, (dest, found) =>
    cookieExcludeLoop exclude rest (before ++ i ++ [semicolon])
      (if (member u i).1 == exclude then
        if !found then (dest ++ before ++ i.takeWhile u.isWhitespace, true) else (dest, found)
      else if found then (dest ++ stripLeft u.isWhitespace i ++ [semicolon], found)
      else (dest, found))

/-- `dest` and `found` behind the loop. -/
def cookieExcludeDest (p exclude : Text) : Text × Bool :=
  cookieExcludeLoop u exclude (split semicolon p) [] ([], false)

/-- `cookie_exclude`, `CookieServer.cxx:13-53`; missing for `nullptr`. -/
def cookieExclude (p exclude : Text) : Option Text :=
  let (dest, found) := cookieExcludeDest u p exclude
  if !found then some p
  else if dest = [] then none
  else if dest.getLast? = some semicolon then some dest.dropLast
  else some dest

/-- The number of bytes that `cookie_exclude` writes; the terminator takes the place of a semicolon
at the end. -/
def cookieExcludeWritten (p exclude : Text) : Nat :=
  let (dest, _) := cookieExcludeDest u p exclude
  if dest = [] ∨ dest.getLast? = some semicolon then dest.length else dest.length + 1

/-- The members with a name. -/
def cookies (p : Text) : List (Text × Text) := (members u p).filter (·.1 ≠ [])

/-- The members behind a hit that are copied. -/
def keptMembers (exclude : Text) (rest : List Text) : List Text :=
  (rest.filter fun i => (member u i).1 != exclude).map (stripLeft u.isWhitespace)

variable {u} {p x y i : Text} {bs as rest : List Text}

private theorem extractCookieRaw_eq (hy : y ≠ []) :
    extractCookieRaw u p y = ((cookies u p).find? (·.1 == y)).bind fun i => cookieValue i.2 := by
  rw [extractCookieRaw, cookies, find?_filter]
  congr 2
  ext i
  by_cases h : i.1 = y
  · simp [h, hy]
  · simp [h]

private theorem cookieExcludeLoop_found (b dest : Text) :
    cookieExcludeLoop u x rest b (dest, true) =
      (dest ++ terminate semicolon (keptMembers u x rest), true) := by
  induction rest generalizing b dest with
  | nil => simp [cookieExcludeLoop, terminate, keptMembers]
  | cons i rest ih =>
    rw [cookieExcludeLoop]
    by_cases h : (member u i).1 = x
    · simp [h, ih, keptMembers]
    · simp [h, ih, keptMembers, terminate]

private theorem cookieExcludeLoop_none (be : Text) (h : ∀ b ∈ bs, (member u b).1 ≠ x) :
    cookieExcludeLoop u x (bs ++ rest) be ([], false) =
      cookieExcludeLoop u x rest (be ++ terminate semicolon bs) ([], false) := by
  induction bs generalizing be with
  | nil => simp [terminate]
  | cons b bs ih =>
    rw [forall_mem_cons] at h
    rw [cons_append, cookieExcludeLoop]
    simp [h.1, ih _ h.2, terminate]

private theorem cookieExcludeLoop_hit (hb : ∀ b ∈ bs, (member u b).1 ≠ x)
    (hi : (member u i).1 = x) :
    cookieExcludeLoop u x (bs ++ i :: as) [] ([], false) =
      (terminate semicolon bs ++
        (i.takeWhile u.isWhitespace ++ terminate semicolon (keptMembers u x as)), true) := by
  rw [cookieExcludeLoop_none [] hb, cookieExcludeLoop]
  simp [hi, cookieExcludeLoop_found]

private theorem length_terminate_keptMembers :
    (terminate semicolon (keptMembers u x rest)).length ≤ (terminate semicolon rest).length := by
  induction rest with
  | nil => exact le_rfl
  | cons i rest ih =>
    have hle := length_stripLeft_le u.isWhitespace i
    by_cases h : (member u i).1 = x
    all_goals
      simp [terminate, keptMembers, h] at ih ⊢
      omega

private theorem cookieExclude_of_terminate (hne : bs ≠ [])
    (hd : cookieExcludeDest u p x = (terminate semicolon bs, true)) :
    cookieExclude u p x = some (join semicolon bs) := by
  rw [terminate_eq _ hne] at hd
  simp [cookieExclude, hd]

private theorem cookieExclude_of_dest {w : Text}
    (hw : ∀ ch ∈ w, u.isWhitespace ch = true) (hse : semicolon ∉ w)
    (hbs : ∀ b ∈ bs ++ rest, semicolon ∉ b)
    (hd : cookieExcludeDest u p x =
      (terminate semicolon bs ++ (w ++ terminate semicolon rest), true)) :
    (cookieExclude u p x).elim [] (cookies u) = ((bs ++ rest).map (member u)).filter (·.1 ≠ []) ∧
      (cookieExclude u p x = none ↔ bs = [] ∧ rest = [] ∧ w = []) := by
  have hme (s : Text) : member u (w ++ s) = member u s := by
    rw [member, stripLeft, dropWhile_append_of_pos hw, member, stripLeft]
  -- the white space becomes part of the next member, or a member of its own
  cases rest with
  | cons s ss =>
    have hj := @cookieExclude_of_terminate u p x (bs ++ (w ++ s) :: ss) (by simp) (by
      rw [hd]
      simp [terminate])
    rw [hj, Option.elim_some, cookies, members, split_join (by simp)]
    · simp [hme]
    · simp only [mem_append, mem_cons] at hbs ⊢
      rintro b (hb | rfl | hb)
      · exact hbs b (.inl hb)
      · rw [mem_append, not_or]
        exact ⟨hse, hbs s (.inr (.inl rfl))⟩
      · exact hbs b (.inr (.inr hb))
  | nil =>
    rw [append_nil] at hbs ⊢
    by_cases hni : w = []
    · by_cases he : bs = []
      · simp [cookieExclude, hd, hni, he, terminate]
      · rw [cookieExclude_of_terminate he (by rw [hd, hni]; simp [terminate]),
          Option.elim_some, cookies, members, split_join he hbs]
        simp [he]
    have hla : w.getLast? ≠ some semicolon := by
      intro h
      exact hse (mem_of_getLast? h)
    have heq : cookieExclude u p x = some (terminate semicolon bs ++ w) := by
      simp [cookieExclude, hd, terminate, hni, hla]
    rw [heq, Option.elim_some, cookies, members, @split_of_terminate _ _ _ _ (bs ++ [w])]
    · have he : member u w = ([], []) := by
        have h := hme []
        rwa [append_nil] at h
      simp [he, hni]
    · simp
    · rw [forall_mem_append, forall_mem_singleton]
      exact ⟨hbs, hse⟩
    · simp [terminate]

private theorem map_member_keptMembers :
    (keptMembers u x rest).map (member u) = (rest.map (member u)).filter (·.1 != x) := by
  rw [keptMembers, filter_map, map_map]
  apply map_congr_left
  intro i _
  simp [member, stripLeft, dropWhile_idempotent]

private theorem cookies_cookieExclude (u : Util) (p : Text) (hx : x ≠ []) :
    (cookieExclude u p x).elim [] (cookies u) = (cookies u p).filter (·.1 != x) ∧
      (cookieExclude u p x = none ↔
        (∀ i ∈ members u p, i.1 = x) ∧ p.head?.all (!u.isWhitespace ·) = true) ∧
      cookieExcludeWritten u p x ≤ p.length + 1 := by
  have hne := split_ne_nil semicolon p
  have hfr (s) : s ∈ split semicolon p → semicolon ∉ s := not_mem_of_mem_split
  have hj := terminate_eq semicolon hne
  rw [join_split] at hj
  rw [cookies, members, forall_mem_map]
  cases hfi : (split semicolon p).find? fun i => (member u i).1 == x with
  | none =>
    have hn : ∀ i ∈ split semicolon p, (member u i).1 ≠ x := by simpa using hfi
    have hd : cookieExcludeDest u p x = ([], false) := by
      have hlo := @cookieExcludeLoop_none u x _ [] [] hn
      rwa [append_nil] at hlo
    obtain ⟨i, segs, hse⟩ := exists_cons_of_ne_nil hne
    refine ⟨?_, ?_, ?_⟩
    · rw [cookieExclude, hd]
      apply Eq.symm
      apply filter_eq_self.mpr
      intro m hm
      obtain ⟨i, hi, rfl⟩ := mem_map.mp (mem_of_mem_filter hm)
      exact bne_iff_ne.mpr (hn i hi)
    · have hi : i ∈ split semicolon p := by simp [hse]
      exact ⟨fun h => by simp [cookieExclude, hd] at h, fun h => absurd (h.1 i hi) (hn i hi)⟩
    · simp [cookieExcludeWritten, hd]
  | some i =>
    obtain ⟨hi, bs, as, hse, hbs⟩ := find?_eq_some_iff_append.mp hfi
    simp only [beq_iff_eq, Bool.not_eq_true', beq_eq_false_iff_ne] at hi hbs
    have hd := @cookieExcludeLoop_hit u x i bs as hbs hi
    rw [← hse, ← cookieExcludeDest] at hd
    rw [hse] at hfr hj ⊢
    have hw := i.takeWhile_prefix u.isWhitespace
    have hsp := cookieExclude_of_dest (fun ch hch => mem_takeWhile_imp hch)
      (fun h => hfr i (by simp) (hw.subset h)) (by
        intro b hb
        rw [mem_append, keptMembers, mem_map] at hb
        rcases hb with hb | ⟨s, hs, rfl⟩
        · exact hfr b (by simp [hb])
        · have hme := hfr s (by simp [mem_of_mem_filter hs])
          exact fun h => hme ((dropWhile_suffix _).subset h)) hd
    refine ⟨?_, ?_, ?_⟩
    · rw [hsp.1, map_append, map_member_keptMembers]
      have hk : (bs.map (member u)).filter (·.1 != x) = bs.map (member u) := by
        rw [filter_eq_self, forall_mem_map]
        exact fun b hb => bne_iff_ne.mpr (hbs b hb)
      have hke : ((bs ++ i :: as).map (member u)).filter (·.1 != x) =
          bs.map (member u) ++ (as.map (member u)).filter (·.1 != x) := by
        rw [map_append, filter_append, hk, map_cons, filter_cons_of_neg (by simp [hi])]
      rw [filter_comm, hke]
    · rw [hsp.2, forall_mem_append, forall_mem_cons]
      have hni : bs = [] ↔ ∀ b ∈ bs, (member u b).1 = x := by
        cases bs with
        | nil => simp
        | cons b bs => simp [hbs b]
      have hke : keptMembers u x as = [] ↔ ∀ b ∈ as, (member u b).1 = x := by simp [keptMembers]
      rw [hni, hke, and_iff_right hi, ← and_assoc]
      apply and_congr_right
      rintro ⟨hbs, -⟩
      -- the first member is the hit, and it is not empty
      rw [hni.mpr hbs] at hj
      simp only [terminate, nil_append, flatMap_cons] at hj
      cases i with
      | nil => simp [member, stripLeft, httpNextToken, splitWhile, Ne.symm hx] at hi
      | cons ch i =>
        cases p with
        | nil =>
          rw [nil_append, cons_append, cons_append, List.cons.injEq] at hj
          exact absurd (hj.1 ▸ mem_cons_self) (hfr (ch :: i) (by simp))
        | cons c p =>
          rw [cons_append, cons_append, cons_append, List.cons.injEq] at hj
          simp [hj.1]
    · have hl := congrArg List.length hj
      have hke := @length_terminate_keptMembers u x as
      have hle := hw.length_le
      simp only [cookieExcludeWritten, hd]
      simp [terminate] at hl hke ⊢
      split
      · omega
      · omega

/-- What `cookie_exclude` is for: the cookies with the name are removed and no others, there is no
string without a cookie, and no more is written than has been allocated. -/
structure Excludes (u : Util) (p x : Text) : Prop where
  excluded : ((cookieExclude u p x).bind fun result => extractCookieRaw u result x) = none
  others : ∀ y, y ≠ [] → y ≠ x →
    ((cookieExclude u p x).bind fun result => extractCookieRaw u result y) = extractCookieRaw u p y
  null : (∀ i ∈ cookies u p, i.1 = x) → cookieExclude u p x = none
  written : cookieExcludeWritten u p x ≤ p.length + 1

private theorem bind_extractCookieRaw (hx : x ≠ []) (hy : y ≠ []) :
    ((cookieExclude u p x).bind fun result => extractCookieRaw u result y) =
      (((cookies u p).filter (·.1 != x)).find? (·.1 == y)).bind fun i => cookieValue i.2 := by
  rw [← (cookies_cookieExclude u p hx).1]
  cases cookieExclude u p x with
  | none => rfl
  | some result => exact extractCookieRaw_eq hy

/-- `cookie_exclude` does so exactly if another cookie remains, or if all members have the name and
there is no white space at the beginning. -/
theorem cookieExclude_excludes_iff (u : Util) (p : Text) {x : Text} (hx : x ≠ []) :
    Excludes u p x ↔ (∃ i ∈ cookies u p, i.1 ≠ x) ∨
      (∀ i ∈ members u p, i.1 = x) ∧ p.head?.all (!u.isWhitespace ·) = true := by
  obtain ⟨-, hnon, hw⟩ := cookies_cookieExclude u p hx
  rw [← hnon]
  constructor
  · intro h
    by_cases hal : ∀ i ∈ cookies u p, i.1 = x
    · exact .inr (h.null hal)
    · simpa using Or.inl hal
  · intro h
    refine ⟨?_, ?_, ?_, hw⟩
    · rw [bind_extractCookieRaw hx hx, find?_eq_none.mpr (by simp), Option.bind_none]
    · intro y hy hne
      rw [bind_extractCookieRaw hx hy, extractCookieRaw_eq hy, find?_filter]
      congr 2
      ext i
      by_cases he : i.1 = y
      · simp [he, hne]
      · simp [he]
    · intro hal
      exact h.resolve_left fun ⟨i, hi, hne⟩ => hne (hal i hi)

/-- A cookie is removed from the middle of a header. -/
theorem cookieExclude_excludes_middle :
    Excludes plainUtil (ascii "a=1; x=2; b=3") (ascii "x") ∧
      cookieExclude plainUtil (ascii "a=1; x=2; b=3") (ascii "x") = some (ascii "a=1; b=3") :=
  ⟨(cookieExclude_excludes_iff _ _ (by decide)).mpr (.inl (by decide +kernel)), by decide +kernel⟩

/-- The white space in front of the only cookie and an empty member are sent. -/
theorem cookieExclude_without_cookie :
    cookies plainUtil (ascii " x=1") = [(ascii "x", ascii "=1")] ∧
      cookieExclude plainUtil (ascii " x=1") (ascii "x") = some (ascii " ") ∧
      cookieExclude plainUtil (ascii "x=1;") (ascii "x") = some [] ∧
      ¬ Excludes plainUtil (ascii " x=1") (ascii "x") := by
  have hc : cookies plainUtil (ascii " x=1") = [(ascii "x", ascii "=1")] := by
    decide +kernel
  have hre : cookieExclude plainUtil (ascii " x=1") (ascii "x") = some (ascii " ") := by
    decide +kernel
  refine ⟨hc, hre, by decide +kernel, fun h => ?_⟩
  have hnu := h.null (by rw [hc]; simp)
  cases hnu

end BengProxy.Http
