import BengProxy.Http.Cookie

/-!
# What a header does to the cookie jar

A jar holds at most one cookie for each identity, and both `cookie_jar_set_cookie2` and
`CookieJar::MoveFrom` keep it that way. They differ in what happens to the other cookies: moving
keeps them, setting may delete them.
-/

namespace BengProxy.Http

open Base Text List Cookie

variable {jar : List Cookie}

/-- The identity of a cookie, `Find()` in `src/http/CookieJar.cxx:38-59`. -/
def Cookie.key (cookie : Cookie) : Text × Option Text × Text :=
  (cookie.domain, cookie.path, cookie.name)

/-- No two cookies of the jar have the same identity. -/
def Unique (jar : List Cookie) : Prop := (jar.map key).Nodup
  deriving Decidable

private theorem domainMatches_self (d : Text) : domainMatches d d = true := by
  simp [domainMatches]

private theorem deleteMatches_of_key {c old : Cookie} (h : c.key = old.key) :
    deleteMatches c.domain c.path c.name old = true := by
  simp only [key, Prod.mk.injEq] at h
  obtain ⟨hd, hpa, hna⟩ := h
  rw [deleteMatches, hd, hpa, hna, domainMatches_self]
  cases old.path with
  | none => simp
  | some path => simp [pathMatches]

private theorem mem_setCookie {cookie old : Cookie} (hke : cookie.key ≠ old.key) :
    old ∈ setCookie jar cookie ↔
      old ∈ jar ∧ deleteMatches cookie.domain cookie.path cookie.name old = false := by
  have hne : old ≠ cookie := fun h => hke (by rw [h])
  unfold setCookie cookieListDeleteMatch
  split
  · rw [mem_cons, mem_filter, Bool.not_eq_true']
    exact ⟨fun h => h.resolve_left hne, .inr⟩
  · rw [mem_filter, Bool.not_eq_true']

private theorem Unique.setCookie (h : Unique jar) (c : Cookie) :
    Unique (setCookie jar c) := by
  have hfi : Unique (cookieListDeleteMatch jar c.domain c.path c.name) :=
    List.Nodup.sublist (filter_sublist.map _) h
  unfold Http.setCookie
  split
  · refine nodup_cons.mpr ⟨fun hme => ?_, hfi⟩
    obtain ⟨old, ho, hk⟩ := mem_map.mp hme
    have hke := (mem_filter.mp ho).2
    rw [deleteMatches_of_key hk.symm] at hke
    cases hke
  · exact hfi

variable (u : Util) (now : Nat)

private theorem applyNextCookie_of_accept {d i rest : Text} {path : Option Text}
    {c : Cookie} (jar : List Cookie)
    (h : acceptNextCookie u now d path i = some (c, rest)) :
    applyNextCookie u now jar d path i = some (setCookie jar c, rest) := by
  rw [applyNextCookie, h, Option.map_some]

private theorem cookieJarSetCookie2Loop_eq (d : Text) (path : Option Text) (i : Text) :
    ∀ jar, cookieJarSetCookie2Loop u now jar d path i =
      (appliedCookies u now d path i).foldl setCookie jar := by
  fun_induction appliedCookies u now d path i with
  | case1 i hac =>
    intro jar
    have hap : applyNextCookie u now jar d path i = none := by
      rw [applyNextCookie, hac, Option.map_none]
    rw [cookieJarSetCookie2Loop]
    split <;> simp_all
  | case2 i cookie hac =>
    intro jar
    have hap := applyNextCookie_of_accept u now jar hac
    rw [cookieJarSetCookie2Loop]
    split <;> simp_all
  | case3 i cookie ch rest hac hch =>
    intro jar
    have hap := applyNextCookie_of_accept u now jar hac
    rw [cookieJarSetCookie2Loop]
    split <;> simp_all
  | case4 i cookie ch rest hac hch ih =>
    intro jar
    have hap := applyNextCookie_of_accept u now jar hac
    rw [cookieJarSetCookie2Loop]
    split <;> simp_all

private theorem Unique.foldl_setCookie (h : Unique jar) (c : List Cookie) :
    Unique (c.foldl Http.setCookie jar) := by
  induction c generalizing jar with
  | nil => exact h
  | cons cookie c ih => exact ih (h.setCookie cookie)

private theorem mem_foldl_setCookie {c : List Cookie} {old : Cookie}
    (hke : ∀ cookie ∈ c, cookie.key ≠ old.key) (jar : List Cookie) :
    old ∈ c.foldl setCookie jar ↔ old ∈ jar ∧
      ∀ cookie ∈ c, deleteMatches cookie.domain cookie.path cookie.name old = false := by
  induction c generalizing jar with
  | nil => simp
  | cons cookie c ih =>
    have hc := forall_mem_cons.mp hke
    rw [foldl_cons, ih hc.2, mem_setCookie hc.1, forall_mem_cons, and_assoc]

/-- A header leaves at most one cookie of each identity. It leaves all cookies that are not set by
it exactly if none of those it sets matches another one: same name, a domain of which the new one
is a subdomain, and a path that begins with the new one. -/
theorem cookieJarSetCookie2_keeps_others_iff {jar : List Cookie} (h : Unique jar)
    (value domain : Text) (path : Option Text) :
    let cookies := appliedCookies u now domain path value
    let jar' := cookieJarSetCookie2 u now jar value domain path
    Unique jar' ∧
      ((∀ old ∈ jar, (∀ cookie ∈ cookies, cookie.key ≠ old.key) → old ∈ jar') ↔
        ∀ old ∈ jar, ∀ cookie ∈ cookies,
          deleteMatches cookie.domain cookie.path cookie.name old = true →
            ∃ cookie' ∈ cookies, cookie'.key = old.key) := by
  intro cookies jar'
  have hj : jar' = cookies.foldl setCookie jar := cookieJarSetCookie2Loop_eq u now _ _ _ _
  rw [hj]
  refine ⟨h.foldl_setCookie cookies, ?_, ?_⟩
  · intro hke old ho cookie hco hma
    by_contra hot
    have hkey : ∀ c ∈ cookies, c.key ≠ old.key := fun c hc hk => hot ⟨c, hc, hk⟩
    have hno := ((mem_foldl_setCookie hkey jar).mp (hke old ho hkey)).2 cookie hco
    rw [hma] at hno
    cases hno
  · intro hsa old ho hkey
    refine (mem_foldl_setCookie hkey jar).mpr ⟨ho, fun cookie hco => ?_⟩
    rw [← Bool.not_eq_true]
    intro hma
    obtain ⟨cookie', hc', hk⟩ := hsa old ho cookie hco hma
    exact hkey cookie' hc' hk

/-- The white space and the numbers of the witnesses. -/
def plainUtil : Util where
  isWhitespace ch := ch ≤ 0x20
  parseInteger _ := none

/-- A jar with a cookie for another path, which is not touched. -/
theorem cookieJarSetCookie2_keeps_other_path :
    let old : Cookie := { name := ascii "a", value := ascii "1", domain := ascii "b.com",
                          path := some (ascii "/x"), expires := .never }
    let value := ascii "a=2;path=\"/y\""
    old ∈ cookieJarSetCookie2 plainUtil 0 [old] value (ascii "b.com") none := by
  intro old value
  have hu : Unique [old] := by decide
  refine (cookieJarSetCookie2_keeps_others_iff plainUtil 0 hu value
    (ascii "b.com") none).2.mpr ?_ old (mem_singleton_self old) ?_ <;> decide +kernel

/-- The cookie of a parent domain is gone after a cookie of the same name was set for a
subdomain. -/
theorem cookieJarSetCookie2_deletes_parent :
    let old : Cookie := { name := ascii "a", value := ascii "1", domain := ascii "b.com",
                          path := some (ascii "/x"), expires := .never }
    let new : Cookie := { name := ascii "a", value := ascii "2", domain := ascii "www.b.com",
                          path := none, expires := .never }
    appliedCookies plainUtil 0 (ascii "www.b.com") (some (ascii "/")) (ascii "a=2") = [new] ∧
      new.key ≠ old.key ∧
      cookieJarSetCookie2 plainUtil 0 [old] (ascii "a=2") (ascii "www.b.com")
        (some (ascii "/")) = [new] := by
  decide +kernel

/-- The comparison in `Find()`, `src/http/CookieJar.cxx:42-46`; missing if a path would be compared
that does not exist. -/
def isSame (i cookie : Cookie) : Option Bool :=
  if i.domain == cookie.domain then
    match i.path, cookie.path with
    | some path, some path' => some (path == path' && i.name == cookie.name)
    | _, _ => none
  else some false

/-- Find a cookie with this identity and delete it, `src/http/CookieJar.cxx:65-69`. -/
def deleteSame (cookie : Cookie) : List Cookie → Option (List Cookie)
  | [] => some []
  | i :: jar => do
    if ← isSame i cookie then return jar
    return i :: (← deleteSame cookie jar)

/-- `CookieJar::MoveFrom`, `src/http/CookieJar.cxx:61-73`. -/
def moveFrom (jar : List Cookie) (src : List Cookie) : Option (List Cookie) :=
  src.foldlM (fun jar cookie => do return (← deleteSame cookie jar) ++ [cookie]) jar

/-- Every path that is compared with the one of a cookie exists, and so does the one of the cookie
then: all cookies of its domain have one, up to the cookie with the same identity. -/
def comparable (cookie : Cookie) : List Cookie → Bool
  | [] => true
  | i :: jar =>
    if i.domain = cookie.domain then
      i.path.isSome && cookie.path.isSome && (i.key = cookie.key || comparable cookie jar)
    else comparable cookie jar

/-- The jar after some cookies have been moved to it. -/
def moved (jar src : List Cookie) : List Cookie :=
  jar.filter (fun i => i.key ∉ src.map key) ++ src

/-- All cookies can be compared with those that are in the jar when it is their turn. -/
def allComparable (jar : List Cookie) (before : List Cookie) : List Cookie → Bool
  | [] => true
  | cookie :: src =>
    comparable cookie (moved jar before) && allComparable jar (before ++ [cookie]) src

private theorem deleteSame_eq (h : Unique jar) (c : Cookie) :
    deleteSame c jar =
      if comparable c jar then some (jar.filter (·.key ≠ c.key)) else none := by
  induction jar with
  | nil => rfl
  | cons i jar ih =>
    obtain ⟨hn, hja⟩ := nodup_cons.mp h
    have hke : i.key = c.key ↔
        i.domain = c.domain ∧ i.path = c.path ∧ i.name = c.name := by
      simp [key]
    have hr (hi : i.key = c.key) : jar.filter (·.key ≠ c.key) = jar := by
      apply filter_eq_self.mpr
      intro j hj
      simpa using fun hsa => hn (mem_map.mpr ⟨j, hj, hsa.trans hi.symm⟩)
    rw [deleteSame, ih hja, comparable, isSame]
    by_cases hd : i.domain = c.domain
    · cases hpa : i.path with
      | none => simp [hd]
      | some path =>
        cases hp' : c.path with
        | none => simp [hd]
        | some path' =>
          by_cases hsa : path = path' ∧ i.name = c.name
          · have hi := hke.mpr ⟨hd, by rw [hpa, hp', hsa.1], hsa.2⟩
            rw [filter_cons_of_neg (by simp [hi]), hr hi]
            simp [hd, hsa, hi]
          · have hi : i.key ≠ c.key := by
              simpa [hke, hd, hpa, hp'] using hsa
            cases hc : comparable c jar <;> simp [hd, hsa, hi]
    · have hi : i.key ≠ c.key := fun hi => hd (hke.mp hi).1
      cases hc : comparable c jar <;> simp [hd, hi]

private theorem foldlM_moved {before src : List Cookie} (hj : Unique jar)
    (hsr : Unique (before ++ src)) :
    src.foldlM (fun jar cookie => do return (← deleteSame cookie jar) ++ [cookie])
        (moved jar before) =
      if allComparable jar before src then some (moved jar (before ++ src)) else none := by
  induction src generalizing before with
  | nil => simp [allComparable]
  | cons cookie src ih =>
    have hb : Unique before := List.Nodup.sublist ((sublist_append_left before _).map _) hsr
    have hu : Unique (moved jar before) := by
      rw [Unique, moved, map_append, nodup_append]
      refine ⟨List.Nodup.sublist (filter_sublist.map _) hj, hb, ?_⟩
      rintro key hke key' hk' rfl
      obtain ⟨i, hi, rfl⟩ := mem_map.mp hke
      simpa [hk'] using (mem_filter.mp hi).2
    have hn : before.filter (·.key ≠ cookie.key) = before := by
      apply filter_eq_self.mpr
      intro i hi
      rw [Unique, map_append] at hsr
      have hd := (nodup_append.mp hsr).2.2
      simpa using hd i.key (mem_map_of_mem hi) cookie.key (by simp)
    have hmo : (moved jar before).filter (·.key ≠ cookie.key) ++ [cookie] =
        moved jar (before ++ [cookie]) := by
      rw [moved, filter_append, hn, moved, filter_filter]
      simp [and_comm]
    rw [foldlM_cons, deleteSame_eq hu, allComparable]
    cases comparable cookie (moved jar before) with
    | false => rfl
    | true =>
      have hst := @ih (before ++ [cookie]) (by rwa [append_assoc])
      rw [← hmo] at hst
      simpa using hst

/-- The jars that `cookie_jar_set_cookie2()` fills, `src/http/CookieClient.cxx:142-161`. -/
inductive Built (u : Util) : List Cookie → Prop
  | empty : Built u []
  | set (now : Nat) {jar : List Cookie} (value domain : Text) (path : Option Text) :
      Built u jar → Built u (cookieJarSetCookie2 u now jar value domain path)

private theorem Built.unique {u : Util} (h : Built u jar) : Unique jar := by
  induction h with
  | empty => exact nodup_nil
  | set now value domain path _ ih =>
    rw [cookieJarSetCookie2, cookieJarSetCookie2Loop_eq]
    exact ih.foldl_setCookie _

/-- Moving compares no path that does not exist, and leaves the cookies of the source and those of
the destination that have another identity, exactly if all cookies are comparable. -/
theorem moveFrom_iff {u : Util} {jar src : List Cookie} (hj : Built u jar) (hsr : Built u src) :
    (∃ jar', moveFrom jar src = some jar' ∧
        ∀ i, i ∈ jar' ↔ i ∈ src ∨ i ∈ jar ∧ ∀ cookie ∈ src, cookie.key ≠ i.key) ↔
      allComparable jar [] src = true := by
  have hmo := @foldlM_moved jar [] src hj.unique hsr.unique
  have hi : moved jar [] = jar := by simp [moved]
  rw [hi] at hmo
  rw [moveFrom, hmo]
  cases allComparable jar [] src with
  | false => simp
  | true =>
    simp only [if_true, Option.some.injEq, exists_eq_left', iff_true]
    intro i
    simp only [moved, mem_map]
    grind

/-- Two jars that were filled by one header each, with a path. -/
theorem moveFrom_paths :
    let jar := cookieJarSetCookie2 plainUtil 0 [] (ascii "a=1;path=\"/\"") (ascii "b.com") none
    let src := cookieJarSetCookie2 plainUtil 0 [] (ascii "a=2;path=\"/\"") (ascii "b.com") none
    ∃ jar', moveFrom jar src = some jar' ∧
      ∀ i, i ∈ jar' ↔ i ∈ src ∨ i ∈ jar ∧ ∀ cookie ∈ src, cookie.key ≠ i.key := by
  intro jar src
  exact (moveFrom_iff (.set 0 _ _ _ .empty) (.set 0 _ _ _ .empty)).mpr (by decide +kernel)

/-- Two jars that were filled by one header each, without a path. -/
theorem moveFrom_compares_null :
    moveFrom (cookieJarSetCookie2 plainUtil 0 [] (ascii "a=1") (ascii "b.com") none)
      (cookieJarSetCookie2 plainUtil 0 [] (ascii "c=2") (ascii "b.com") none) = none := by
  decide +kernel

end BengProxy.Http
