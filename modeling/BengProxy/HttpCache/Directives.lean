import BengProxy.HttpCache.Freshness

/-!
# The directives of a response

What `http_cache_response_evaluate()`, `src/http/cache/RFC.cxx:167-273`, makes of `Cache-Control`.
Only one of several headers of this name is looked at, and a directive is compared literally.
-/

namespace BengProxy.HttpCaching

open Base Text List

/-- The member forbids storing the response, `RFC.cxx:188-190`. -/
def forbids (s : Text) : Bool :=
  (ascii "private").isPrefixOf s || s == ascii "no-cache" || s == ascii "no-store"

/-- The member is `max-age` with a number: not more than 15 digits, and it fits into an `int`. -/
def IsMaxAge (s : Text) (n : Nat) : Prop :=
  ∃ digits, s = ascii "max-age=" ++ digits ∧ decimal digits = some n ∧ digits.length ≤ 15 ∧
    n < 2 ^ 31

variable (lib : CacheLib)

/-- The number that the code finds in a member, if it is a positive one,
`RFC.cxx:192-204`. -/
def memberMaxAge (s : Text) : Option Int :=
  if (ascii "max-age=").isPrefixOf s ∧ (s.drop 8).length < 16 ∧ 0 < lib.atoi (s.drop 8) then
    some (lib.atoi (s.drop 8))
  else none

/-- The last one of these numbers in a header. -/
def lastMaxAge (value : Text) : Option Int :=
  ((members lib value).filterMap (memberMaxAge lib)).getLast?

variable {lib}

private theorem forbids_iff (s : Text) : forbids s = true ↔
    (ascii "private").isPrefixOf s ∨ s = ascii "no-cache" ∨ s = ascii "no-store" := by
  rw [forbids, Bool.or_eq_true, Bool.or_eq_true, beq_iff_eq, beq_iff_eq, or_assoc]

private theorem responseCacheControl_cons {s : Text} (h : forbids s = false) (now : Int)
    (ms : List Text) (e : Int) :
    responseCacheControl lib now (s :: ms) e =
      responseCacheControl lib now ms ((memberMaxAge lib s).elim e (now + ·)) := by
  rw [responseCacheControl, if_neg (by rw [← forbids_iff, h]; decide), memberMaxAge]
  by_cases hna : (ascii "max-age=").isPrefixOf s = true
  · rw [if_pos hna]
    by_cases hsk : 16 ≤ (s.drop 8).length ∨ lib.atoi (s.drop 8) ≤ 0
    · rw [if_pos hsk, if_neg (by omega), Option.elim_none]
    · rw [if_neg hsk, if_pos ⟨hna, by omega, by omega⟩, Option.elim_some]
  · rw [if_neg hna, if_neg (fun hal => hna hal.1), Option.elim_none]

private theorem responseCacheControl_eq (now : Int) (ms : List Text) (e : Int) :
    responseCacheControl lib now ms e = if ms.any forbids then none
      else some ((ms.filterMap (memberMaxAge lib)).getLast?.elim e (now + ·)) := by
  induction ms generalizing e with
  | nil => rfl
  | cons s ms ih =>
    rw [any_cons]
    cases hs : forbids s with
    | true => rw [responseCacheControl, if_pos ((forbids_iff s).mp hs), Bool.true_or, if_pos rfl]
    | false =>
      rw [responseCacheControl_cons hs, ih, filterMap_cons]
      cases memberMaxAge lib s with
      | none => rfl
      | some a =>
        simp only [getLast?_cons]
        cases ((ms.filterMap (memberMaxAge lib)).getLast?) <;> rfl

section

variable {isRemote hasQueryString eagerCache : Bool} {now : Int} {status : Nat}
  {headers : StringMap} {available : Option Nat} {info : ResponseInfo} {value : Text}

private theorem expires_of_evaluate
    (h : httpCacheResponseEvaluate lib isRemote hasQueryString eagerCache
      now status headers available = some info) :
    ∃ expires, responseExpires lib isRemote hasQueryString eagerCache now headers =
      some expires ∧ (expires ≠ -1 → info.expires = expires) := by
  unfold httpCacheResponseEvaluate at h
  split at h
  · cases h
  split at h
  · cases h
  split at h
  · cases h
  next expires he =>
    refine ⟨expires, he, fun hne => ?_⟩
    simp only [hne, false_and] at h
    split at h
    · cases h
    · cases h
      rfl

private theorem exists_evaluate (hv : headers.values (ascii "vary") = []) {e : Int}
    (h : responseExpires lib false false true now headers = some e) :
    ∃ info, httpCacheResponseEvaluate lib false false true now 200 headers none = some info ∧
      (e ≠ -1 → info.expires = e) := by
  have hso : (httpCacheResponseEvaluate lib false false true now 200 headers none).isSome =
      true := by
    rw [httpCacheResponseEvaluate, if_neg (by decide), if_neg (by decide), h, hv]
    simp only [joinVary]
    split <;> rfl
  obtain ⟨info, hi⟩ := Option.isSome_iff_exists.mp hso
  obtain ⟨expires', he', he⟩ := expires_of_evaluate hi
  cases h.symm.trans he'
  exact ⟨info, hi, he⟩

section

variable (hget : headers.get lib.toLookup (ascii "cache-control") = some value)
include hget

private theorem responseExpires_eq_none (h : (members lib value).any forbids = true) :
    responseExpires lib isRemote hasQueryString eagerCache now headers = none := by
  rw [responseExpires, hget]
  simp only [responseCacheControl_eq, if_pos h]
  rfl

private theorem responseExpires_eq (h : (members lib value).any forbids = false) :
    responseExpires lib isRemote hasQueryString eagerCache now headers =
      (getServerDateOffset lib isRemote now headers).bind fun offset =>
        let expires := (lastMaxAge lib value).elim (-1) (now + ·)
        let expires :=
          if expires = -1 then
            parseTranslateTime lib (headers.get lib.toLookup (ascii "expires")) offset
          else expires
        if hasQueryString ∧ !eagerCache ∧ expires = -1 then none else some expires := by
  rw [responseExpires, hget]
  simp only [responseCacheControl_eq, h]
  rfl

private theorem expires_eq_maxAge {a : Int} (ha : lastMaxAge lib value = some a)
    (hne : now + a ≠ -1)
    (h : httpCacheResponseEvaluate lib isRemote hasQueryString eagerCache now status headers
      available = some info) : info.expires = now + a := by
  obtain ⟨expires, he, hi⟩ := expires_of_evaluate h
  cases hfo : (members lib value).any forbids with
  | true =>
    rw [responseExpires_eq_none hget hfo] at he
    cases he
  | false =>
    rw [responseExpires_eq hget hfo, Option.bind_eq_some_iff] at he
    obtain ⟨offset, -, he⟩ := he
    simp only [ha, Option.elim_some, hne, and_false, if_false, Option.some.injEq] at he
    rw [hi (by rw [← he]; exact hne), he]

end

private theorem exists_responseExpires (now : Int)
    (h : ∀ value, headers.get lib.toLookup (ascii "cache-control") = some value →
      (members lib value).any forbids = false) :
    ∃ expires, responseExpires lib false false true now headers = some expires := by
  cases hget : headers.get lib.toLookup (ascii "cache-control") with
  | none =>
    rw [responseExpires, hget]
    exact ⟨_, rfl⟩
  | some value =>
    rw [responseExpires_eq hget (h value hget)]
    exact ⟨_, rfl⟩

end

/-- A header map with these `Cache-Control` headers and `Expires`. -/
def controlHeaders (values : List Text) (date : Text) : StringMap :=
  (ascii "expires", date) :: values.map fun value => (ascii "cache-control", value)

section

variable (values : List Text) (date : Text)

private theorem values_map (name : Text) :
    StringMap.values (values.map fun value => (ascii "cache-control", value)) name =
      if ascii "cache-control" = name then values else [] := by
  induction values with
  | nil => simp [StringMap.values]
  | cons value values ih =>
    rw [StringMap.values] at ih ⊢
    by_cases h : ascii "cache-control" = name <;> simp_all

private theorem values_controlHeaders (name : Text) :
    (controlHeaders values date).values name =
      (if ascii "expires" = name then [date] else []) ++
        if ascii "cache-control" = name then values else [] := by
  rw [← values_map, controlHeaders, StringMap.values, filter_cons]
  by_cases h : ascii "expires" = name <;> simp only [h, decide_true] <;> rfl

private theorem get_controlHeaders_expires :
    (controlHeaders values date).get lib.toLookup (ascii "expires") = some date := by
  obtain ⟨v, hv, hfi⟩ := lib.find_mem (cons_ne_nil date [])
  rw [StringMap.get, values_controlHeaders, if_pos rfl, if_neg (by decide), append_nil, hfi,
    mem_singleton.mp hv]

private theorem values_controlHeaders_control :
    (controlHeaders values date).values (ascii "cache-control") = values := by
  rw [values_controlHeaders, if_neg (by decide), if_pos rfl, nil_append]

private theorem values_controlHeaders_vary :
    (controlHeaders values date).values (ascii "vary") = [] := by
  rw [values_controlHeaders, if_neg (by decide), if_neg (by decide), append_nil]

variable {values date}

private theorem exists_evaluate_controlHeaders (now : Int) {value : Text}
    (hfi : lib.find values = some value) (hc : (members lib value).any forbids = false)
    (hd : lib.httpDateParse date ≠ -1) :
    ∃ info, httpCacheResponseEvaluate lib false false true now 200 (controlHeaders values date)
        none = some info ∧
      info.expires = if (lastMaxAge lib value).elim (-1) (now + ·) = -1 then lib.httpDateParse date
        else (lastMaxAge lib value).elim (-1) (now + ·) := by
  have hget : (controlHeaders values date).get lib.toLookup (ascii "cache-control") =
      some value := by
    rw [StringMap.get, values_controlHeaders_control, hfi]
  have he : responseExpires lib false false true now (controlHeaders values date) =
      some (if (lastMaxAge lib value).elim (-1) (now + ·) = -1 then lib.httpDateParse date
        else (lastMaxAge lib value).elim (-1) (now + ·)) := by
    rw [responseExpires_eq hget hc, get_controlHeaders_expires]
    simp only [getServerDateOffset, parseTranslateTime, if_neg hd, Bool.not_false, if_true,
      Option.bind_some, Bool.false_eq_true, false_and, if_false, Int.add_zero]
  obtain ⟨info, hi, heq⟩ := exists_evaluate (values_controlHeaders_vary values date) he
  refine ⟨info, hi, heq ?_⟩
  split
  · exact hd
  next hne => exact hne

end

/-- Responses with these `Cache-Control` headers are never stored exactly if the one that is found
has a member that begins with `private` or is `no-cache` or `no-store`, in lower case. -/
theorem never_stored_iff (lib : CacheLib) (values : List Text) :
    (∀ isRemote hasQueryString eagerCache now status headers available,
        StringMap.values headers (ascii "cache-control") = values →
        httpCacheResponseEvaluate lib isRemote hasQueryString eagerCache now status headers
          available = none) ↔
      ∃ value, lib.find values = some value ∧ ∃ s ∈ members lib value,
        ascii "private" <+: s ∨ s = ascii "no-cache" ∨ s = ascii "no-store" := by
  have hfo (value : Text) : (members lib value).any forbids = true ↔
      ∃ s ∈ members lib value,
        ascii "private" <+: s ∨ s = ascii "no-cache" ∨ s = ascii "no-store" := by
    simp only [any_eq_true, forbids_iff, isPrefixOf_iff_prefix]
  simp only [← hfo]
  constructor
  · intro hnev
    by_contra hnon
    -- nothing is wrong with the header that is found
    have hcl (value : Text) (hget : (controlHeaders values []).get lib.toLookup
        (ascii "cache-control") = some value) : (members lib value).any forbids = false := by
      rw [StringMap.get, values_controlHeaders_control] at hget
      exact Bool.not_eq_true _ ▸ fun han => hnon ⟨value, hget, han⟩
    obtain ⟨expires, he⟩ := exists_responseExpires 0 hcl
    obtain ⟨info, hi, -⟩ := exists_evaluate (values_controlHeaders_vary values []) he
    have hc := hnev false false true 0 200 (controlHeaders values []) none
      (values_controlHeaders_control values [])
    rw [hi] at hc
    cases hc
  · rintro ⟨value, hfi, han⟩ isRemote hasQueryString eagerCache now status headers available rfl
    rw [Option.eq_none_iff_forall_ne_some]
    intro info hi
    obtain ⟨expires, he, -⟩ := expires_of_evaluate hi
    rw [responseExpires_eq_none hfi han] at he
    cases he

/-- A directive in upper case, or in another header than the one that is found, does not keep the
response from being stored. -/
theorem stored_despite_directive :
    (httpCacheResponseEvaluate plainLib false false false 0 200
        [(ascii "cache-control", ascii "No-Store, max-age=60")] none).isSome = true ∧
      (httpCacheResponseEvaluate plainLib false false false 0 200
        [(ascii "cache-control", ascii "max-age=60"),
          (ascii "cache-control", ascii "no-store")] none).isSome = true := by
  decide +kernel

/-- The expiry date of every response with these `Cache-Control` headers that may be stored is not
after any number of seconds that `max-age` says, exactly if it says none, or the header that is
found forbids storing, or the last positive number in this header is the smallest one. -/
theorem maxAge_overrides_iff (lib : CacheLib) (now : Int) (values : List Text)
    (hd : ∃ date, now + 2 ^ 31 ≤ lib.httpDateParse date ∧ lib.httpDateParse date ≠ -1) :
    (∀ isRemote hasQueryString eagerCache status headers available info,
        StringMap.values headers (ascii "cache-control") = values →
        httpCacheResponseEvaluate lib isRemote hasQueryString eagerCache now status headers
          available = some info →
        ∀ value ∈ values, ∀ s ∈ members lib value, ∀ n, IsMaxAge s n → info.expires ≤ now + n) ↔
      (∀ value ∈ values, ∀ s ∈ members lib value, ∀ n, ¬IsMaxAge s n) ∨
        ∃ value, lib.find values = some value ∧
          ((∃ s ∈ members lib value, forbids s = true) ∨
            ∃ a, lastMaxAge lib value = some a ∧ now + a ≠ -1 ∧
              ∀ value ∈ values, ∀ s ∈ members lib value, ∀ n, IsMaxAge s n → a ≤ n) := by
  constructor
  · intro ho
    rw [Classical.or_iff_not_imp_left]
    intro hso
    have hne : values ≠ [] := by
      rintro rfl
      exact hso fun value hvalue => absurd hvalue not_mem_nil
    obtain ⟨value, -, hfi⟩ := lib.find_mem hne
    refine ⟨value, hfi, ?_⟩
    by_contra hno
    rw [not_or] at hno
    obtain ⟨hfo, hla⟩ := hno
    obtain ⟨date, hlat, hd⟩ := hd
    have hc : (members lib value).any forbids = false := by
      rw [any_eq_false]
      exact fun s hs hforb => hfo ⟨s, hs, hforb⟩
    obtain ⟨info, hi, he⟩ := exists_evaluate_controlHeaders now hfi hc hd
    have hle := ho false false true 200 (controlHeaders values date) none info
      (values_controlHeaders_control values date) hi
    rw [he] at hle
    split at hle
    · -- the date of `Expires` counts
      apply hso
      intro value' hvalue' s hs n hn
      have hea := hle value' hvalue' s hs n hn
      obtain ⟨_, _, _, _, hlt⟩ := hn
      omega
    next hne =>
      cases ha : lastMaxAge lib value with
      | none =>
        rw [ha] at hne
        exact hne rfl
      | some a =>
        rw [ha, Option.elim_some] at hle hne
        refine hla ⟨a, ha, hne, fun value' hvalue' s hs n hn => ?_⟩
        have hea := hle value' hvalue' s hs n hn
        omega
  · rintro (hnon | ⟨value, hfi, hfou⟩) isRemote hasQueryString eagerCache status headers
      available info rfl hi value' hvalue' s hs n hn
    · exact absurd hn (hnon value' hvalue' s hs n)
    · rcases hfou with ⟨s', hs', hfo⟩ | ⟨a, ha, hne, hle⟩
      · have han : (members lib value).any forbids = true :=
          any_eq_true.mpr ⟨s', hs', hfo⟩
        obtain ⟨expires, he, -⟩ := expires_of_evaluate hi
        rw [responseExpires_eq_none hfi han] at he
        cases he
      · rw [expires_eq_maxAge hfi ha hne hi]
        have hsm := hle value' hvalue' s hs n hn
        omega

/-- A library that reads dates as numbers of seconds. -/
def datedLib : CacheLib :=
  { plainLib with httpDateParse := fun s => (decimal s).elim (-1) fun n => (n : Int) }

/-- The smaller number comes last. -/
theorem maxAge_overrides_last :
    ∃ info, httpCacheResponseEvaluate datedLib false false false 100 200
        [(ascii "cache-control", ascii "max-age=90, max-age=60"),
          (ascii "expires", ascii "5000")] none = some info ∧ info.expires ≤ 100 + 60 := by
  have hso : (httpCacheResponseEvaluate datedLib false false false 100 200
      [(ascii "cache-control", ascii "max-age=90, max-age=60"),
        (ascii "expires", ascii "5000")] none).isSome = true := by decide +kernel
  obtain ⟨info, hi⟩ := Option.isSome_iff_exists.mp hso
  have hme : members datedLib (ascii "max-age=90, max-age=60") =
      [ascii "max-age=90", ascii "max-age=60"] := by decide +kernel
  refine ⟨info, hi, ?_⟩
  apply (maxAge_overrides_iff datedLib 100 [ascii "max-age=90, max-age=60"]
    ⟨ascii "2147483748", by decide +kernel⟩).mpr (.inr ⟨_, rfl, .inr ⟨60, by decide +kernel,
      by decide, fun value hvalue s hs n hn => ?_⟩⟩) _ _ _ _ _ _ _ (by decide +kernel) hi
      (ascii "max-age=90, max-age=60") mem_cons_self (ascii "max-age=60")
      (by rw [hme]; decide) 60 ⟨ascii "60", by decide⟩
  rw [mem_singleton.mp hvalue] at hs
  obtain ⟨digits, rfl, hd, -, -⟩ := hn
  rcases mem_cons.mp hs with hs | hs
  · obtain rfl : digits = ascii "90" := (append_right_inj (ascii "max-age=")).mp hs
    cases hd.symm.trans (show decimal (ascii "90") = some 90 by decide +kernel)
    decide
  · obtain rfl : digits = ascii "60" :=
      (append_right_inj (ascii "max-age=")).mp (mem_singleton.mp hs)
    cases hd.symm.trans (show decimal (ascii "60") = some 60 by decide +kernel)
    decide

/-- After `max-age=0`, the date of `Expires` counts. -/
theorem maxAge_zero_overridden :
    IsMaxAge (ascii "max-age=0") 0 ∧
      (httpCacheResponseEvaluate datedLib false false false 100 200
        [(ascii "cache-control", ascii "max-age=0"), (ascii "expires", ascii "5000")] none).map
          (·.expires) = some 5000 := by
  exact ⟨⟨ascii "0", by decide +kernel⟩, by decide +kernel⟩

end BengProxy.HttpCaching
