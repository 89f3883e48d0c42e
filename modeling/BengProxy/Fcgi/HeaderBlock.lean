import BengProxy.Fcgi.Client
import Mathlib.Algebra.BigOperators.Group.List.Basic
import Mathlib.Data.List.TakeWhile

/-!
# The header block of a FastCGI response

What `ParseHeaders()` does with the lines that it is shown, and which headers are passed on in the
end. A line that is shown twice is handled twice: nothing is consumed before the empty line.
-/

namespace BengProxy.Fcgi

open Base Text Http StringMap List

variable {s : FcgiClient}

namespace FcgiClient

variable {lib : FcgiLib}

section Lines

variable (lib)

/-- Lines, each one with a line feed. -/
def joinLines (lines : List Text) : Text := lines.flatMap (· ++ [0x0a])

/-- A line without the white space at its end. -/
def stripLine (line : Text) : Text := stripRight lib.toHeaderLineLib line

/-- The headers in some lines. -/
def headersOf (lines : List Text) : StringMap :=
  lines.filterMap fun line => parsedHeader lib.toHeaderLineLib (stripLine lib line)

/-- The size of some lines. -/
def linesSize (lines : List Text) : Nat := (lines.map fun line => (stripLine lib line).length).sum

/-- A line with a header that is not too long. -/
structure HeaderLine (line : Text) : Prop where
  no_lf : 0x0a ∉ line
  ne_nil : stripLine lib line ≠ []
  length_lt : (stripLine lib line).length < maxHttpHeaderSize
  parsed : (parsedHeader lib.toHeaderLineLib (stripLine lib line)).isSome = true

instance (line : Text) : Decidable (HeaderLine lib line) :=
  decidable_of_iff (0x0a ∉ line ∧ stripLine lib line ≠ [] ∧
      (stripLine lib line).length < maxHttpHeaderSize ∧
      (parsedHeader lib.toHeaderLineLib (stripLine lib line)).isSome = true)
    ⟨fun ⟨h1, h2, h3, h4⟩ => ⟨h1, h2, h3, h4⟩, fun ⟨h1, h2, h3, h4⟩ => ⟨h1, h2, h3, h4⟩⟩

/-- The bytes of a header block: the lines and an empty line, which may have white space. -/
def blockBytes (lines : List Text) (last : Text) : Text := joinLines lines ++ (last ++ [0x0a])

/-- A header block below the size limits. -/
structure HeaderBlock (lines : List Text) (last : Text) : Prop where
  line : ∀ line ∈ lines, HeaderLine lib line
  no_lf : 0x0a ∉ last
  last_eq : stripLine lib last = []
  size_lt : linesSize lib lines < maxTotalHttpHeaderSize

end Lines

@[simp]
theorem joinLines_cons (line : Text) (lines : List Text) :
    joinLines (line :: lines) = line ++ 0x0a :: joinLines lines := by
  simp [joinLines]

@[simp]
theorem headersOf_append (a b : List Text) :
    headersOf lib (a ++ b) = headersOf lib a ++ headersOf lib b := filterMap_append

@[simp]
theorem linesSize_append (a b : List Text) :
    linesSize lib (a ++ b) = linesSize lib a + linesSize lib b := by
  rw [linesSize, map_append, sum_append, linesSize, linesSize]

private theorem ne_lf_of_not_mem {line : Text} (h : (0x0a : UInt8) ∉ line) :
    ∀ c ∈ line, decide (c ≠ 0x0a) = true := by
  intro c hc
  rw [decide_eq_true_eq]
  rintro rfl
  exact h hc

private theorem splitLine_append {line : Text} (h : 0x0a ∉ line) (rest : Text) :
    splitLine (line ++ 0x0a :: rest) = some (line, rest) := by
  have hal := ne_lf_of_not_mem h
  rw [splitLine, splitWhile, takeWhile_append_of_pos hal, dropWhile_append_of_pos hal]
  simp

private theorem splitLine_eq_none {src : Text} (h : 0x0a ∉ src) : splitLine src = none := by
  have hd : src.dropWhile (· ≠ 0x0a) = [] := dropWhile_eq_nil_iff.mpr (ne_lf_of_not_mem h)
  rw [splitLine, splitWhile, hd]

/-- After some lines have been handled. -/
def addLines (lib : FcgiLib) (s : FcgiClient) (lines : List Text) : FcgiClient :=
  { s with
    headers := s.headers ++ headersOf lib lines
    totalHeaderSize := s.totalHeaderSize + linesSize lib lines }

theorem addLines_nil (s : FcgiClient) : s.addLines lib [] = s := by
  simp [addLines, headersOf, linesSize]

theorem addLines_append (s : FcgiClient) (a b : List Text) :
    (s.addLines lib a).addLines lib b = s.addLines lib (a ++ b) := by
  simp [addLines, add_assoc]

private theorem handleLine_eq {line : Text} (h : HeaderLine lib line) :
    s.handleLine lib (stripLine lib line) =
      if s.totalHeaderSize + linesSize lib [line] < maxTotalHttpHeaderSize then
        .ok (s.addLines lib [line], false)
      else .error "Too many response headers" := by
  obtain ⟨item, hi⟩ := Option.isSome_iff_exists.mp h.parsed
  have hs : linesSize lib [line] = (stripLine lib line).length := by simp [linesSize]
  have hh : headersOf lib [line] = [item] := by simp [headersOf, hi]
  rw [handleLine, if_pos h.ne_nil, if_neg (not_le.mpr h.length_lt), hs]
  by_cases hlt : s.totalHeaderSize + (stripLine lib line).length < maxTotalHttpHeaderSize
  · rw [if_neg (not_le.mpr hlt), if_pos hlt, headerParseLine, hi, addLines, hh]
    rfl
  · rw [if_pos (Nat.le_of_not_lt hlt), if_neg hlt]

private theorem parseHeadersLoop_cons {line : Text} (h : HeaderLine lib line) (rest : Text) :
    s.parseHeadersLoop lib (line ++ 0x0a :: rest) =
      if s.totalHeaderSize + linesSize lib [line] < maxTotalHttpHeaderSize then
        (s.addLines lib [line]).parseHeadersLoop lib rest
      else .error "Too many response headers" := by
  rw [parseHeadersLoop]
  split
  next he =>
    rw [splitLine_append h.no_lf] at he
    cases he
  next line' rest' he =>
    rw [splitLine_append h.no_lf] at he
    cases he
    have hl := handleLine_eq (s := s) h
    rw [stripLine] at hl
    rw [hl]
    by_cases hlt : s.totalHeaderSize + linesSize lib [line] < maxTotalHttpHeaderSize
    · rw [if_pos hlt, if_pos hlt]
    · rw [if_neg hlt, if_neg hlt]

private theorem parseHeadersLoop_lines (lines : List Text) :
    ∀ {s : FcgiClient}, (∀ line ∈ lines, HeaderLine lib line) →
      s.totalHeaderSize < maxTotalHttpHeaderSize → ∀ rest,
      s.parseHeadersLoop lib (joinLines lines ++ rest) =
        if s.totalHeaderSize + linesSize lib lines < maxTotalHttpHeaderSize then
          (s.addLines lib lines).parseHeadersLoop lib rest
        else .error "Too many response headers" := by
  induction lines with
  | nil =>
    intro s _ hs rest
    rw [addLines_nil, if_pos (by simpa [linesSize] using hs)]
    rfl
  | cons line lines ih =>
    intro s hli hs rest
    have hln := hli line mem_cons_self
    have hc : linesSize lib (line :: lines) = linesSize lib [line] + linesSize lib lines :=
      linesSize_append [line] lines
    rw [joinLines_cons, append_assoc, cons_append, parseHeadersLoop_cons hln, hc]
    by_cases hlt : s.totalHeaderSize + linesSize lib [line] < maxTotalHttpHeaderSize
    · rw [if_pos hlt, ih (fun l hl => hli l (mem_cons_of_mem line hl)) hlt,
        addLines_append, singleton_append]
      simp only [addLines, add_assoc]
    · rw [if_neg hlt, if_neg (by omega)]

/-- The lines that are complete are handled, and nothing is consumed. -/
theorem parseHeaders_incomplete {lines : List Text} {rest : Text}
    (hli : ∀ line ∈ lines, HeaderLine lib line) (hr : 0x0a ∉ rest)
    (hs : s.totalHeaderSize < maxTotalHttpHeaderSize) :
    s.parseHeaders lib (joinLines lines ++ rest) =
      if s.totalHeaderSize + linesSize lib lines < maxTotalHttpHeaderSize then
        .ok (s.addLines lib lines, 0)
      else .error "Too many response headers" := by
  have hen : ∀ s : FcgiClient, s.parseHeadersLoop lib rest = .ok (s, none) := by
    intro s
    rw [parseHeadersLoop]
    split
    · rfl
    next he =>
      rw [splitLine_eq_none hr] at he
      cases he
  rw [parseHeaders, parseHeadersLoop_lines lines hli hs, hen]
  by_cases hlt : s.totalHeaderSize + linesSize lib lines < maxTotalHttpHeaderSize
  · rw [if_pos hlt, if_pos hlt]
  · rw [if_neg hlt, if_neg hlt]

/-- The whole block is handled and consumed. -/
theorem parseHeaders_block {lines : List Text} {last : Text}
    (h : HeaderBlock lib lines last) (hs : s.totalHeaderSize < maxTotalHttpHeaderSize)
    (rest : Text) :
    s.parseHeaders lib (blockBytes lines last ++ rest) =
      if s.totalHeaderSize + linesSize lib lines < maxTotalHttpHeaderSize then
        .ok ({ s.addLines lib lines with receivingHeaders := false },
          (blockBytes lines last).length)
      else .error "Too many response headers" := by
  have hen : ∀ s : FcgiClient, s.parseHeadersLoop lib (last ++ 0x0a :: rest) =
      .ok ({ s with receivingHeaders := false }, some rest) := by
    intro s
    rw [parseHeadersLoop]
    split
    next he =>
      rw [splitLine_append h.no_lf] at he
      cases he
    next line rest' he =>
      rw [splitLine_append h.no_lf] at he
      cases he
      have hla := h.last_eq
      rw [stripLine] at hla
      rw [hla]
      rfl
  have hb : blockBytes lines last ++ rest = joinLines lines ++ (last ++ 0x0a :: rest) := by
    rw [blockBytes, append_assoc, append_assoc, singleton_append]
  rw [parseHeaders, hb, parseHeadersLoop_lines lines h.line hs, hen]
  by_cases hlt : s.totalHeaderSize + linesSize lib lines < maxTotalHttpHeaderSize
  · rw [if_pos hlt, if_pos hlt, ← hb]
    simp only [length_append, Nat.add_sub_cancel]
  · rw [if_neg hlt, if_neg hlt]

/-- A beginning of the block that is not all of it: some lines, and a part of the next one. -/
theorem exists_lines_of_prefix {last : Text} (hla : 0x0a ∉ last) (lines : List Text) :
    ∀ {shown : Text}, (∀ line ∈ lines, 0x0a ∉ line) → shown <+: blockBytes lines last →
      shown ≠ blockBytes lines last →
      ∃ pre post rest, lines = pre ++ post ∧ shown = joinLines pre ++ rest ∧ 0x0a ∉ rest := by
  induction lines with
  | nil =>
    intro shown _ hpr hne
    refine ⟨[], [], shown, rfl, rfl, fun hme => ?_⟩
    -- the only line feed is the last character
    rcases prefix_concat_iff.mp hpr with he | hlt
    · exact hne he
    · exact hla (hlt.subset hme)
  | cons line lines ih =>
    intro shown hlf hpr hne
    have hli := hlf line mem_cons_self
    have hb : blockBytes (line :: lines) last = line ++ [0x0a] ++ blockBytes lines last := by
      rw [blockBytes, blockBytes]
      simp
    rw [hb] at hpr hne
    rcases prefix_or_prefix_of_prefix hpr (prefix_append (line ++ [0x0a]) _) with
      hs | ⟨shown', rfl⟩
    · rcases prefix_concat_iff.mp hs with he | hlt
      · refine ⟨[line], lines, [], rfl, ?_, not_mem_nil⟩
        rw [he]
        simp [joinLines]
      · exact ⟨[], line :: lines, shown, rfl, rfl, fun hme => hli (hlt.subset hme)⟩
    · have hp' := (prefix_append_right_inj _).mp hpr
      obtain ⟨pre, post, rest, hsp, hsh, hr⟩ :=
        ih (fun l hl => hlf l (mem_cons_of_mem line hl)) hp' fun he => hne (by rw [he])
      refine ⟨line :: pre, post, rest, by rw [hsp]; rfl, ?_, hr⟩
      rw [hsh]
      simp

/-- There is a line feed if and only if there is a line. -/
theorem lf_mem_iff {pre : List Text} {rest : Text} (hr : 0x0a ∉ rest) :
    0x0a ∈ joinLines pre ++ rest ↔ pre ≠ [] := by
  cases pre with
  | nil =>
    constructor
    · exact fun hme => absurd hme hr
    · exact fun hne => absurd rfl hne
  | cons line pre => simp

/-- The headers that are passed on: those of the block without the status, and without the length if
there is a body. -/
def submittedHeaders (lib : FcgiLib) (noBody : Bool) (headers : StringMap) : StringMap :=
  let (status, headers) := removeStatus lib headers
  if noBody || lib.statusIsEmpty status then headers
  else (headers.remove lib.toLookup (ascii "content-length")).2

private theorem countP_erase {m : StringMap} {item : Text × Text} (h : item ∈ m)
    (p : Text × Text → Bool) :
    m.countP p = (m.erase item).countP p + if p item then 1 else 0 := by
  rw [(perm_cons_erase h).countP_eq, countP_cons]

private theorem length_erase {m : StringMap} {item : Text × Text} (h : item ∈ m) :
    m.length = (m.erase item).length + 1 := by
  rw [(perm_cons_erase h).length_eq, length_cons]

/-- The number of items with a key. -/
def countKey (m : StringMap) (key : Text) : Nat := m.countP (·.1 = key)

private theorem countKey_remove (l : Lookup) (m : StringMap) (key key' : Text) :
    countKey (m.remove l key).2 key' = countKey m key' - if key = key' then 1 else 0 := by
  rw [remove]
  split
  next hg =>
    split
    next he =>
      -- there is no item with the key
      have hni : m.values key = [] := get_eq_none_iff.mp hg
      rw [values, map_eq_nil_iff] at hni
      rw [← he, countKey, countP_eq_length_filter, hni, length_nil]
    · rfl
  next value hg =>
    have hc := countP_erase (mem_of_get hg) (·.1 = key')
    rw [countKey, countKey, hc]
    by_cases he : key = key'
    · simp [he]
    · simp [he]

private theorem length_remove (l : Lookup) (m : StringMap) (key : Text) :
    (m.remove l key).2.length + (if m.values key = [] then 0 else 1) = m.length := by
  rw [remove]
  split
  next hg =>
    rw [if_pos (get_eq_none_iff.mp hg)]
    rfl
  next value hg =>
    have hne : m.values key ≠ [] := by
      intro hni
      rw [get_eq_none_iff.mpr hni] at hg
      cases hg
    rw [if_neg hne, length_erase (mem_of_get hg)]

private theorem snd_removeStatus (h : StringMap) :
    (removeStatus lib h).2 = (h.remove lib.toLookup (ascii "status")).2 := by
  rw [removeStatus]
  split
  next he => rw [he]
  next he => rw [he]

private theorem values_remove {l : Lookup} {m : StringMap} {key key' : Text} (h : key ≠ key') :
    (m.remove l key).2.values key' = [] ↔ m.values key' = [] := by
  have hc := countKey_remove l m key key'
  rw [if_neg h, Nat.sub_zero, countKey, countKey, countP_eq_length_filter,
    countP_eq_length_filter] at hc
  rw [values, values, map_eq_nil_iff, map_eq_nil_iff,
    ← length_eq_zero_iff, ← length_eq_zero_iff, hc]

private theorem countKey_submittedHeaders (n : Bool) (h : StringMap) :
    countKey (submittedHeaders lib n h) (ascii "status") =
      countKey h (ascii "status") - 1 := by
  have hne : ascii "content-length" ≠ ascii "status" := by decide
  rw [submittedHeaders]
  simp only
  split
  · rw [snd_removeStatus, countKey_remove, if_pos rfl]
  · rw [countKey_remove, if_neg hne, Nat.sub_zero, snd_removeStatus, countKey_remove, if_pos rfl]

/-- How many headers are removed. -/
def removedCount (lib : FcgiLib) (noBody : Bool) (headers : StringMap) : Nat :=
  (if headers.values (ascii "status") = [] then 0 else 1) +
    if noBody || lib.statusIsEmpty (removeStatus lib headers).1 then 0
    else if headers.values (ascii "content-length") = [] then 0 else 1

private theorem length_submittedHeaders (lib : FcgiLib) (n : Bool) (he : StringMap) :
    (submittedHeaders lib n he).length + removedCount lib n he =
      he.length := by
  have hne : ascii "status" ≠ ascii "content-length" := by decide
  have hs := length_remove lib.toLookup he (ascii "status")
  rw [submittedHeaders, removedCount]
  simp only [snd_removeStatus]
  by_cases h : (n || lib.statusIsEmpty (removeStatus lib he).1) = true
  · rw [if_pos h, if_pos h]
    exact hs
  have hle := length_remove lib.toLookup
    (he.remove lib.toLookup (ascii "status")).2 (ascii "content-length")
  simp only [values_remove hne] at hle
  rw [if_neg h, if_neg h]
  omega

/-- If the headers were in the map already, then adding them makes a difference. -/
theorem eq_nil_of_submittedHeaders {noBody : Bool} {twice headers : StringMap}
    (hme : ∀ item ∈ twice, item ∈ headers)
    (h : submittedHeaders lib noBody (twice ++ headers) = submittedHeaders lib noBody headers) :
    twice = [] := by
  have hv : ∀ key, values (twice ++ headers) key = values twice key ++ values headers key := by
    intro key
    rw [values, filter_append, map_append]
    rfl
  have hsu : ∀ key, values headers key = [] → values twice key = [] := by
    intro key hni
    rw [values, map_eq_nil_iff, filter_eq_nil_iff] at hni ⊢
    exact fun item hi => hni item (hme item hi)
  -- no status is there twice, so that the status is the same
  have hs : values twice (ascii "status") = [] := by
    have hc := congrArg (countKey · (ascii "status")) h
    simp only [countKey_submittedHeaders] at hc
    have hap : countKey (twice ++ headers) (ascii "status") =
        countKey twice (ascii "status") + countKey headers (ascii "status") :=
      countP_append
    rw [values, map_eq_nil_iff, ← length_eq_zero_iff, ← countP_eq_length_filter]
    by_contra hpo
    have hh : countKey headers (ascii "status") ≠ 0 := by
      intro hz
      rw [countKey, countP_eq_length_filter, length_eq_zero_iff] at hz
      have hni := hsu (ascii "status") (by rw [values, hz, map_nil])
      rw [values, map_eq_nil_iff] at hni
      rw [countP_eq_length_filter, hni] at hpo
      exact hpo rfl
    have hp' : countKey twice (ascii "status") ≠ 0 := hpo
    omega
  have hsa : (removeStatus lib (twice ++ headers)).1 = (removeStatus lib headers).1 := by
    have hg : get lib.toLookup (twice ++ headers) (ascii "status") =
        get lib.toLookup headers (ascii "status") := by
      rw [StringMap.get, StringMap.get, hv, hs, nil_append]
    rw [removeStatus, removeStatus, remove, remove, hg]
    cases get lib.toLookup headers (ascii "status") with
    | none | some value => rfl
  have hle : values (twice ++ headers) (ascii "content-length") = [] ↔
      values headers (ascii "content-length") = [] := by
    rw [hv, append_eq_nil_iff]
    exact ⟨And.right, fun hni => ⟨hsu _ hni, hni⟩⟩
  have hre : removedCount lib noBody (twice ++ headers) = removedCount lib noBody headers := by
    rw [removedCount, removedCount, hsa, hv (ascii "status"), hs, nil_append]
    simp only [hle]
  have ht := length_submittedHeaders lib noBody (twice ++ headers)
  have ho := length_submittedHeaders lib noBody headers
  rw [h, length_append] at ht
  rw [← length_eq_zero_iff]
  omega

end FcgiClient

end BengProxy.Fcgi
