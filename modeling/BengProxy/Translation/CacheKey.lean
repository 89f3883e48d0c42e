import BengProxy.Translation.Request

/-!
# What a cache key says about a request

The key of a request should determine everything that a response may depend on. It does not: some
components of the key are not escaped, or not delimited. This says for which requests it does.
-/

namespace BengProxy.Translation

open Base Text List

variable {r : TranslateRequest}

variable {lib : UriEscape}

/-- The request can be cached under the key of its URI. -/
structure TranslateRequest.UriCacheable (r : TranslateRequest) (uri : Text) : Prop where
  uri_eq : r.uri = some uri
  evaluate : tcacheRequestEvaluate r = true
  contentTypeLookup : tcacheIsContentTypeLookup r = false
  chain : r.chain = none
  mountListenStream : r.mountListenStream = none

/-- What a response may depend on without `VARY`. -/
structure TranslateRequest.Same (r r' : TranslateRequest) : Prop where
  uri : r.uri = r'.uri
  status : r.status = r'.status
  layout : r.layout = r'.layout
  layoutItem : r.layoutItem = r'.layoutItem
  check : r.check = r'.check
  checkHeader : r.checkHeader = r'.checkHeader
  wantFullUri : r.wantFullUri = r'.wantFullUri
  probePathSuffixes : r.probePathSuffixes = r'.probePathSuffixes
  probeSuffix : r.probeSuffix = r'.probeSuffix
  directoryIndex : r.directoryIndex = r'.directoryIndex
  fileNotFound : r.fileNotFound = r'.fileNotFound
  readFile : r.readFile = r'.readFile
  pathExists : r.pathExists = r'.pathExists
  want : r.want.isEmpty = r'.want.isEmpty

theorem tcacheRequestKey_eq {uri : Text} (h : r.UriCacheable uri) :
    tcacheRequestKey lib r = some (tcacheUriKey lib uri r) := by
  unfold tcacheRequestKey
  rw [h.contentTypeLookup, h.chain, h.mountListenStream, h.uri_eq]
  rfl

/-- The request has none of the components that are added to its URI. -/
structure TranslateRequest.Bare (r : TranslateRequest) : Prop where
  readFile : r.readFile = none
  directoryIndex : r.directoryIndex = none
  fileNotFound : r.fileNotFound = none
  probePathSuffixes : r.probePathSuffixes = none
  pathExists : r.pathExists = false
  want : r.want.isEmpty = true
  wantFullUri : r.wantFullUri = none
  layout : r.layout = none
  check : r.check = none
  checkHeader : r.checkHeader = none
  host : r.host = none
  status : r.status = 0

/-- The text begins like a key with a component; the limits are those of
`tcache_request_evaluate()`. -/
inductive BeginsWithComponent (lib : UriEscape) : Text → Prop where
  | marked {mark value rest : Text} (hmark : mark ∈ [ascii "=RF]", ascii "=DIR]", ascii "=FNF]",
      ascii "=PPS"]) (hvalue : value.length ≤ 256) :
      BeginsWithComponent lib (lib.escape value ++ mark ++ rest)
  | pathExists {rest : Text} : BeginsWithComponent lib (ascii "|PE_" ++ rest)
  | want {rest : Text} : BeginsWithComponent lib (ascii "|W_" ++ rest)
  | wantFullUri {value rest : Text} (hvalue : value.length ≤ 256) :
      BeginsWithComponent lib (ascii "|WFU=" ++ lib.escape value ++ rest)
  | layout {value rest : Text} (item : Option TranslationLayoutItem) :
      BeginsWithComponent lib (lib.escape value ++ layoutItemPart item ++ ascii "=L|" ++ rest)
  | check {value rest : Text} (hvalue : value.length < 256) :
      BeginsWithComponent lib (ascii "|CHECK=" ++ lib.escape value ++ rest)
  | checkHeader {rest : Text} : BeginsWithComponent lib (ascii "|CH=" ++ rest)
  | host {host rest : Text} : BeginsWithComponent lib (host ++ ascii ":" ++ rest)
  | status {status : UInt16} {rest : Text} (hstatus : status ≠ 0) :
      BeginsWithComponent lib (statusPart status ++ rest)

private theorem keyParts_eq_nil_iff : (∀ part ∈ keyParts lib r, part = []) ↔ r.Bare := by
  have hma : ∀ {mark : Text} {value : Option Text}, mark ≠ [] →
      (markedPart lib mark value = [] ↔ value = none) := by
    intro mark value hm
    cases value <;> simp [markedPart, hm]
  have hi : ∀ {mark : Text} {value : Option Text}, mark ≠ [] →
      (introducedPart lib mark value = [] ↔ value = none) := by
    intro mark value hm
    cases value <;> simp [introducedPart, hm]
  have hpr : probePart lib r = [] ↔ r.probePathSuffixes = none := by
    cases h : r.probePathSuffixes <;> simp [probePart, h, ascii]
  have hfl : ∀ {mark : Text} {flag : Bool}, mark ≠ [] →
      (flagPart mark flag = [] ↔ flag = false) := by
    intro mark flag hm
    cases flag <;> simp [flagPart, hm]
  have hla : layoutPart lib r = [] ↔ r.layout = none := by
    cases h : r.layout <;> simp [layoutPart, h, ascii]
  have hhe : checkHeaderPart r.checkHeader = [] ↔ r.checkHeader = none := by
    cases r.checkHeader <;> simp [checkHeaderPart, ascii]
  have hh : hostPart r.host = [] ↔ r.host = none := by
    cases r.host <;> simp [hostPart, ascii]
  have hs : statusPart r.status = [] ↔ r.status = 0 := by
    by_cases h : r.status = 0 <;> simp [statusPart, ascii]
  simp only [keyParts, forall_mem_cons, hpr, hla, hhe, hh, hs]
  rw [hma (by decide), hma (by decide), hma (by decide), hfl (by decide),
    hfl (by decide), hi (by decide), hi (by decide), Bool.not_eq_false']
  constructor
  · rintro ⟨h1, h2, h3, h4, h5, h6, h7, h8, h9, h10, h11, h12, -⟩
    exact ⟨h1, h2, h3, h4, h5, h6, h7, h8, h9, h10, h11, h12⟩
  · rintro ⟨h1, h2, h3, h4, h5, h6, h7, h8, h9, h10, h11, h12⟩
    exact ⟨h1, h2, h3, h4, h5, h6, h7, h8, h9, h10, h11, h12,
      fun part hpa => absurd hpa not_mem_nil⟩

private theorem tcacheUriKey_eq_uri_iff {uri : Text} :
    tcacheUriKey lib uri r = uri ↔ r.Bare := by
  rw [tcacheUriKey, append_left_eq_self, flatten_eq_nil_iff, keyParts_eq_nil_iff]

private theorem TranslateRequest.Bare.same {r' : TranslateRequest} (h : r.Bare) (h' : r'.Bare)
    (hu : r.uri = r'.uri) : r.Same r' where
  uri := hu
  status := h.status.trans h'.status.symm
  layout := h.layout.trans h'.layout.symm
  layoutItem := (r.layoutItem_none h.layout).trans (r'.layoutItem_none h'.layout).symm
  check := h.check.trans h'.check.symm
  checkHeader := h.checkHeader.trans h'.checkHeader.symm
  wantFullUri := h.wantFullUri.trans h'.wantFullUri.symm
  probePathSuffixes := h.probePathSuffixes.trans h'.probePathSuffixes.symm
  probeSuffix := (r.probeSuffix_none h.probePathSuffixes).trans
    (r'.probeSuffix_none h'.probePathSuffixes).symm
  directoryIndex := h.directoryIndex.trans h'.directoryIndex.symm
  fileNotFound := h.fileNotFound.trans h'.fileNotFound.symm
  readFile := h.readFile.trans h'.readFile.symm
  pathExists := h.pathExists.trans h'.pathExists.symm
  want := h.want.trans h'.want.symm

private theorem begins_of_parts {p : List Text}
    (h : ∀ part ∈ p, part = [] ∨ ∀ rest, BeginsWithComponent lib (part ++ rest)) (uri : Text) :
    (∀ part ∈ p, part = []) ∨ BeginsWithComponent lib (p.flatten ++ uri) := by
  induction p with
  | nil => exact .inl fun part hpa => absurd hpa not_mem_nil
  | cons part p ih =>
    rw [flatten_cons, append_assoc]
    rcases h part mem_cons_self with hni | hb
    · rcases ih fun part hpa => h part (mem_cons_of_mem _ hpa) with hal | hr
      · exact .inl (forall_mem_cons.mpr ⟨hni, hal⟩)
      · rw [hni]
        exact .inr hr
    · exact .inr (hb _)

private theorem bare_or_begins (lib : UriEscape) (h : tcacheRequestEvaluate r = true) (uri : Text) :
    r.Bare ∨ BeginsWithComponent lib (tcacheUriKey lib uri r) := by
  simp only [tcacheRequestEvaluate, Bool.and_eq_true] at h
  obtain ⟨⟨⟨⟨⟨⟨⟨-, hc⟩, hw⟩, hpp⟩, hfn⟩, hd⟩, hrf⟩, -⟩ := h
  rw [← keyParts_eq_nil_iff]
  apply begins_of_parts
  have hma : ∀ {mark : Text} {value : Option Text},
      mark ∈ [ascii "=RF]", ascii "=DIR]", ascii "=FNF]", ascii "=PPS"] →
      value.all (·.length ≤ 256) = true → markedPart lib mark value = [] ∨
        ∀ rest, BeginsWithComponent lib (markedPart lib mark value ++ rest) := by
    intro mark value hm hv
    cases value with
    | none => exact .inl rfl
    | some value => exact .inr fun rest => .marked hm (of_decide_eq_true hv)
  have hfl : ∀ {mark : Text} {flag : Bool}, (∀ rest, BeginsWithComponent lib (mark ++ rest)) →
      flagPart mark flag = [] ∨ ∀ rest, BeginsWithComponent lib (flagPart mark flag ++ rest) := by
    intro mark flag hm
    cases flag with
    | false => exact .inl rfl
    | true => exact .inr hm
  simp only [keyParts, forall_mem_cons]
  refine ⟨hma (by decide) hrf, hma (by decide) hd, hma (by decide) hfn, ?_,
    hfl fun rest => .pathExists, hfl fun rest => .want, ?_, ?_, ?_, ?_, ?_, ?_,
    fun part hpa => absurd hpa not_mem_nil⟩
  · unfold probePart
    cases hv : r.probePathSuffixes with
    | none => exact .inl rfl
    | some value =>
      rw [hv] at hpp
      refine .inr fun rest => ?_
      rw [append_assoc _ _ rest]
      exact .marked (by decide) (of_decide_eq_true hpp)
  · cases hv : r.wantFullUri with
    | none => exact .inl rfl
    | some value =>
      rw [hv] at hw
      exact .inr fun rest => .wantFullUri (of_decide_eq_true hw)
  · unfold layoutPart
    cases r.layout with
    | none => exact .inl rfl
    | some value => exact .inr fun rest => .layout r.layoutItem
  · cases hv : r.check with
    | none => exact .inl rfl
    | some value =>
      rw [hv] at hc
      exact .inr fun rest => .check (of_decide_eq_true hc)
  · cases r.checkHeader with
    | none => exact .inl rfl
    | some value =>
      refine .inr fun rest => ?_
      exact .checkHeader
  · cases r.host with
    | none => exact .inl rfl
    | some host => exact .inr fun rest => .host
  · by_cases hs : r.status = 0
    · exact .inl (if_pos hs)
    · exact .inr fun rest => .status hs

private theorem key_of_one_part {uri part : Text} (hr : r.UriCacheable uri)
    (hpa : (keyParts lib r).flatten = part) (hne : part ≠ []) :
    ∃ r uri', TranslateRequest.UriCacheable r uri' ∧ tcacheUriKey lib uri' r = part ++ uri ∧
      uri'.length < (part ++ uri).length := by
  refine ⟨r, uri, hr, by rw [tcacheUriKey, hpa], ?_⟩
  rw [length_append]
  exact Nat.lt_add_of_pos_left (length_pos_iff.mpr hne)

attribute [local simp] tcacheRequestEvaluate tcacheIsContentTypeLookup keyParts markedPart
  introducedPart probePart flagPart layoutPart checkHeaderPart hostPart statusPart ascii

private theorem exists_key_of_begins {text : Text} (h : BeginsWithComponent lib text) :
    ∃ r uri, TranslateRequest.UriCacheable r uri ∧ tcacheUriKey lib uri r = text ∧
      uri.length < text.length := by
  cases h with
  | @marked mark value rest hm hv =>
    simp only [mem_cons, not_mem_nil, or_false] at hm
    rcases hm with rfl | rfl | rfl | rfl
    · apply key_of_one_part (r := { uri := some rest, readFile := some value })
        ⟨rfl, by simp [hv], rfl, rfl, rfl⟩ <;> simp
    · apply key_of_one_part (r := { uri := some rest, directoryIndex := some value })
        ⟨rfl, by simp [hv], rfl, rfl, rfl⟩ <;> simp
    · apply key_of_one_part (r := { uri := some rest, fileNotFound := some value })
        ⟨rfl, by simp [hv], rfl, rfl, rfl⟩ <;> simp
    · apply key_of_one_part (r := { uri := some rest, probePathSuffixes := some value })
        ⟨rfl, by simp [hv], rfl, rfl, rfl⟩ <;> simp
  | @pathExists rest =>
    apply key_of_one_part (r := { uri := some rest, pathExists := true })
      ⟨rfl, by simp, rfl, rfl, rfl⟩ <;> simp
  | @want rest =>
    apply key_of_one_part (r := { uri := some rest, want := [.host] })
      ⟨rfl, by simp, rfl, rfl, rfl⟩ <;> simp
  | @wantFullUri value rest hv =>
    apply key_of_one_part (r := { uri := some rest, wantFullUri := some value })
      ⟨rfl, by simp [hv], rfl, rfl, rfl⟩ <;> simp
  | @layout value rest item =>
    apply key_of_one_part (r := { uri := some rest, layout := some value, layoutItem := item })
      ⟨rfl, by simp, rfl, rfl, rfl⟩ <;> simp
  | @check value rest hv =>
    apply key_of_one_part (r := { uri := some rest, check := some value })
      ⟨rfl, by simp [hv], rfl, rfl, rfl⟩ <;> simp
  | @checkHeader rest =>
    apply key_of_one_part (r := { uri := some rest, checkHeader := some [] })
      ⟨rfl, by simp, rfl, rfl, rfl⟩ <;> simp
  | @host host rest =>
    apply key_of_one_part (r := { uri := some rest, host := some host })
      ⟨rfl, by simp, rfl, rfl, rfl⟩ <;> simp
  | @status status rest hs =>
    apply key_of_one_part (r := { uri := some rest, status := status })
      ⟨rfl, by simp, rfl, rfl, rfl⟩ <;> simp [hs]

/-- The key of a request determines it exactly if the request has nothing but a URI, and that does
not begin like another component. -/
theorem key_determines_iff {uri : Text} (hr : r.UriCacheable uri) :
    (∀ r' uri', TranslateRequest.UriCacheable r' uri' →
      tcacheRequestKey lib r = tcacheRequestKey lib r' → r.Same r') ↔
      r.Bare ∧ ¬BeginsWithComponent lib uri := by
  have hke : ∀ {r' uri'}, TranslateRequest.UriCacheable r' uri' →
      (tcacheRequestKey lib r = tcacheRequestKey lib r' ↔
        tcacheUriKey lib uri r = tcacheUriKey lib uri' r') := by
    intro r' uri' hr'
    rw [tcacheRequestKey_eq hr, tcacheRequestKey_eq hr', Option.some_inj]
  constructor
  · intro h
    -- the request that has the key as its URI
    have hu : uri = tcacheUriKey lib uri r := by
      have hpl : TranslateRequest.UriCacheable { uri := some (tcacheUriKey lib uri r) }
          (tcacheUriKey lib uri r) := ⟨rfl, by simp, rfl, rfl, rfl⟩
      have hsa := h _ _ hpl ((hke hpl).mpr (by simp [tcacheUriKey]))
      exact Option.some_inj.mp (hr.uri_eq.symm.trans hsa.uri)
    refine ⟨tcacheUriKey_eq_uri_iff.mp hu.symm, fun hb => ?_⟩
    obtain ⟨r', uri', hr', he, hle⟩ := exists_key_of_begins hb
    have hsa := h r' uri' hr' ((hke hr').mpr (hu.symm.trans he.symm))
    have hsh : uri = uri' := Option.some_inj.mp ((hr.uri_eq.symm.trans hsa.uri).trans hr'.uri_eq)
    rw [hsh] at hle
    exact lt_irrefl _ hle
  · rintro ⟨hba, hn⟩ r' uri' hr' he
    have hb' : r'.Bare := by
      rcases bare_or_begins lib hr'.evaluate uri' with hb' | hb
      · exact hb'
      · rw [← (hke hr').mp he, tcacheUriKey_eq_uri_iff.mpr hba] at hb
        exact absurd hb hn
    have hu : uri = uri' :=
      calc
        uri = tcacheUriKey lib uri r := (tcacheUriKey_eq_uri_iff.mpr hba).symm
        _ = tcacheUriKey lib uri' r' := (hke hr').mp he
        _ = uri' := tcacheUriKey_eq_uri_iff.mpr hb'
    exact hba.same hb' (by rw [hr.uri_eq, hr'.uri_eq, hu])

end BengProxy.Translation
