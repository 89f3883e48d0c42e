import BengProxy.Translation.CacheKey

/-!
# Keys with delimiters

If a request has only such components that are delimited in the key, and no delimiter in those that
are not escaped, then they can be read back from the key, one after the other.
-/

namespace BengProxy.Translation

open Base Text List

variable {r r' : TranslateRequest} {uri uri' text : Text} {letter : UInt8}

variable {lib : UriEscape}

/-- The request has no component that is not delimited, and its host, its suffix and its URI cannot
be mistaken for something else. -/
structure TranslateRequest.Delimited (r : TranslateRequest) (uri : Text) : Prop where
  wantFullUri : r.wantFullUri = none
  layoutItem : r.layoutItem = none
  check : r.check = none
  checkHeader : r.checkHeader = none
  host : ∀ host, r.host = some host → (∃ c rest, host = c :: rest ∧ c ≠ 0x3a) ∧
    ∀ c ∈ host, c ≠ 0x2f ∧ c ≠ 0x3d ∧ c ≠ 0x7c
  probeSuffix : ∀ suffix, r.probeSuffix = some suffix → 0x5d ∉ suffix
  uri : ∃ rest, uri = 0x2f :: rest

theorem mem_statusPart {status : UInt16} {c : UInt8} (h : c ∈ statusPart status) :
    isEscaped c = true ∧ c ≠ 0x2f ∧ c ≠ 0x3a := by
  have hd : ∀ c : UInt8, isDigit c = true → isEscaped c = true ∧ c ≠ 0x2f ∧ c ≠ 0x3a := by
    apply forall_byte
    decide +kernel
  have hfi : ∀ c ∈ ascii "ERR" ++ ascii "_", isEscaped c = true ∧ c ≠ 0x2f ∧ c ≠ 0x3a := by
    decide +kernel
  unfold statusPart at h
  split at h
  · exact absurd h not_mem_nil
  rcases mem_append.mp h with h | h
  · rcases mem_append.mp h with h | h
    · exact hfi c (mem_append_left _ h)
    · exact hd c (isDigit_of_mem_formatDecimal h)
  · exact hfi c (mem_append_right _ h)

theorem statusPart_inj {status status' : UInt16} (h : statusPart status = statusPart status') :
    status = status' := by
  unfold statusPart at h
  split at h <;> split at h
  next h0 h0' => rw [h0, h0']
  · simp [ascii] at h
  · simp [ascii] at h
  next h0 h0' =>
    have hnu := append_cancel_left (append_cancel_right h)
    apply UInt16.toNat_inj.mp
    refine formatDecimal_inj ?_ ?_ hnu
    · exact fun hn => h0 (UInt16.toNat_inj.mp hn)
    · exact fun hn => h0' (UInt16.toNat_inj.mp hn)

/-- The host, the status and the URI. -/
def hostKey (uri : Text) (r : TranslateRequest) : Text :=
  hostPart r.host ++ (statusPart r.status ++ uri)

theorem mem_hostPart (h : r.Delimited uri) {c : UInt8}
    (hc : c ∈ hostPart r.host) : c ≠ 0x2f ∧ c ≠ 0x3d ∧ c ≠ 0x7c := by
  cases hh : r.host with
  | none =>
    rw [hh] at hc
    exact absurd hc not_mem_nil
  | some host =>
    rw [hh] at hc
    rcases mem_append.mp hc with hc | hc
    · exact (h.host host hh).2 c hc
    · rw [mem_singleton.mp hc]
      decide

private theorem hostKey_inj (hr : r.Delimited uri)
    (hr' : r'.Delimited uri') (h : hostKey uri r = hostKey uri' r') :
    r.status = r'.status ∧ uri = uri' := by
  obtain ⟨rest, rfl⟩ := hr.uri
  obtain ⟨rest', rfl⟩ := hr'.uri
  unfold hostKey at h
  rw [← append_assoc, ← append_assoc] at h
  have hsl : ∀ {r : TranslateRequest} {uri : Text}, r.Delimited uri →
      ∀ c ∈ hostPart r.host ++ statusPart r.status, (c != 0x2f) = true := by
    intro r uri hr c hc
    rw [bne_iff_ne]
    rcases mem_append.mp hc with hc | hc
    · exact (mem_hostPart hr hc).1
    · exact (mem_statusPart hc).2.1
  obtain ⟨hb, -, hrs⟩ := append_cons_inj (hsl hr) (hsl hr') (by decide) (by decide) h
  refine ⟨?_, by rw [hrs]⟩
  have hco : ∀ {status : UInt16}, ∀ c ∈ (statusPart status).reverse, (c != 0x3a) = true := by
    intro status c hc
    rw [bne_iff_ne]
    exact (mem_statusPart (mem_reverse.mp hc)).2.2
  have hno : ∀ {host : Text} {status status' : UInt16},
      host ++ [0x3a] ++ statusPart status ≠ statusPart status' := by
    intro host status status' he
    have hme : 0x3a ∈ statusPart status' := by
      rw [← he]
      simp
    exact (mem_statusPart hme).2.2 rfl
  apply statusPart_inj
  cases hh : r.host with
  | none =>
    cases hh' : r'.host with
    | none =>
      rw [hh, hh'] at hb
      exact hb
    | some host' =>
      rw [hh, hh'] at hb
      exact absurd hb.symm hno
  | some host =>
    cases hh' : r'.host with
    | none =>
      rw [hh, hh'] at hb
      exact absurd hb hno
    | some host' =>
      -- from the end: the status has no colon
      rw [hh, hh'] at hb
      have hre := congrArg reverse hb
      have hho : ∀ {host : Text} {status : UInt16},
          (hostPart (some host) ++ statusPart status).reverse =
            (statusPart status).reverse ++ 0x3a :: host.reverse := by
        intro host status
        simp [hostPart, ascii]
      rw [hho, hho] at hre
      have hs := (append_cons_inj hco hco (by decide) (by decide) hre).1
      exact reverse_injective hs

/-- After the characters of an escaped string, there is no mark with this letter. -/
def NoMark (letter : UInt8) (text : Text) : Prop :=
  ∀ rest, text.dropWhile isEscaped ≠ 0x3d :: letter :: rest

theorem markedPart_inj {mark text' : Text} {value value' : Option Text}
    (ht : NoMark letter text) (ht' : NoMark letter text')
    (h : markedPart lib (0x3d :: letter :: mark) value ++ text =
      markedPart lib (0x3d :: letter :: mark) value' ++ text') : value = value' ∧ text = text' := by
  have he : ∀ {value : Text}, ∀ c ∈ lib.escape value, isEscaped c = true :=
    fun c hc => lib.isEscaped_of_mem hc
  have hno : ∀ {value text text' : Text}, NoMark letter text →
      text ≠ lib.escape value ++ 0x3d :: letter :: mark ++ text' := by
    intro value text text' ht heq
    rw [heq, append_assoc] at ht
    exact ht (mark ++ text') (dropWhile_append_cons he (by decide))
  cases value with
  | none =>
    cases value' with
    | none => exact ⟨rfl, h⟩
    | some value' => exact absurd h (hno ht)
  | some value =>
    cases value' with
    | none => exact absurd h.symm (hno ht')
    | some value' =>
      unfold markedPart at h
      rw [append_assoc, append_assoc] at h
      obtain ⟨hv, -, hr⟩ := append_cons_inj he he (by decide) (by decide) h
      exact ⟨by rw [lib.injective hv], append_cancel_left hr⟩

theorem noMark_markedPart {other : UInt8} {mark : Text} {value : Option Text}
    (hne : letter ≠ other) (h : NoMark letter text) :
    NoMark letter (markedPart lib (0x3d :: other :: mark) value ++ text) := by
  cases value with
  | none => exact h
  | some value =>
    intro rest he
    unfold markedPart at he
    rw [append_assoc, cons_append, dropWhile_append_cons
      (fun c hc => lib.isEscaped_of_mem hc) (by decide)] at he
    exact hne (cons.inj (cons.inj he).2).1.symm

theorem noMark_flagPart {mark : Text} {flag : Bool} (h : NoMark letter text) :
    NoMark letter (flagPart (0x7c :: mark) flag ++ text) := by
  cases flag with
  | false => exact h
  | true =>
    intro rest he
    exact absurd (cons.inj he).1 (by decide)

private theorem noMark_hostKey (letter : UInt8)
    (hr : r.Delimited uri) : NoMark letter (hostKey uri r) := by
  intro rest he
  obtain ⟨uri', rfl⟩ := hr.uri
  unfold hostKey at he
  rw [← append_assoc] at he
  rcases mem_of_dropWhile_append_cons (by decide) he with hme | hsl
  · rcases mem_append.mp hme with hme | hme
    · exact (mem_hostPart hr hme).2.1 rfl
    · exact absurd (mem_statusPart hme).1 (by decide)
  · exact absurd hsl (by decide)

/-- The layout and what follows. -/
def layoutKey (lib : UriEscape) (uri : Text) (r : TranslateRequest) : Text :=
  layoutPart lib r ++ hostKey uri r

theorem layoutPart_eq (h : r.layoutItem = none) :
    layoutPart lib r = markedPart lib (ascii "=L|") r.layout := by
  unfold layoutPart
  cases r.layout with
  | none => rfl
  | some value =>
    show lib.escape value ++ layoutItemPart r.layoutItem ++ ascii "=L|" =
      lib.escape value ++ ascii "=L|"
    rw [h, layoutItemPart, append_nil]

theorem noMark_layoutKey (hne : letter ≠ 0x4c)
    (hr : r.Delimited uri) : NoMark letter (layoutKey lib uri r) := by
  unfold layoutKey
  rw [layoutPart_eq hr.layoutItem]
  exact noMark_markedPart hne (noMark_hostKey letter hr)

private theorem layoutKey_inj (hr : r.Delimited uri)
    (hr' : r'.Delimited uri') (h : layoutKey lib uri r = layoutKey lib uri' r') :
    r.layout = r'.layout ∧ hostKey uri r = hostKey uri' r' := by
  unfold layoutKey at h
  rw [layoutPart_eq hr.layoutItem, layoutPart_eq hr'.layoutItem] at h
  exact markedPart_inj (noMark_hostKey _ hr) (noMark_hostKey _ hr') h

private theorem head_layoutKey {rest : Text} {c : UInt8} (hr : r.Delimited uri)
    (h : layoutKey lib uri r = c :: rest) : c ≠ 0x3a ∧ c ≠ 0x7c := by
  have hes : ∀ c, isEscaped c = true → c ≠ 0x3a ∧ c ≠ 0x7c := by
    apply forall_byte
    decide +kernel
  have hfi : ∀ {s t rest : Text} {c : UInt8}, (∀ c ∈ s, c ≠ 0x3a ∧ c ≠ 0x7c) →
      (∀ {rest c}, t = c :: rest → c ≠ 0x3a ∧ c ≠ 0x7c) → s ++ t = c :: rest →
      c ≠ 0x3a ∧ c ≠ 0x7c := by
    intro s t rest c hs ht he
    cases s with
    | nil => exact ht he
    | cons x xs =>
      rw [← (cons.inj he).1]
      exact hs x mem_cons_self
  unfold layoutKey at h
  rw [layoutPart_eq hr.layoutItem] at h
  cases hla : r.layout with
  | some value =>
    rw [hla] at h
    unfold markedPart at h
    rw [append_assoc] at h
    refine hfi (fun c hc => hes c (lib.isEscaped_of_mem hc)) (fun he => ?_) h
    rw [← (cons.inj he).1]
    decide
  | none =>
    rw [hla] at h
    unfold hostKey at h
    cases hh : r.host with
    | some host =>
      rw [hh] at h
      obtain ⟨⟨x, xs, rfl, hx⟩, hal⟩ := hr.host host hh
      have he : x = c := (cons.inj h).1
      rw [← he]
      exact ⟨hx, (hal x mem_cons_self).2.2⟩
    | none =>
      rw [hh] at h
      refine hfi (fun c hc => hes c (mem_statusPart hc).1) (fun he => ?_) h
      obtain ⟨uri', hu⟩ := hr.uri
      rw [hu] at he
      rw [← (cons.inj he).1]
      decide

private theorem flagPart_inj {mark text' : Text} {flag flag' : Bool}
    (ht : ∀ rest, text ≠ 0x7c :: letter :: rest) (ht' : ∀ rest, text' ≠ 0x7c :: letter :: rest)
    (h : flagPart (0x7c :: letter :: mark) flag ++ text =
      flagPart (0x7c :: letter :: mark) flag' ++ text') : flag = flag' ∧ text = text' := by
  cases flag with
  | false =>
    cases flag' with
    | false => exact ⟨rfl, h⟩
    | true => exact absurd h (ht (mark ++ text'))
  | true =>
    cases flag' with
    | false => exact absurd h.symm (ht' (mark ++ text))
    | true => exact ⟨rfl, append_cancel_left h⟩

/-- The flags and what follows. -/
def flagKey (lib : UriEscape) (uri : Text) (r : TranslateRequest) : Text :=
  flagPart (ascii "|PE_") r.pathExists ++
    (flagPart (ascii "|W_") (!r.want.isEmpty) ++ layoutKey lib uri r)

theorem noMark_flagKey (hne : letter ≠ 0x4c)
    (hr : r.Delimited uri) : NoMark letter (flagKey lib uri r) :=
  noMark_flagPart (noMark_flagPart (noMark_layoutKey hne hr))

private theorem flagKey_inj (hr : r.Delimited uri)
    (hr' : r'.Delimited uri') (h : flagKey lib uri r = flagKey lib uri' r') :
    r.pathExists = r'.pathExists ∧ r.want.isEmpty = r'.want.isEmpty ∧
      layoutKey lib uri r = layoutKey lib uri' r' := by
  have hb : ∀ {r : TranslateRequest} {uri : Text} (letter : UInt8), r.Delimited uri →
      ∀ rest, layoutKey lib uri r ≠ 0x7c :: letter :: rest :=
    fun letter hr rest he => (head_layoutKey hr he).2 rfl
  have hwa : ∀ {r : TranslateRequest} {uri : Text}, r.Delimited uri → ∀ rest,
      flagPart (ascii "|W_") (!r.want.isEmpty) ++ layoutKey lib uri r ≠ 0x7c :: 0x50 :: rest := by
    intro r uri hr rest he
    cases hw : !r.want.isEmpty with
    | false =>
      rw [hw] at he
      exact hb 0x50 hr rest he
    | true =>
      rw [hw] at he
      exact absurd (cons.inj (cons.inj he).2).1 (by decide)
  obtain ⟨hpa, h⟩ := flagPart_inj (hwa hr) (hwa hr') h
  obtain ⟨hw, h⟩ := flagPart_inj (hb _ hr) (hb _ hr') h
  exact ⟨hpa, Bool.not_inj hw, h⟩

theorem head_flagKey {rest : Text} (hr : r.Delimited uri) :
    flagKey lib uri r ≠ 0x3a :: rest := by
  intro h
  unfold flagKey at h
  cases hp : r.pathExists with
  | true =>
    rw [hp] at h
    exact absurd (cons.inj h).1 (by decide)
  | false =>
    rw [hp] at h
    cases hw : !r.want.isEmpty with
    | true =>
      rw [hw] at h
      exact absurd (cons.inj h).1 (by decide)
    | false =>
      rw [hw] at h
      exact (head_layoutKey hr h).1 rfl

private theorem noMark_probePart
    (hne : letter ≠ 0x50) (h : NoMark letter text) : NoMark letter (probePart lib r ++ text) := by
  unfold probePart
  cases r.probePathSuffixes with
  | none => exact h
  | some value =>
    intro rest he
    have hm : (lib.escape value ++ ascii "=PPS" ++
        (r.probeSuffix.elim [] fun suffix => ascii ":" ++ suffix ++ ascii "]") ++ text).dropWhile
          isEscaped = ascii "=PPS" ++
            ((r.probeSuffix.elim [] fun suffix => ascii ":" ++ suffix ++ ascii "]") ++ text) := by
      rw [append_assoc, append_assoc]
      exact dropWhile_append_cons (fun c hc => lib.isEscaped_of_mem hc) (by decide)
    rw [hm] at he
    exact hne (cons.inj (cons.inj he).2).1.symm

private theorem probePart_inj (hr : r.Delimited uri) (hr' : r'.Delimited uri')
    (h : probePart lib r ++ flagKey lib uri r = probePart lib r' ++ flagKey lib uri' r') :
    r.probePathSuffixes = r'.probePathSuffixes ∧ r.probeSuffix = r'.probeSuffix ∧
      flagKey lib uri r = flagKey lib uri' r' := by
  have hpr : ∀ (r : TranslateRequest) (uri : Text),
      probePart lib r ++ flagKey lib uri r = markedPart lib (ascii "=PPS") r.probePathSuffixes ++
        ((r.probeSuffix.elim [] fun suffix => ascii ":" ++ suffix ++ ascii "]") ++
          flagKey lib uri r) := by
    intro r uri
    unfold probePart
    cases hp : r.probePathSuffixes with
    | none =>
      rw [r.probeSuffix_none hp]
      rfl
    | some value =>
      simp only [markedPart]
      rw [append_assoc]
  have hno : ∀ {r : TranslateRequest} {uri : Text}, r.Delimited uri → NoMark 0x50
      ((r.probeSuffix.elim [] fun suffix => ascii ":" ++ suffix ++ ascii "]") ++
        flagKey lib uri r) := by
    intro r uri hr
    cases r.probeSuffix with
    | none => exact noMark_flagKey (by decide) hr
    | some suffix =>
      intro rest he
      exact absurd (cons.inj he).1 (by decide)
  rw [hpr, hpr] at h
  obtain ⟨hpp, h⟩ := markedPart_inj (hno hr) (hno hr') h
  refine ⟨hpp, ?_⟩
  cases hs : r.probeSuffix with
  | none =>
    cases hs' : r'.probeSuffix with
    | none =>
      rw [hs, hs'] at h
      exact ⟨rfl, h⟩
    | some suffix' =>
      rw [hs, hs'] at h
      exact absurd h (head_flagKey hr)
  | some suffix =>
    cases hs' : r'.probeSuffix with
    | none =>
      rw [hs, hs'] at h
      exact absurd h.symm (head_flagKey hr')
    | some suffix' =>
      rw [hs, hs'] at h
      have h : suffix ++ 0x5d :: flagKey lib uri r = suffix' ++ 0x5d :: flagKey lib uri' r' := by
        have he := (cons.inj h).2
        simpa [ascii] using he
      have hne : ∀ {suffix : Text}, 0x5d ∉ suffix → ∀ c ∈ suffix, (c != 0x5d) = true :=
        fun hme c hc => bne_iff_ne.mpr fun he => hme (he ▸ hc)
      obtain ⟨hsu, -, hfl⟩ := append_cons_inj (hne (hr.probeSuffix _ hs))
        (hne (hr'.probeSuffix _ hs')) (by decide) (by decide) h
      exact ⟨by rw [hsu], hfl⟩

theorem tcacheUriKey_of_delimited (hr : r.Delimited uri) :
    tcacheUriKey lib uri r =
      markedPart lib (ascii "=RF]") r.readFile ++
        (markedPart lib (ascii "=DIR]") r.directoryIndex ++
          (markedPart lib (ascii "=FNF]") r.fileNotFound ++
            (probePart lib r ++ flagKey lib uri r))) := by
  unfold tcacheUriKey keyParts flagKey layoutKey hostKey
  rw [hr.wantFullUri, hr.check, hr.checkHeader]
  simp [introducedPart, checkHeaderPart]

private theorem same_of_delimited (hu : r.uri = some uri)
    (hu' : r'.uri = some uri') (hr : r.Delimited uri) (hr' : r'.Delimited uri')
    (h : tcacheUriKey lib uri r = tcacheUriKey lib uri' r') : r.Same r' := by
  have hre : ∀ {letter : UInt8} {r : TranslateRequest} {uri : Text}, letter ≠ 0x4c →
      letter ≠ 0x50 → r.Delimited uri → NoMark letter (probePart lib r ++ flagKey lib uri r) := by
    intro letter r uri hl hp hr
    exact noMark_probePart hp (noMark_flagKey hl hr)
  rw [tcacheUriKey_of_delimited hr, tcacheUriKey_of_delimited hr'] at h
  have hfi : ∀ {letter : UInt8} {r : TranslateRequest} {uri : Text}, letter ≠ 0x4c →
      letter ≠ 0x50 → letter ≠ 0x46 → r.Delimited uri →
      NoMark letter (markedPart lib (ascii "=FNF]") r.fileNotFound ++
        (probePart lib r ++ flagKey lib uri r)) := by
    intro letter r uri hl hp hf hr
    exact noMark_markedPart hf (hre hl hp hr)
  obtain ⟨hrf, h⟩ := markedPart_inj
    (noMark_markedPart (by decide) (hfi (by decide) (by decide) (by decide) hr))
    (noMark_markedPart (by decide) (hfi (by decide) (by decide) (by decide) hr')) h
  obtain ⟨hd, h⟩ := markedPart_inj (hfi (by decide) (by decide) (by decide) hr)
    (hfi (by decide) (by decide) (by decide) hr') h
  obtain ⟨hfn, h⟩ := markedPart_inj (hre (by decide) (by decide) hr)
    (hre (by decide) (by decide) hr') h
  obtain ⟨hpp, hsu, h⟩ := probePart_inj hr hr' h
  obtain ⟨hpa, hw, h⟩ := flagKey_inj hr hr' h
  obtain ⟨hla, h⟩ := layoutKey_inj hr hr' h
  obtain ⟨hs, h⟩ := hostKey_inj hr hr' h
  exact
    { uri := by rw [hu, hu', h]
      status := hs
      layout := hla
      layoutItem := hr.layoutItem.trans hr'.layoutItem.symm
      check := hr.check.trans hr'.check.symm
      checkHeader := hr.checkHeader.trans hr'.checkHeader.symm
      wantFullUri := hr.wantFullUri.trans hr'.wantFullUri.symm
      probePathSuffixes := hpp
      probeSuffix := hsu
      directoryIndex := hd
      fileNotFound := hfn
      readFile := hrf
      pathExists := hpa
      want := hw }

/-- The key of a request determines it, among all requests, exactly if the request has nothing but
a URI that does not begin like another component; and it does so among the delimited requests. -/
theorem tcacheRequestKey_injective_iff (lib : UriEscape) :
    (∀ r uri, TranslateRequest.UriCacheable r uri →
      ((∀ r' uri', TranslateRequest.UriCacheable r' uri' →
        tcacheRequestKey lib r = tcacheRequestKey lib r' → r.Same r') ↔
        r.Bare ∧ ¬BeginsWithComponent lib uri)) ∧
    ∀ r uri r' uri', TranslateRequest.UriCacheable r uri → TranslateRequest.UriCacheable r' uri' →
      r.Delimited uri → r'.Delimited uri' → tcacheRequestKey lib r = tcacheRequestKey lib r' →
      r.Same r' := by
  refine ⟨fun r uri hr => key_determines_iff hr, fun r uri r' uri' hr hr' hd hd' he => ?_⟩
  rw [tcacheRequestKey_eq hr, tcacheRequestKey_eq hr', Option.some_inj] at he
  exact same_of_delimited hr.uri_eq hr'.uri_eq hd hd' he

/-- A request for `/`, with the value of the header `X` that is checked. -/
def checkHeaderRequest (value host : String) : TranslateRequest :=
  { uri := some (ascii "/"), host := some (ascii host)
    checkHeader := some (ascii "X:" ++ ascii value) }

/-- The value of the header that is checked cannot be told from the host after it. -/
theorem checkHeader_collides : (checkHeaderRequest "" "bc.com").UriCacheable (ascii "/") ∧
    (checkHeaderRequest "b" "c.com").UriCacheable (ascii "/") ∧
    tcacheRequestKey .percent (checkHeaderRequest "" "bc.com") =
      tcacheRequestKey .percent (checkHeaderRequest "b" "c.com") ∧
    ¬(checkHeaderRequest "" "bc.com").Same (checkHeaderRequest "b" "c.com") := by
  refine ⟨⟨rfl, by decide, by decide, rfl, rfl⟩, ⟨rfl, by decide, by decide, rfl, rfl⟩,
    by decide, fun h => ?_⟩
  exact absurd h.checkHeader (by decide)

/-- A delimited request: the error document of a host. -/
def errorRequest (userAgent : Option Text) : TranslateRequest :=
  { uri := some (ascii "/foo"), host := some (ascii "example.com:80"), status := 404, userAgent }

/-- Two such requests have the same key and are the same. -/
theorem errorRequest_same :
    tcacheRequestKey .percent (errorRequest none) =
      tcacheRequestKey .percent (errorRequest (some (ascii "x"))) ∧
    (errorRequest none).Same (errorRequest (some (ascii "x"))) := by
  have hr : ∀ userAgent, (errorRequest userAgent).UriCacheable (ascii "/foo") :=
    fun userAgent => ⟨rfl, by rfl, rfl, rfl, rfl⟩
  have hd : ∀ userAgent, (errorRequest userAgent).Delimited (ascii "/foo") := by
    intro userAgent
    refine ⟨rfl, rfl, rfl, rfl, fun host hh => ?_, fun suffix hs => (by cases hs), _, rfl⟩
    cases hh
    exact ⟨⟨_, _, rfl, by decide⟩, by decide +kernel⟩
  have hke : tcacheRequestKey .percent (errorRequest none) =
      tcacheRequestKey .percent (errorRequest (some (ascii "x"))) := rfl
  exact ⟨hke, (tcacheRequestKey_injective_iff .percent).2 _ _ _ _ (hr _) (hr _) (hd _) (hd _)
    hke⟩

end BengProxy.Translation
