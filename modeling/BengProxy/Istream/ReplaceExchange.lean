import BengProxy.Istream.ReplaceBuckets
import BengProxy.Istream.ReplaceRun

/-!
# Replacing by any mix of reads and buckets

The buckets of a `ReplaceIstream` are the beginning of what is left to emit, in every state that
any mix of calls leads to. When a complete list is consumed, the end of the stream is reported
only if no empty substitution stays behind.
-/

namespace BengProxy.Istream

open Base Splice ReplaceIstream Replacing List

/-- The buckets of the input are read. -/
def Document.readInput (d : Document) (input : InputBuckets) : Document :=
  let d := input.buckets.foldl (fun d (src, ops) => d.append src ops) d
  if input.more then d else d.controls input.ops

/-- A call of any kind. -/
inductive ReplaceBucketCall where
  | call (c : ReplaceCall)
  | fillBucketList (list : IstreamBucketList) (input : InputBuckets) (pieces : Nat → Nat)
      (tmps : Nat → IstreamBucketList)
  | consumeBucketList (nbytes : Nat)

/-- A stream in use, with the bytes that are listed but not yet consumed, and the flag `more` of
that list. -/
structure ReplaceExchange where
  base : Replacement
  listed : List UInt8 := []
  more : Bool := true

namespace ReplaceExchange

/-- The stream. -/
def stream (s : ReplaceExchange) : ReplaceIstream := s.base.machine.stream

/-- The state after `_FillBucketList`. -/
def recordFill (s : ReplaceExchange) (input : InputBuckets) (stream : ReplaceIstream)
    (list list' : IstreamBucketList) : ReplaceExchange where
  base := { s.base with
    machine := { s.base.machine with stream }
    document := if s.stream.hasInput then s.base.document.readInput input else s.base.document }
  listed := (list'.list.drop list.list.length).flatten
  more := list'.more

/-- The state after `_ConsumeBucketList`. -/
def recordConsume (s : ReplaceExchange) (result : ConsumeBucketResult) (stream : ReplaceIstream) :
    ReplaceExchange where
  base := { s.base with
    machine := {
      stream
      handler := { s.base.machine.handler with
        received := s.base.machine.handler.received ++ s.listed.take result.consumed }
      ended := result.eof } }
  listed := s.listed.drop result.consumed
  more := s.more

/-- The state after a call. -/
def apply (s : ReplaceExchange) : ReplaceBucketCall → Option ReplaceExchange
  | .call c => (s.base.apply c).map fun base => { base }
  | .fillBucketList list input pieces tmps =>
    match s.stream.fillBucketList list input pieces tmps with
    | .error e => some { base := { s.base with failed := some e } }
    | .ok (stream, list') => some (s.recordFill input stream list list')
  | .consumeBucketList nbytes =>
    (s.stream.consumeBucketList nbytes).map fun (result, stream) => s.recordConsume result stream

/-- The calls of the parser for each bucket are in order. -/
def PermitsBuckets : ReplaceIstream → List (List UInt8 × List Control) → Prop
  | _, [] => True
  | r, (src, ops) :: buckets =>
    (r.write src).Permits ops ∧ PermitsBuckets ((r.write src).controls ops) buckets

/-- What the callers guarantee. The parser and the streams of the substitutions keep to their
contracts, and no more than what was listed is consumed unless `more` is clear. -/
def Allowed (s : ReplaceExchange) : ReplaceBucketCall → Prop
  | .call c => s.base.Allowed c
  | .fillBucketList list input _ tmps =>
    (s.stream.hasInput = true → PermitsBuckets s.stream input.buckets ∧
      ∀ r, s.stream.appendBuckets input.buckets = .ok r → input.more = false →
        { r with hasInput := false }.Permits input.ops ∧ (r.endInput input.ops).finished = true) ∧
    ∀ r list', s.stream.fillInput input list = .ok (r, list') →
      ∀ before t rest, r.substitutions = before ++ t :: rest → t.defined = true →
        (tmps rest.length).Presents t.content
  | .consumeBucketList nbytes => 0 < nbytes ∧ nbytes ≤ s.listed.length ∨ s.more = false

/-- An allowed call. -/
def Step (s : ReplaceExchange) (c : ReplaceBucketCall) (s' : ReplaceExchange) : Prop :=
  s.base.Alive ∧ s.Allowed c ∧ s.apply c = some s'

/-- What holds in a run. -/
structure Inv (s : ReplaceExchange) : Prop where
  splices : Splices s.base.document s.base.machine.handler.received s.stream
  finished : s.stream.hasInput = false → s.stream.finished = true
  ended : s.base.machine.ended = true → s.stream.isEof = true
  listed : s.listed ≠ [] ∨ s.more = false →
    Listed s.stream.substitutions ∧ s.listed <+: s.stream.shown s.base.document
  complete : s.more = false → s.listed = s.stream.shown s.base.document ∧
    AllLast s.stream.substitutions ∧ s.stream.finished = true ∧ s.stream.hasInput = false

variable {s : ReplaceExchange}

private theorem tryRead_of_isEof {m : Replacing} (h : m.stream.isEof = true)
    (e : Nat → List SubstitutionEvent) (p : Nat → Nat) :
    tryRead e p m = some (false, { m with ended := true }) := by
  obtain ⟨hi, hfi, hs, hp⟩ := isEof_iff.mp h
  have hre : readSubstitution e (0 + 1) m = some (true, m) := by
    simp only [readSubstitution, hs]
  have hlo : readFromBufferLoop p m.stream.sourceLength
      (m.stream.sourceLength - m.stream.position) m = some (true, m) := by
    rw [hp, Nat.sub_self, readFromBufferLoop, hp, if_neg (lt_irrefl _)]
  have hb : tryReadFromBuffer p m = some (false, { m with ended := true }) := by
    simp only [tryReadFromBuffer, hs, head?_nil, getBufferEndOffsetUntil, hfi, if_true, hlo]
    rw [if_pos ⟨hp, trivial, hi⟩]
  simp only [tryRead, tryReadLoop, hs, length_nil, hre, hb]

private theorem Inv.of_base {base : Replacement} (h : base.machine.Inv base.document) :
    Inv { base } where
  splices := h.splices
  finished := h.finished
  ended he := h.ended_eq ▸ he
  listed hx := by
    rcases hx with hx | hx
    · exact absurd rfl hx
    · cases hx
  complete hx := nomatch hx

private theorem Inv.call (h : Inv s) (ha : s.base.Alive) {c : ReplaceCall}
    (hal : s.base.Allowed c) :
    ∃ base, s.base.apply c = some base ∧ Inv { base } := by
  cases heo : s.stream.isEof with
  | false =>
    have hv : Replacement.Inv s.base := by
      refine ⟨⟨h.splices, ha.2.1.trans heo.symm, h.finished⟩, fun e he => ?_⟩
      rw [ha.2.2] at he
      cases he
    obtain ⟨base, hb, hi', -⟩ := hv.step ha hal
    exact ⟨base, hb, Inv.of_base hi'.machine⟩
  | true =>
    -- only reading is possible
    obtain ⟨hi, hfi, hs, -⟩ := isEof_iff.mp heo
    cases c with
    | onData src ops | onEof ops =>
      rw [Replacement.Allowed, show s.base.machine.stream.hasInput = false from hi] at hal
      cases hal.1
    | control op =>
      have hf := hal.1.not_finished
      rw [show s.base.machine.stream.finished = true from hfi] at hf
      cases hf
    | substitution index event =>
      obtain ⟨t, ht, -⟩ := hal
      rw [show s.base.machine.stream.substitutions = [] from hs] at ht
      cases ht
    | read events pieces =>
      refine ⟨{ s.base with machine := { s.base.machine with ended := true } }, ?_, ?_⟩
      · simp only [Replacement.apply, tryRead_of_isEof heo]
        rfl
      · exact Inv.of_base ⟨h.splices, heo.symm, h.finished⟩

private theorem appendBuckets_spec (b : List (List UInt8 × List Control)) :
    ∀ {r : ReplaceIstream} {d : Document} {e : List UInt8}, Splices d e r →
      PermitsBuckets r b →
      r.appendBuckets b = .error "file too large for processor" ∨
      ∃ r', r.appendBuckets b = .ok r' ∧ r'.hasInput = r.hasInput ∧
        Splices (b.foldl (fun d (src, ops) => d.append src ops) d) e r' := by
  induction b with
  | nil => exact fun {r} {d} {e} h _ => .inr ⟨r, rfl, rfl, h⟩
  | cons bucket b ih =>
    intro r d e h hpe
    obtain ⟨src, ops⟩ := bucket
    obtain ⟨ho, hpe⟩ := hpe
    by_cases hli : maxSourceLength ≤ r.sourceLength
    · left
      simp only [appendBuckets, appendToBuffer, if_pos hli]
    · simp only [appendBuckets, appendToBuffer, if_neg hli]
      refine (ih ((h.grow src).controls ho) hpe).imp_right ?_
      rintro ⟨r', hr', hi, hsp⟩
      exact ⟨r', hr', hi.trans (Replacement.hasInput_controls _ _), hsp⟩

private theorem fillInput_spec {r : ReplaceIstream} {d : Document} {e : List UInt8}
    (h : Splices d e r) (hfi : r.hasInput = false → r.finished = true)
    (i : InputBuckets) (list : IstreamBucketList)
    (hpe : r.hasInput = true → PermitsBuckets r i.buckets ∧
      ∀ r', r.appendBuckets i.buckets = .ok r' → i.more = false →
        { r' with hasInput := false }.Permits i.ops ∧ (r'.endInput i.ops).finished = true) :
    r.fillInput i list = .error "file too large for processor" ∨
    ∃ r' list', r.fillInput i list = .ok (r', list') ∧
      Splices (if r.hasInput then d.readInput i else d) e r' ∧
      (r'.hasInput = false → r'.finished = true) ∧ list.Adds list' [] := by
  unfold fillInput
  by_cases hi : r.hasInput = true
  · obtain ⟨hb, he⟩ := hpe hi
    rw [if_pos hi, if_pos hi]
    rcases appendBuckets_spec i.buckets h hb with her | ⟨r', hr', hi', hsp⟩
    · left
      rw [her]
    right
    have hli : list.Adds (if i.fallback then list.enableFallback else list) [] := by
      split
      · exact IstreamBucketList.Adds.enableFallback list
      · exact IstreamBucketList.Adds.refl list
    rw [hr']
    refine ⟨_, _, rfl, ?_, ?_, hli⟩
    · rw [Document.readInput]
      cases hm : i.more with
      | true => exact hsp
      | false =>
        have hc : Splices _ e { r' with hasInput := false } :=
          hsp.learn (le_rfl) hsp.known_le rfl rfl rfl rfl
        exact hc.controls (he r' hr' hm).1
    · cases hm : i.more with
      | true =>
        intro hx
        rw [if_pos rfl, hi', hi] at hx
        cases hx
      | false => exact fun _ => (he r' hr' hm).2
  · rw [if_neg hi, if_neg hi]
    exact .inr ⟨r, list, rfl, h, hfi, IstreamBucketList.Adds.refl list⟩

private theorem Inv.fill (h : Inv s) (ha : s.base.Alive) {list : IstreamBucketList}
    {i : InputBuckets} {p : Nat → Nat} {tmps : Nat → IstreamBucketList}
    (hal : s.Allowed (.fillBucketList list i p tmps)) :
    s.stream.fillBucketList list i p tmps = .error "file too large for processor" ∨
    ∃ r list', s.stream.fillBucketList list i p tmps = .ok (r, list') ∧
      Inv (s.recordFill i r list list') ∧
      (s.recordFill i r list list').listed <+:
        r.shown (s.recordFill i r list list').base.document := by
  obtain ⟨hpe, ht⟩ := hal
  unfold fillBucketList
  rcases fillInput_spec h.splices h.finished i list hpe with
    her | ⟨r1, list1, hr1, hs1, hf1, ha1⟩
  · left
    rw [her]
  · right
    obtain ⟨ss, list', out, hlo, hsa, hli, had, hpr, hl⟩ :=
      fillLoop_spec hs1 p tmps r1.substitutions r1.position list1 (le_rfl)
        hs1.ordered hs1.no_content (ht r1 list1 hr1)
    have hsp := hs1.relabel hsa.edits (hsa.no_content hs1.no_content)
    have ha' := ha1.trans had
    simp only [hr1, hlo]
    have hp' := ha'.added.trans hpr
    refine ⟨_, list', rfl, ⟨hsp, hf1, ?_, fun _ => ⟨hli, hp'⟩, ?_⟩, hp'⟩
    · intro he
      have hx := ha.2.1
      rw [show s.base.machine.ended = true from he] at hx
      cases hx
    · intro hm
      obtain ⟨ho, hla, hf, hi⟩ := hl hm
      exact ⟨(ha'.complete hm).trans ho, hla, hf, hi⟩

private theorem Inv.consume (h : Inv s) {nbytes : Nat}
    (hal : s.Allowed (.consumeBucketList nbytes)) :
    ∃ result r, s.stream.consumeBucketList nbytes = some (result, r) ∧
      result.consumed = min nbytes s.listed.length ∧ Inv (s.recordConsume result r) ∧
      (s.more = false → nbytes = s.listed.length → (result.eof = true ↔ s.stream.Closes)) := by
  have hne : s.listed ≠ [] ∨ s.more = false := by
    refine hal.imp_left fun hx hni => ?_
    rw [hni] at hx
    exact absurd hx.2 (not_le.mpr hx.1)
  obtain ⟨hli, hpr⟩ := h.listed hne
  have hn : nbytes ≤ (s.stream.shown s.base.document).length ∨
      AllLast s.stream.substitutions ∧ s.stream.finished = true :=
    hal.imp (fun hx => hx.2.trans hpr.length_le)
      fun hm => ⟨(h.complete hm).2.1, (h.complete hm).2.2.1⟩
  have he : 0 < nbytes ∨ s.stream.finished = true :=
    hal.imp And.left fun hm => (h.complete hm).2.2.1
  obtain ⟨total, r, hlo, hto, hsp, hsh, hl', hla, hi, hfi, hc⟩ :=
    consumeLoop_spec s.stream.substitutions nbytes h.splices rfl hli hn he
  -- what is consumed was listed
  have hta : (s.stream.shown s.base.document).take total = s.listed.take total ∧
      total = min nbytes s.listed.length := by
    rcases hal with hx | hm
    · have hle := hpr.length_le
      have ht : total = nbytes := by omega
      obtain ⟨rest, hr⟩ := hpr
      rw [ht, ← hr, take_append_of_le_length hx.2]
      exact ⟨rfl, (min_eq_left hx.2).symm⟩
    · rw [(h.complete hm).1]
      exact ⟨rfl, hto⟩
  rw [hta.1] at hsp
  refine ⟨⟨total, r.isEof⟩, r, by rw [consumeBucketList, hlo]; rfl, hta.2,
    ⟨hsp, ?_, id, ?_, ?_⟩, ?_⟩
  · intro hx
    show r.finished = true
    rw [hfi]
    exact h.finished (hi.symm.trans hx)
  · intro _
    refine ⟨hl', ?_⟩
    show s.listed.drop total <+: r.shown s.base.document
    rw [hsh]
    exact hpr.drop total
  · intro hm
    obtain ⟨ho, ha, hf, hi'⟩ := h.complete hm
    refine ⟨?_, hla ha, hfi.trans hf, hi.trans hi'⟩
    show s.listed.drop total = r.shown s.base.document
    rw [hsh, ho]
  · intro hm hnb
    obtain ⟨ho, ha, hf, hi'⟩ := h.complete hm
    rw [ho] at hnb
    rw [← hc ha hf hnb, isEof_iff]
    refine ⟨fun hx => hx.2.2.1, fun hs => ⟨hi.trans hi', hfi.trans hf, hs, ?_⟩⟩
    -- nothing is left, so the buffer was emitted
    have hni : r.shown s.base.document = [] := by
      rw [hsh]
      exact drop_eq_nil_of_le (by omega)
    rw [shown, hs, shownFrom, known, if_pos (hfi.trans hf), hsp.length_eq, slice_length,
      drop_eq_nil_iff, ← hsp.length_eq] at hni
    exact le_antisymm hsp.position_le hni

private theorem Inv.step (h : Inv s) (ha : s.base.Alive) {c : ReplaceBucketCall}
    (hal : s.Allowed c) :
    ∃ s', s.apply c = some s' ∧ (s'.base.failed = none → Inv s') := by
  cases c with
  | call c =>
    obtain ⟨base, hb, hi⟩ := h.call ha hal
    exact ⟨{ base }, by rw [apply, hb]; rfl, fun _ => hi⟩
  | fillBucketList list input pieces tmps =>
    rcases h.fill ha hal with he | ⟨r, list', hr, hi, -⟩
    · refine ⟨{ base := { s.base with failed := some "file too large for processor" } },
        by rw [apply, he], fun hx => ?_⟩
      cases hx
    · exact ⟨s.recordFill input r list list', by rw [apply, hr], fun _ => hi⟩
  | consumeBucketList nbytes =>
    obtain ⟨result, r, hr, -, hi, -⟩ := h.consume hal
    exact ⟨s.recordConsume result r, by rw [apply, hr]; rfl, fun _ => hi⟩

private theorem Inv.of_run {accept : Nat → Option Nat} {ca : List ReplaceBucketCall}
    (h : Run Step { base := { machine := { handler := { accept } } } } ca s) :
    s.base.failed = none → Inv s := by
  apply h.invariant (P := fun s => s.base.failed = none → Inv s)
  · exact fun _ => Inv.of_base ⟨Splices.new, rfl, nofun⟩
  · intro s c s' hi hst
    obtain ⟨hal, ha, hs⟩ := hst
    obtain ⟨s'', hs', hi'⟩ := (hi hal.2.2).step hal ha
    rw [hs] at hs'
    cases hs'
    exact hi'

end ReplaceExchange

/-- The bucket contract, in every state that any mix of calls leads to. The buckets are the
beginning of what is left to emit. If `more` is clear, then they are all of it, and consuming them
reports the end exactly if no empty substitution stays behind. -/
theorem replace_bucket_contract {accept : Nat → Option Nat} {calls : List ReplaceBucketCall}
    {s s' : ReplaceExchange} {list : IstreamBucketList} {input : InputBuckets}
    {pieces : Nat → Nat} {tmps : Nat → IstreamBucketList}
    (h : Run ReplaceExchange.Step { base := { machine := { handler := { accept } } } } calls s)
    (hfi : s.Step (.fillBucketList list input pieces tmps) s') (ho : s'.base.failed = none) :
    s'.listed <+: s'.stream.remaining s'.base.document ∧
    (s'.more = false → s'.base.machine.handler.received ++ s'.listed = s'.base.document.output ∧
      ∃ eof r, s'.stream.consumeBucketList s'.listed.length =
          some (⟨s'.listed.length, eof⟩, r) ∧ (eof = true ↔ s'.stream.Closes)) := by
  have hi := ReplaceExchange.Inv.of_run (h.snoc hfi) ho
  have hsh : s'.stream.shown s'.base.document <+: s'.stream.remaining s'.base.document :=
    shownFrom_le _ _ _ _
  refine ⟨?_, fun hm => ?_⟩
  · obtain ⟨hal, hallo, hs⟩ := hfi
    rcases (ReplaceExchange.Inv.of_run h hal.2.2).fill hal hallo with
      he | ⟨r, list', hr, -, hpr⟩
    · rw [ReplaceExchange.apply, he] at hs
      cases hs
      cases ho
    · rw [ReplaceExchange.apply, hr] at hs
      cases hs
      exact hpr.trans hsh
  · obtain ⟨hou, hall, hf, -⟩ := hi.complete hm
    constructor
    · rw [hou, shown, shownFrom_of_allLast _ _ _ _ hall]
      exact hi.splices.output_finished hf
    · obtain ⟨⟨consumed, eof⟩, r, hr, hc, -, heo⟩ := hi.consume (.inr hm)
      rw [Nat.min_self] at hc
      exact ⟨eof, r, by rw [hr, ← hc], heo hm rfl⟩

/-- The source `abc` with `b` replaced by `X` is listed. -/
theorem replace_bucket_contract_sample :
    let input : InputBuckets :=
      { buckets := [([97, 98, 99], [.add 1 2 (some [88])])], ops := [.finish] }
    ∃ s' eof r, ReplaceExchange.Step
        { base := { machine := { handler := { accept := fun _ => some 0 } } } }
        (.fillBucketList {} input (fun _ => 9) fun _ => { list := [[88]] }) s' ∧
      s'.listed = [97, 88, 99] ∧ s'.stream.consumeBucketList 3 = some (⟨3, eof⟩, r) ∧
      (eof = true ↔ s'.stream.Closes) := by
  intro input
  have h : ∃ s', ReplaceExchange.Step
      { base := { machine := { handler := { accept := fun _ => some 0 } } } }
      (.fillBucketList {} input (fun _ => 9) fun _ => { list := [[88]] }) s' ∧
      s'.base.failed = none ∧ s'.more = false ∧ s'.listed = [97, 88, 99] := by
    refine ⟨_, ⟨⟨rfl, rfl, rfl⟩, ⟨fun _ => ⟨⟨⟨⟨rfl, ?_, ?_, ?_⟩, ?_, trivial⟩, trivial⟩, ?_⟩, ?_⟩,
      rfl⟩, rfl, rfl, rfl⟩
    · exact Nat.le_of_ble_eq_true rfl
    · exact Nat.le_of_ble_eq_true rfl
    · exact Nat.le_of_ble_eq_true rfl
    · exact Nat.le_of_ble_eq_true rfl
    · intro r hr _
      cases hr
      exact ⟨⟨rfl, trivial, trivial⟩, rfl⟩
    · intro r list' hr before t rest hs _
      cases hr
      have hli : [{ start := 1, stop := 2, content := [88], defined := true }] =
          before ++ t :: rest := hs
      have hme : t ∈ before ++ t :: rest := mem_append_cons_self
      rw [← hli] at hme
      rw [mem_singleton.mp hme]
      exact ⟨prefix_refl _, fun _ => rfl⟩
  obtain ⟨s', hst, ho, hm, hl⟩ := h
  obtain ⟨-, eof, r, hr, he⟩ := (replace_bucket_contract .nil hst ho).2 hm
  rw [hl] at hr
  exact ⟨s', eof, r, hst, hl, hr, he⟩

/-- The source `abc` with `c` deleted: the list is complete, but consuming it does not report the
end. -/
theorem replace_consume_misses_end :
    ∃ s' r, ReplaceExchange.Step
        { base := { machine := { handler := { accept := fun _ => some 0 } } } }
        (.fillBucketList {} { buckets := [([97, 98, 99], [.add 2 3 none])], ops := [.finish] }
          (fun _ => 9) fun _ => {}) s' ∧
      s'.base.failed = none ∧ s'.more = false ∧ s'.listed = [97, 98] ∧
      s'.stream.consumeBucketList 2 = some (⟨2, false⟩, r) := by
  refine ⟨_, _, ⟨⟨rfl, rfl, rfl⟩, ⟨fun _ => ⟨⟨⟨⟨rfl, ?_, ?_, ?_⟩, ?_, trivial⟩, trivial⟩, ?_⟩, ?_⟩,
    rfl⟩, rfl, rfl, rfl, rfl⟩
  · exact Nat.le_of_ble_eq_true rfl
  · exact Nat.le_of_ble_eq_true rfl
  · exact Nat.le_of_ble_eq_true rfl
  · exact Nat.le_of_ble_eq_true rfl
  · intro r hr _
    cases hr
    exact ⟨⟨rfl, trivial, trivial⟩, rfl⟩
  · intro r list' hr before t rest hs hd
    cases hr
    -- the deletion has no stream
    have hli : [{ start := 2, stop := 3, content := [], defined := false }] =
        before ++ t :: rest := hs
    have hme : t ∈ before ++ t :: rest := mem_append_cons_self
    rw [← hli] at hme
    rw [mem_singleton.mp hme] at hd
    cases hd

end BengProxy.Istream
