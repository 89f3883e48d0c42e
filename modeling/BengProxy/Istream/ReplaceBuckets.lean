import BengProxy.Istream.ReplaceInvariant

/-!
# The buckets of a `ReplaceIstream`

Models `ReplaceIstream::_FillBucketList` and `ReplaceIstream::_ConsumeBucketList`,
`src/istream/ReplaceIstream.cxx:400-556`. A list shows the beginning of what is left to emit.
Consuming stops as soon as the byte count is used up, so substitutions that have nothing to
emit stay behind, and with them the end of the stream is not seen.
-/

namespace BengProxy.Istream

open Base.Splice IstreamBucketList.Adds List Substitution

/-- What the input lists, with the calls of `Parse` for each bucket and those of `ParseEnd`. -/
structure InputBuckets where
  buckets : List (List UInt8 × List Control) := []
  more : Bool := false
  fallback : Bool := false
  ops : List Control := []

namespace Substitution

variable (s : Substitution)

/-- What was listed before is void. -/
def unlisted : Substitution := { s with listed := 0, last := false }

/-- The stream of the substitution lists. -/
def lists (tmp : IstreamBucketList) : Substitution :=
  { s with listed := tmp.getTotalBufferSize, last := !tmp.more }

/-- `Substitution::FillBucketList`, `src/istream/ReplaceIstream.hxx:46-51`; `tmp` is what its
stream lists. -/
def fillBucketList (tmp : IstreamBucketList) : IstreamBucketList :=
  if s.defined then tmp else {}

/-- `Substitution::ConsumeBucketList`, `src/istream/ReplaceIstream.hxx:53-58`. The stream consumes
from what it has listed, and has reached its end if there is nothing behind it. -/
def consumeBucketList (nbytes : Nat) : ConsumeBucketResult × Substitution :=
  if s.defined then
    let n := min nbytes s.listed
    (⟨n, s.last && n == s.content.length⟩,
      { s with content := s.content.drop n, listed := s.listed - n })
  else (⟨0, true⟩, s)

end Substitution

namespace ReplaceIstream

/-- The buckets of the input are appended, `ReplaceIstream.cxx:413-432`. -/
def appendBuckets (r : ReplaceIstream) :
    List (List UInt8 × List Control) → Except String ReplaceIstream
  | [] => .ok r
  | (src, ops) :: buckets =>
    match r.appendToBuffer src ops with
    | .error e => .error e
    | .ok r => r.appendBuckets buckets

section

variable (r : ReplaceIstream)

/-- The input is read, `ReplaceIstream.cxx:404-446`. -/
def fillInput (input : InputBuckets) (list : IstreamBucketList) :
    Except String (ReplaceIstream × IstreamBucketList) :=
  if r.hasInput then
    match r.appendBuckets input.buckets with
    | .error e => .error e
    | .ok r =>
      .ok (if input.more then r else r.endInput input.ops,
        if input.fallback then list.enableFallback else list)
  else .ok (r, list)

/-- The chunks of the `GrowingBuffer` from an offset on. -/
def chunks (pieces : Nat → Nat) : Nat → Nat → List UInt8 → List (List UInt8)
  | 0, _, _ => []
  | _ + 1, _, [] => []
  | fuel + 1, offset, b :: bytes =>
    (b :: bytes.take (pieces offset)) ::
      chunks pieces fuel (offset + pieces offset + 1) (bytes.drop (pieces offset))

/-- The buffer is listed up to an offset, `ReplaceIstream.cxx:461-476`. The flag is
false if not all of it could be listed. -/
def fillBuffer (pieces : Nat → Nat) (fillPosition stop : Nat)
    (list : IstreamBucketList) : Bool × IstreamBucketList :=
  if fillPosition < stop then
    let bytes := r.buffer.drop (fillPosition - r.position)
    let tmp := IstreamBucketList.pushAll {} (chunks pieces bytes.length fillPosition bytes)
    let (nbytes, list) := list.spliceBuffersOnly tmp.list (stop - fillPosition)
    if nbytes < stop - fillPosition then (false, list.setMore) else (true, list)
  else (true, list)

/-- The loop of `ReplaceIstream::_FillBucketList`, `ReplaceIstream.cxx:448-501`.
`tmps` is what the streams of the substitutions list; the argument is the number of later
substitutions. -/
def fillLoop (r : ReplaceIstream) (pieces : Nat → Nat) (tmps : Nat → IstreamBucketList) :
    Nat → List Substitution → IstreamBucketList → List Substitution × IstreamBucketList
  | fillPosition, [], list =>
    match r.getBufferEndOffsetUntil fillPosition none with
    | none => ([], list.setMore)
    | some stop =>
      match r.fillBuffer pieces fillPosition stop list with
      | (false, list) => ([], list)
      | (true, list) => ([], if r.hasInput || !r.finished then list.setMore else list)
  | fillPosition, s :: rest, list =>
    match r.getBufferEndOffsetUntil fillPosition (some s) with
    | none => ((s :: rest).map (·.unlisted), list.setMore)
    | some stop =>
      match r.fillBuffer pieces fillPosition stop list with
      | (false, list) => ((s :: rest).map (·.unlisted), list)
      | (true, list) =>
        if stop < s.start then ((s :: rest).map (·.unlisted), list.setMore)
        else
          let tmp := s.fillBucketList (tmps rest.length)
          let list := list.spliceAll tmp
          if tmp.more then (s.lists tmp :: rest.map (·.unlisted), list)
          else
            let (rest, list) := r.fillLoop pieces tmps s.stop rest list
            (s.lists tmp :: rest, list)

/-- `ReplaceIstream::_FillBucketList`, `ReplaceIstream.cxx:400-502`. -/
def fillBucketList (list : IstreamBucketList) (input : InputBuckets)
    (pieces : Nat → Nat) (tmps : Nat → IstreamBucketList) :
    Except String (ReplaceIstream × IstreamBucketList) :=
  match r.fillInput input list with
  | .error e => .error e
  | .ok (r, list) =>
    let (substitutions, list) := r.fillLoop pieces tmps r.position r.substitutions list
    .ok ({ r with substitutions }, list)

/-- Bytes of the buffer are consumed. -/
def skip (n : Nat) : ReplaceIstream :=
  { r with buffer := r.buffer.drop n, position := r.position + n }

/-- The buffer in front of the next substitution is consumed,
`ReplaceIstream.cxx:514-533`. The flag is true if the loop is left. -/
def consumeBefore (stop nbytes : Nat) : Bool × Nat × ReplaceIstream :=
  if r.position < stop then
    if nbytes ≤ stop - r.position then (true, nbytes, r.skip nbytes)
    else (false, stop - r.position, r.skip (stop - r.position))
  else (false, 0, r)

/-- The active substitution has consumed, `ReplaceIstream.cxx:543-544`. -/
def afterSubstitution (s : Substitution) (rest : List Substitution) (eof : Bool) : ReplaceIstream :=
  if eof then { r with substitutions := s :: rest }.toNextSubstitution
  else { r with substitutions := s :: rest }

end

/-- The loop of `ReplaceIstream::_ConsumeBucketList`, `ReplaceIstream.cxx:509-553`:
the number of bytes consumed. There is no result if an assertion fails. -/
def consumeLoop : List Substitution → Nat → ReplaceIstream → Option (Nat × ReplaceIstream)
  | [], nbytes, r =>
    match r.getBufferEndOffsetUntil r.position none with
    | none => none
    | some stop =>
      let (_, n, r) := r.consumeBefore stop nbytes
      some (n, r)
  | s :: rest, nbytes, r =>
    match r.getBufferEndOffsetUntil r.position (some s) with
    | none => none
    | some stop =>
      match r.consumeBefore stop nbytes with
      | (true, n, r) => some (n, r)
      | (false, n, r) =>
        let (result, s) := s.consumeBucketList (nbytes - n)
        let r := r.afterSubstitution s rest result.eof
        if nbytes - n - result.consumed = 0 then some (n + result.consumed, r)
        else if result.eof then
          (consumeLoop rest (nbytes - n - result.consumed) r).map fun (total, r) =>
            (n + result.consumed + total, r)
        else none

/-- `ReplaceIstream::_ConsumeBucketList`, `ReplaceIstream.cxx:504-556`. -/
def consumeBucketList (r : ReplaceIstream) (nbytes : Nat) :
    Option (ConsumeBucketResult × ReplaceIstream) :=
  (consumeLoop r.substitutions nbytes r).map fun (total, r) => (⟨total, r.isEof⟩, r)

variable {d : Document} {emitted : List UInt8} {r : ReplaceIstream}

/-- What can be consumed: up to the first substitution that has not listed everything. -/
def shownFrom (source : List UInt8) (known : Nat) : Nat → List Substitution → List UInt8
  | p, [] => slice source p known
  | p, s :: rest =>
    slice source p s.start ++
      if s.defined = false ∨ s.last = true then s.content ++ shownFrom source known s.stop rest
      else s.content.take s.listed

/-- What can be consumed of the rest of the document. -/
def shown (d : Document) (r : ReplaceIstream) : List UInt8 :=
  shownFrom d.source r.known r.position r.substitutions

variable (ss : List Substitution)

/-- The substitutions keep to what they have listed. -/
def Listed : Prop :=
  ∀ s ∈ ss, s.listed ≤ s.content.length ∧ (s.last = true → s.listed = s.content.length)

/-- All substitutions have listed everything. -/
def AllLast : Prop := ∀ s ∈ ss, s.defined = false ∨ s.last = true

variable {s : Substitution}

theorem AllLast.tail {rest : List Substitution} (h : AllLast (s :: rest)) :
    AllLast rest :=
  fun t ht => h t (mem_cons_of_mem _ ht)

theorem Listed.tail {rest : List Substitution} (h : Listed (s :: rest)) :
    Listed rest :=
  fun t ht => h t (mem_cons_of_mem _ ht)

/-- What is shown is the beginning of the rest of the document. -/
theorem shownFrom_le (source : List UInt8) (known : Nat) (ss : List Substitution) :
    ∀ p, shownFrom source known p ss <+: render source p (ss.map (·.toEdit)) known := by
  induction ss with
  | nil => exact fun p => prefix_rfl
  | cons s rest ih =>
    intro p
    rw [shownFrom, map_cons, render, append_assoc, prefix_append_right_inj]
    split
    · exact (prefix_append_right_inj _).mpr (ih s.stop)
    · exact (List.take_prefix _ _).trans (prefix_append _ _)

/-- If everything is listed, all of the rest is shown. -/
theorem shownFrom_of_allLast (source : List UInt8) (known : Nat) (ss : List Substitution) :
    ∀ p, AllLast ss → shownFrom source known p ss = render source p (ss.map (·.toEdit)) known := by
  induction ss with
  | nil => exact fun p _ => rfl
  | cons s rest ih =>
    intro p hla
    rw [shownFrom, if_pos (hla s mem_cons_self), ih s.stop hla.tail, map_cons, render, append_assoc]

theorem flatten_chunks (pieces : Nat → Nat) (fuel : Nat) :
    ∀ offset bytes, bytes.length ≤ fuel → (chunks pieces fuel offset bytes).flatten = bytes := by
  induction fuel with
  | zero =>
    intro offset bytes hf
    rw [eq_nil_of_length_eq_zero (Nat.le_zero.mp hf)]
    rfl
  | succ fuel ih =>
    intro offset bytes hf
    cases bytes with
    | nil => rfl
    | cons b bytes =>
      rw [length_cons] at hf
      rw [chunks, flatten_cons, ih _ _ (by rw [length_drop]; omega), cons_append, take_append_drop]

private theorem fillBuffer_spec (h : Splices d emitted r) (pi : Nat → Nat) {p stop : Nat}
    (hp : r.position ≤ p) (hst : stop ≤ r.sourceLength) (list : IstreamBucketList) :
    ∃ b list' out, r.fillBuffer pi p stop list = (b, list') ∧ list.Adds list' out ∧
      out <+: slice d.source p stop ∧ (b = true → out = slice d.source p stop) ∧
      (b = false → list'.more = true) := by
  unfold fillBuffer
  by_cases hlt : p < stop
  · rw [if_pos hlt]
    have hby : r.buffer.drop (p - r.position) = d.source.drop p := by
      rw [h.buffer_eq, drop_drop]
      congr 1
      omega
    have hle : stop ≤ d.source.length := h.length_eq ▸ hst
    simp only [hby]
    generalize hc : chunks pi (d.source.drop p).length p (d.source.drop p) = cs
    have hfl : cs.flatten = d.source.drop p := by
      rw [← hc]
      exact flatten_chunks pi _ _ _ (le_rfl)
    obtain ⟨kept, hke, hpr, -⟩ := IstreamBucketList.pushAll_spec {} cs
    rw [nil_append] at hke
    have hb : kept.flatten <+: d.source.drop p := by
      obtain ⟨more, hm⟩ := hpr
      rw [← hfl, ← hm, flatten_append]
      exact prefix_append _ _
    obtain ⟨l', hs, had⟩ := list.spliceBuffersOnly_spec kept (stop - p)
    rw [hke, hs]
    by_cases hsh : min (stop - p) kept.flatten.length < stop - p
    · rw [if_pos hsh]
      refine ⟨false, _, _, rfl, ?_, hb.take _, fun hf => (nomatch hf), fun _ => rfl⟩
      have hse := had.trans (setMore l')
      rwa [append_nil] at hse
    rw [if_neg hsh]
    refine ⟨true, _, _, rfl, had, hb.take _, fun _ => ?_, nofun⟩
    apply (hb.take _).eq_of_length
    rw [length_take, length_take, length_drop]
    omega
  · rw [if_neg hlt]
    exact ⟨true, list, [], rfl, refl list, nil_prefix,
      fun _ => (slice_of_le (not_lt.mp hlt)).symm, nofun⟩

/-- The same substitutions, but for what they have listed. -/
def Same (ss' ss : List Substitution) : Prop :=
  List.Forall₂ (fun s' s => s'.toEdit = s.toEdit ∧ s'.defined = s.defined) ss' ss

private theorem same_unlisted : Same (ss.map (·.unlisted)) ss := by
  induction ss with
  | nil => exact .nil
  | cons s rest ih => exact .cons ⟨rfl, rfl⟩ ih

private theorem listed_unlisted : Listed (ss.map (·.unlisted)) := by
  intro s hs
  obtain ⟨t, -, rfl⟩ := mem_map.mp hs
  exact ⟨Nat.zero_le _, nofun⟩

theorem Same.edits {ss' ss : List Substitution} (h : Same ss' ss) :
    ss'.map (·.toEdit) = ss.map (·.toEdit) := by
  induction h with
  | nil => rfl
  | cons hs _ ih => rw [map_cons, map_cons, hs.1, ih]

theorem Same.no_content {ss' ss : List Substitution} (h : Same ss' ss)
    (hno : ∀ s ∈ ss, s.defined = false → s.content = []) :
    ∀ s ∈ ss', s.defined = false → s.content = [] := by
  induction h with
  | nil => exact hno
  | cons hs _ ih =>
    intro t ht hd
    rcases mem_cons.mp ht with rfl | ht
    · rw [hs.1]
      exact hno _ mem_cons_self (hs.2 ▸ hd)
    · exact ih (fun u hu => hno u (mem_cons_of_mem _ hu)) t ht hd

private theorem lists_spec {tmp : IstreamBucketList} (hno : s.defined = false → s.content = [])
    (ht : s.defined = true → tmp.Presents s.content) :
    (s.fillBucketList tmp).Presents s.content ∧
      ((s.fillBucketList tmp).more = true → s.defined = true) := by
  unfold Substitution.fillBucketList
  cases hd : s.defined with
  | true => exact ⟨ht hd, fun _ => rfl⟩
  | false =>
    rw [hno hd]
    exact ⟨⟨prefix_rfl, fun _ => rfl⟩, nofun⟩

/-- The loop lists the beginning of the rest of the document, and all of it if `more` is clear. -/
theorem fillLoop_spec (h : Splices d emitted r) (pieces : Nat → Nat)
    (tmps : Nat → IstreamBucketList) (ss : List Substitution) :
    ∀ (p : Nat) (list : IstreamBucketList), r.position ≤ p → Ordered p (ss.map (·.toEdit)) r.known →
      (∀ s ∈ ss, s.defined = false → s.content = []) →
      (∀ before s rest, ss = before ++ s :: rest → s.defined = true →
        (tmps rest.length).Presents s.content) →
      ∃ ss' list' out, r.fillLoop pieces tmps p ss list = (ss', list') ∧ Same ss' ss ∧
        Listed ss' ∧ list.Adds list' out ∧ out <+: shownFrom d.source r.known p ss' ∧
        (list'.more = false → out = shownFrom d.source r.known p ss' ∧ AllLast ss' ∧
          r.finished = true ∧ r.hasInput = false) := by
  have hkn := h.known_le
  induction ss with
  | nil =>
    intro p list hp hor _ _
    rw [fillLoop]
    have hni : Listed [] := fun s hs => absurd hs not_mem_nil
    rcases getBufferEndOffsetUntil_spec hor hkn with
      ⟨he, -, -, -⟩ | ⟨stop, he, hle, ho', hla, -⟩
    · rw [head?_nil] at he
      simp only [he]
      exact ⟨[], _, [], rfl, .nil, hni, setMore list, nil_prefix, nofun⟩
    · rw [head?_nil] at he
      have hso := hla rfl
      subst hso
      obtain ⟨b, l1, out, hb, ha, hpr, hal, hmo⟩ := fillBuffer_spec h pieces hp hkn list
      simp only [he, hb]
      cases b with
      | false =>
        refine ⟨[], l1, out, rfl, .nil, hni, ha, hpr, fun hm => ?_⟩
        rw [hmo rfl] at hm
        cases hm
      | true =>
        simp only
        by_cases ho : (r.hasInput || !r.finished) = true
        · rw [if_pos ho]
          refine ⟨[], _, out, rfl, .nil, hni, ?_, hpr, nofun⟩
          have hse := ha.trans (setMore l1)
          rwa [append_nil] at hse
        · rw [if_neg ho]
          simp only [Bool.not_eq_true, Bool.or_eq_false_iff, Bool.not_eq_false'] at ho
          exact ⟨[], l1, out, rfl, .nil, hni, ha, hpr, fun _ =>
            ⟨hal rfl, fun s hs => (nomatch hs), ho.2, ho.1⟩⟩
  | cons s rest ih =>
    intro p list hp hor hno htm
    have ho0 := hor
    obtain ⟨hle, hl', ho'⟩ := ho0
    have hst : s.start ≤ r.sourceLength := hl'.trans (ho'.le.trans hkn)
    have he : r.getBufferEndOffsetUntil p (some s) = some s.start := by
      rw [getBufferEndOffsetUntil, min_eq_left hst]
    obtain ⟨b, l1, out1, hb, ha1, hp1, hal1, hmore1⟩ := fillBuffer_spec h pieces hp hst list
    rw [fillLoop]
    simp only [he, hb]
    cases b with
    | false =>
      refine ⟨_, l1, out1, rfl, same_unlisted _, listed_unlisted _, ha1, ?_, fun hm => ?_⟩
      · exact hp1.trans (prefix_append _ _)
      · rw [hmore1 rfl] at hm
        cases hm
    | true =>
      have ho1 := hal1 rfl
      subst ho1
      simp only [lt_irrefl]
      obtain ⟨hli, hd⟩ := lists_spec (hno s mem_cons_self) (htm [] s rest rfl)
      generalize s.fillBucketList (tmps rest.length) = tmp at hli hd
      obtain ⟨ha2, hmore2⟩ := spliceAll l1 tmp
      have ha := ha1.trans ha2
      have hls : (s.lists tmp).listed ≤ s.content.length ∧
          ((s.lists tmp).last = true → (s.lists tmp).listed = s.content.length) := by
        refine ⟨hli.is_prefix.length_le, fun hl => ?_⟩
        have hm : tmp.more = false := by
          rwa [lists, Bool.not_eq_true'] at hl
        exact congrArg List.length (hli.complete hm)
      by_cases hm : tmp.more = true
      · -- the stream has more, so the list ends with its buckets
        rw [if_pos hm]
        refine ⟨_, _, _, rfl, .cons ⟨rfl, rfl⟩ (same_unlisted rest), ?_, ha, ?_, fun hm' => ?_⟩
        · intro t ht
          rcases mem_cons.mp ht with rfl | ht
          · exact hls
          · exact listed_unlisted rest t ht
        · have hn : ¬ ((s.lists tmp).defined = false ∨ (s.lists tmp).last = true) := by
            rintro (hx | hx)
            · rw [show (s.lists tmp).defined = s.defined from rfl, hd hm] at hx
              cases hx
            · rw [lists, hm] at hx
              cases hx
          rw [shownFrom, if_neg hn]
          apply (prefix_append_right_inj _).mpr
          show tmp.list.flatten <+: s.content.take tmp.list.flatten.length
          rw [← prefix_iff_eq_take.mp hli.is_prefix]
        · rw [hmore2 hm] at hm'
          cases hm'
      rw [if_neg hm]
      rw [Bool.not_eq_true] at hm
      have hc := hli.complete hm
      obtain ⟨rest', l3, out3, hlo, hsa, hli', ha3, hp3, hal3⟩ :=
        ih s.stop (l1.spliceAll tmp) (hp.trans (hle.trans hl')) ho'
          (fun t ht => hno t (mem_cons_of_mem _ ht))
          (fun before t ts hts => htm (s :: before) t ts (by rw [hts]; rfl))
      rw [hlo]
      have hla : (s.lists tmp).defined = false ∨ (s.lists tmp).last = true := by
        right
        rw [lists, hm]
        rfl
      have hsh : shownFrom d.source r.known p (s.lists tmp :: rest') =
          slice d.source p s.start ++ tmp.list.flatten ++
            shownFrom d.source r.known s.stop rest' := by
        rw [shownFrom, if_pos hla, hc, append_assoc]
        rfl
      refine ⟨_, l3, _, rfl, .cons ⟨rfl, rfl⟩ hsa, ?_, ha.trans ha3, ?_, fun hm' => ?_⟩
      · intro t ht
        rcases mem_cons.mp ht with rfl | ht
        · exact hls
        · exact hli' t ht
      · rw [hsh]
        exact (prefix_append_right_inj _).mpr hp3
      · obtain ⟨ho3, hl3, hfi, hi⟩ := hal3 hm'
        refine ⟨by rw [hsh, ho3], ?_, hfi, hi⟩
        intro t ht
        rcases mem_cons.mp ht with rfl | ht
        · exact hla
        · exact hl3 t ht

private theorem consumeBefore_spec (r : ReplaceIstream) {stop : Nat} (hle : r.position ≤ stop)
    (n : Nat) :
    ∃ b, r.consumeBefore stop n = (b, min n (stop - r.position),
        r.skip (min n (stop - r.position))) ∧
      (b = true ↔ r.position < stop ∧ n ≤ stop - r.position) := by
  unfold consumeBefore
  by_cases hlt : r.position < stop
  · rw [if_pos hlt]
    by_cases hn : n ≤ stop - r.position
    · rw [if_pos hn, min_eq_left hn]
      exact ⟨true, rfl, fun _ => ⟨hlt, hn⟩, fun _ => rfl⟩
    · rw [if_neg hn, min_eq_right (by omega)]
      exact ⟨false, rfl, fun hf => (nomatch hf), fun hx => absurd hx.2 hn⟩
  · rw [if_neg hlt, show stop - r.position = 0 by omega, Nat.min_zero]
    exact ⟨false, rfl, fun hf => (nomatch hf), fun hx => absurd hx.1 hlt⟩

private theorem consumeBucketList_substitution
    (hli : s.listed ≤ s.content.length ∧ (s.last = true → s.listed = s.content.length))
    (hno : s.defined = false → s.content = []) (nb : Nat) :
    ∃ n eof s', s.consumeBucketList nb = (⟨n, eof⟩, s') ∧
      n = min nb (if s.defined = false ∨ s.last = true then s.content.length else s.listed) ∧
      (eof = true ↔ (s.defined = false ∨ s.last = true) ∧ n = s.content.length) ∧
      s'.toEdit = { s.toEdit with content := s.content.drop n } ∧ s'.defined = s.defined ∧
      s'.last = s.last ∧ s'.listed ≤ s'.content.length ∧
      (s'.last = true → s'.listed = s'.content.length) ∧
      (s'.defined = true → s'.listed = s.listed - n) := by
  unfold Substitution.consumeBucketList
  cases hd : s.defined with
  | false =>
    have hc := hno hd
    refine ⟨0, true, s, rfl, ?_, ?_, ?_, hd.symm ▸ rfl, rfl, hli.1, hli.2, ?_⟩
    · simp [hc]
    · simp [hc]
    · rw [drop_zero]
    · intro hx
      rw [hd] at hx
      cases hx
  | true =>
    simp only [Bool.true_eq_false, false_or]
    refine ⟨_, _, _, rfl, ?_, ?_, rfl, rfl, rfl, ?_, ?_, fun _ => rfl⟩
    · split
      · next hl => rw [hli.2 hl]
      · rfl
    · rw [Bool.and_eq_true, beq_iff_eq]
    · simp only [length_drop]
      omega
    · intro hl
      simp only [length_drop]
      have := hli.2 hl
      omega

private theorem Splices.skip (h : Splices d emitted r) {n : Nat}
    (hn : Ordered (r.position + n) r.edits r.known) :
    Splices d (emitted ++ slice d.source r.position (r.position + n)) (r.skip n) := by
  have hsl : r.buffer.take n = slice d.source r.position (r.position + n) := by
    rw [h.buffer_eq, slice, Nat.add_sub_cancel_left]
  rw [← hsl]
  exact h.emit hn

variable {s : Substitution} {rest : List Substitution}

/-- What a substitution and those behind it show. -/
def shownOf (d : Document) (known : Nat) (s : Substitution) (rest : List Substitution) :
    List UInt8 :=
  if s.defined = false ∨ s.last = true then s.content ++ shownFrom d.source known s.stop rest
  else s.content.take s.listed

@[simp] theorem afterSubstitution_hasInput (r : ReplaceIstream) (s : Substitution)
    (rest : List Substitution) (eof : Bool) :
    (r.afterSubstitution s rest eof).hasInput = r.hasInput := by
  cases eof <;> rfl

@[simp] theorem afterSubstitution_finished (r : ReplaceIstream) (s : Substitution)
    (rest : List Substitution) (eof : Bool) :
    (r.afterSubstitution s rest eof).finished = r.finished := by
  cases eof <;> rfl

@[simp] theorem afterSubstitution_sourceLength (r : ReplaceIstream) (s : Substitution)
    (rest : List Substitution) (eof : Bool) :
    (r.afterSubstitution s rest eof).sourceLength = r.sourceLength := by
  cases eof <;> rfl

private theorem consume_active (h : Splices d emitted r) (hs : r.substitutions = s :: rest)
    (hac : r.position = s.start) (hli : Listed (s :: rest)) (nb : Nat) :
    ∃ n eof s', s.consumeBucketList nb = (⟨n, eof⟩, s') ∧
      n ≤ nb ∧ n ≤ (shownOf d r.known s rest).length ∧
      Splices d (emitted ++ (shownOf d r.known s rest).take n) (r.afterSubstitution s' rest eof) ∧
      (r.afterSubstitution s' rest eof).shown d = (shownOf d r.known s rest).drop n ∧
      Listed (r.afterSubstitution s' rest eof).substitutions ∧
      (AllLast (s :: rest) → AllLast (r.afterSubstitution s' rest eof).substitutions) ∧
      (eof = true → (r.afterSubstitution s' rest eof).substitutions = rest ∧
        (r.afterSubstitution s' rest eof).position = s.stop ∧
        n = s.content.length ∧ (s.defined = false ∨ s.last = true)) ∧
      (eof = false → (s.defined = false ∨ s.last = true → n = nb ∧ n < s.content.length) ∧
        (¬ (s.defined = false ∨ s.last = true) →
          n = min nb (shownOf d r.known s rest).length)) := by
  have hme := hli s mem_cons_self
  have hno := h.no_content s (by rw [hs]; exact mem_cons_self)
  obtain ⟨n, eof, s', hca, hn, heo, he, hde, hla, hle, hl', hl⟩ :=
    consumeBucketList_substitution hme hno nb
  have hsp := h.deliver hs hac he hde
  have hc : s'.content = s.content.drop n := by rw [he]
  have hst : s'.stop = s.stop := by rw [he]
  have ha : s'.start = s.start := by rw [he]
  -- the bytes come from the content
  have ht : n ≤ s.content.length ∧ n ≤ (shownOf d r.known s rest).length ∧
      (shownOf d r.known s rest).take n = s.content.take n := by
    rw [shownOf]
    split at hn
    · next hx =>
      rw [if_pos hx]
      have hnc : n ≤ s.content.length := by omega
      exact ⟨hnc, by rw [length_append]; omega, take_append_of_le_length hnc⟩
    next hx =>
    rw [if_neg hx]
    have hnc : n ≤ s.content.length := by omega
    refine ⟨hnc, by rw [length_take]; omega, ?_⟩
    rw [take_take]
    congr 1
    omega
  refine ⟨n, eof, s', hca, by omega, ht.2.1, ?_⟩
  rw [ht.2.2]
  cases eof with
  | true =>
    obtain ⟨hal, hnl⟩ := heo.mp rfl
    have hni : s'.content = [] := by rw [hc, hnl, drop_length]
    have haf : r.afterSubstitution s' rest true =
        { r with buffer := r.buffer.drop (s'.stop - s'.start), position := s'.stop,
                 substitutions := rest } := rfl
    refine ⟨hsp.next rfl (hac.trans ha.symm) hni, ?_, hli.tail, AllLast.tail,
      fun _ => ⟨rfl, hst, hnl, hal⟩, nofun⟩
    rw [haf, shownOf, if_pos hal, hnl, drop_left, hst]
    rfl
  | false =>
    refine ⟨hsp, ?_, ?_, ?_, fun hf => (nomatch hf), fun _ => ⟨fun hx => ?_, fun hx => ?_⟩⟩
    · show shownFrom d.source r.known r.position (s' :: rest) = _
      rw [shownFrom, hac, ha, slice_self, nil_append, hde, hla, hc, hst, shownOf]
      split
      · rw [drop_append_of_le_length ht.1]
      next hx =>
      have hd : s'.defined = true := by
        rw [hde, ← Bool.not_eq_false]
        exact fun hd => hx (.inl hd)
      rw [hl hd, drop_take]
    · intro u hu
      rcases mem_cons.mp hu with rfl | hu
      · exact ⟨hle, hl'⟩
      · exact hli u (mem_cons_of_mem _ hu)
    · intro hal u hu
      rcases mem_cons.mp hu with rfl | hu
      · rw [hde, hla]
        exact hal s mem_cons_self
      · exact hal u (mem_cons_of_mem _ hu)
    · have hne : ¬ n = s.content.length := fun hnl => by
        have := heo.mpr ⟨hx, hnl⟩
        cases this
      rw [if_pos hx] at hn
      omega
    · rw [if_neg hx] at hn
      rw [shownOf, if_neg hx, length_take, min_eq_left hme.1]
      exact hn

/-- The condition under which consuming everything leaves no substitution behind: there is none;
or there is something to emit for the last one or behind it; or it is the only one, and it is
active. -/
def Closes (r : ReplaceIstream) : Prop :=
  ∀ s, r.substitutions.getLast? = some s → s.stop < r.sourceLength ∨ s.content ≠ [] ∨
    (r.substitutions.length = 1 ∧ r.position = s.start)

theorem closes_nil (hs : r.substitutions = []) : r.Closes := by
  intro t ht
  rw [hs] at ht
  cases ht

theorem closes_singleton (hs : r.substitutions = [s]) :
    r.Closes ↔ s.stop < r.sourceLength ∨ s.content ≠ [] ∨ r.position = s.start := by
  unfold Closes
  rw [hs]
  simp

private theorem closes_cons_cons {u : Substitution} (hs : r.substitutions = s :: u :: rest) :
    r.Closes ↔ ∀ t, (u :: rest).getLast? = some t → t.stop < r.sourceLength ∨ t.content ≠ [] := by
  unfold Closes
  rw [hs]
  simp

private theorem last_of_shown_eq_nil (h : Splices d emitted r) (hf : r.finished = true)
    (hla : AllLast rest) {p : Nat} (ho : Ordered p (rest.map (·.toEdit)) r.known)
    (hni : shownFrom d.source r.known p rest = []) {t : Substitution}
    (ht : rest.getLast? = some t) : ¬ (t.stop < r.sourceLength ∨ t.content ≠ []) := by
  rw [shownFrom_of_allLast _ _ _ _ hla] at hni
  obtain ⟨hc, hst⟩ := last_of_render_eq_nil (e := t.toEdit) ho (h.length_eq ▸ h.known_le) hni
    (by rw [getLast?_map, ht]; rfl)
  rw [known, if_pos hf] at hst
  rintro (hlt | hne)
  · rw [hst] at hlt
    exact lt_irrefl _ hlt
  · exact hne hc

private theorem not_closes_of_gap (h : Splices d emitted r) (hf : r.finished = true)
    (hs : r.substitutions = s :: rest) (hlt : r.position < s.start) (hla : AllLast (s :: rest))
    (hni : shownOf d r.known s rest = []) : ¬ r.Closes := by
  have ho := h.ordered
  rw [edits, hs] at ho
  rw [shownOf, if_pos (hla s mem_cons_self), append_eq_nil_iff] at hni
  cases rest with
  | nil =>
    rw [closes_singleton hs]
    have hsh : shownFrom d.source r.known s.start [s] = [] := by
      rw [shownFrom, slice_self, if_pos (hla s mem_cons_self), hni.1, hni.2]
      rfl
    have hx := last_of_shown_eq_nil h hf hla ⟨le_rfl, ho.2⟩ hsh rfl
    rintro (hc | hc | hc)
    · exact hx (.inl hc)
    · exact hx (.inr hc)
    · omega
  | cons u us =>
    rw [closes_cons_cons hs]
    intro hc
    obtain ⟨t, ht⟩ : ∃ t, (u :: us).getLast? = some t :=
      ⟨_, getLast?_eq_some_getLast (cons_ne_nil u us)⟩
    exact last_of_shown_eq_nil h hf hla.tail ho.2.2 hni.2 ht (hc t ht)

private theorem closes_iff_of_done (h : Splices d emitted r) (hf : r.finished = true)
    (hs : r.substitutions = s :: rest) (hla : AllLast (s :: rest))
    (hne : r.position = s.start ∨ s.content ≠ [])
    (hni : shownFrom d.source r.known s.stop rest = []) : r.Closes ↔ rest = [] := by
  have ho := h.ordered
  rw [edits, hs] at ho
  cases rest with
  | nil =>
    rw [closes_singleton hs]
    exact ⟨fun _ => rfl, fun _ => .inr hne.symm⟩
  | cons u us =>
    rw [closes_cons_cons hs]
    refine ⟨fun hc => ?_, fun hc => absurd hc (cons_ne_nil u us)⟩
    obtain ⟨t, ht⟩ : ∃ t, (u :: us).getLast? = some t :=
      ⟨_, getLast?_eq_some_getLast (cons_ne_nil u us)⟩
    exact absurd (hc t ht) (last_of_shown_eq_nil h hf hla.tail ho.2.2 hni ht)

private theorem closes_iff_next {r' : ReplaceIstream} (hf : r.finished = true)
    (hs : r.substitutions = s :: rest) (hla : AllLast (s :: rest)) (hs' : r'.substitutions = rest)
    (hp' : r'.position = s.stop) (hl' : r'.sourceLength = r.sourceLength)
    (hne : shownFrom d.source r.known s.stop rest ≠ []) : r'.Closes ↔ r.Closes := by
  have hk : r.known = r.sourceLength := by rw [known, if_pos hf]
  cases rest with
  | nil =>
    refine ⟨fun _ => ?_, fun _ => closes_nil hs'⟩
    rw [closes_singleton hs]
    left
    by_contra hg
    exact hne (slice_of_le (by omega))
  | cons u us =>
    cases us with
    | nil =>
      rw [closes_singleton hs', closes_cons_cons hs, hl', hp']
      simp only [getLast?_singleton, Option.some.injEq, forall_eq']
      refine ⟨?_, fun hc => hc.elim .inl fun hc => .inr (.inl hc)⟩
      rintro (hc | hc | hc)
      · exact .inl hc
      · exact .inr hc
      · -- nothing is in front of it, so it shows what is left
        by_contra hx
        rw [not_or, not_not] at hx
        rw [shownFrom, shownFrom, hc, slice_self, if_pos (hla u (by simp)), hx.2,
          slice_of_le (by omega)] at hne
        exact hne rfl
    | cons v vs => rw [closes_cons_cons hs', closes_cons_cons hs, hl', getLast?_cons_cons]

/-- The loop consumes what was shown. -/
theorem consumeLoop_spec :
    ∀ {r : ReplaceIstream} {emitted : List UInt8} (nbytes : Nat), Splices d emitted r →
      r.substitutions = ss → Listed ss →
      (nbytes ≤ (r.shown d).length ∨ AllLast ss ∧ r.finished = true) →
      (0 < nbytes ∨ r.finished = true) →
      ∃ total r', consumeLoop ss nbytes r = some (total, r') ∧
        total = min nbytes (r.shown d).length ∧
        Splices d (emitted ++ (r.shown d).take total) r' ∧
        r'.shown d = (r.shown d).drop total ∧ Listed r'.substitutions ∧
        (AllLast ss → AllLast r'.substitutions) ∧ r'.hasInput = r.hasInput ∧
        r'.finished = r.finished ∧
        (AllLast ss → r.finished = true → nbytes = (r.shown d).length →
          (r'.substitutions = [] ↔ r.Closes)) := by
  induction ss with
  | nil =>
    intro r emitted nbytes h hs hli hn hen
    have ho := h.ordered
    rw [edits, hs] at ho
    have hsh : r.shown d = slice d.source r.position r.known := by rw [shown, hs, shownFrom]
    have hl : (r.shown d).length = r.known - r.position := by
      rw [hsh, length_slice (h.length_eq ▸ h.known_le)]
    rcases getBufferEndOffsetUntil_spec ho h.known_le with
      ⟨-, -, hf, hp⟩ | ⟨stop, hst, hle, -, hla, -⟩
    · -- nothing is shown, and nothing is consumed
      rw [hf] at hn hen
      exfalso
      rcases hn with hn | hn
      · rcases hen with hen | hen
        · omega
        · cases hen
      · cases hn.2
    · have hk := hla rfl
      subst hk
      rw [head?_nil] at hst
      obtain ⟨b, hb, -⟩ := r.consumeBefore_spec hle nbytes
      simp only [consumeLoop, hst, hb]
      generalize hn' : min nbytes (r.known - r.position) = n
      have hbo : r.position + n ≤ r.known := by omega
      refine ⟨n, r.skip n, rfl, by omega, ?_, ?_, ?_, ?_, rfl, rfl, ?_⟩
      · rw [hsh, take_slice hbo]
        apply h.skip
        rw [edits, hs]
        exact hbo
      · rw [hsh, drop_slice]
        show shownFrom d.source r.known (r.position + n) r.substitutions = _
        rw [hs, shownFrom]
      · show Listed r.substitutions
        rwa [hs]
      · intro _
        show AllLast r.substitutions
        rw [hs]
        exact fun t ht => absurd ht not_mem_nil
      · exact fun _ _ _ => ⟨fun _ => closes_nil hs, fun _ => hs⟩
  | cons s rest ih =>
    intro r emitted nbytes h hs hli hn hen
    have he : r.edits = s.toEdit :: rest.map (·.toEdit) := by rw [edits, hs]; rfl
    have ho := h.ordered
    rw [he] at ho
    obtain ⟨hle, hl', ho'⟩ := ho
    have hbo : s.start ≤ r.sourceLength := hl'.trans (ho'.le.trans h.known_le)
    have hsh : r.shown d = slice d.source r.position s.start ++ shownOf d r.known s rest := by
      rw [shown, hs, shownFrom, shownOf]
    have hg : (slice d.source r.position s.start).length = s.start - r.position :=
      length_slice (h.length_eq ▸ hbo)
    have hl : (r.shown d).length = s.start - r.position + (shownOf d r.known s rest).length := by
      rw [hsh, length_append, hg]
    have hst : r.getBufferEndOffsetUntil r.position (some s) = some s.start := by
      rw [getBufferEndOffsetUntil, min_eq_left hbo]
    obtain ⟨b, hb, hbr⟩ := r.consumeBefore_spec hle nbytes
    simp only [consumeLoop, hst, hb]
    cases b with
    | true =>
      obtain ⟨hlt, hnb⟩ := hbr.mp rfl
      rw [min_eq_left hnb]
      have hfi : r.position + nbytes ≤ s.start := by omega
      have hf' : nbytes ≤ (slice d.source r.position s.start).length := by omega
      refine ⟨nbytes, r.skip nbytes, rfl, by omega, ?_, ?_, ?_, ?_, rfl, rfl, ?_⟩
      · rw [hsh, take_append_of_le_length hf', take_slice hfi]
        apply h.skip
        rw [he]
        exact ⟨hfi, hl', ho'⟩
      · rw [hsh, drop_append_of_le_length hf', drop_slice]
        show shownFrom d.source r.known (r.position + nbytes) r.substitutions = _
        rw [hs, shownFrom, shownOf]
      · show Listed r.substitutions
        rwa [hs]
      · show AllLast (s :: rest) → AllLast r.substitutions
        rw [hs]
        exact id
      · intro hal hf hn'
        have hni : shownOf d r.known s rest = [] := eq_nil_of_length_eq_zero (by omega)
        refine ⟨fun hx => ?_, fun hx => absurd hx (not_closes_of_gap h hf hs hlt hal hni)⟩
        rw [show (r.skip nbytes).substitutions = r.substitutions from rfl, hs] at hx
        cases hx
    | false =>
      have hnt : ¬ (r.position < s.start ∧ nbytes ≤ s.start - r.position) := fun hx => by
        cases hbr.mpr hx
      have hgo : min nbytes (s.start - r.position) = s.start - r.position := by omega
      rw [hgo]
      have hsp : Splices d (emitted ++ slice d.source r.position s.start)
          (r.skip (s.start - r.position)) := by
        have hpo : r.position + (s.start - r.position) = s.start := by omega
        have hx := h.skip (n := s.start - r.position) (by
          rw [hpo, he]
          exact ⟨le_rfl, hl', ho'⟩)
        rwa [hpo] at hx
      obtain ⟨n, eof, s', hca, hne, hnl', hsp', hs', hli', ha', heo, hm⟩ :=
        consume_active hsp hs (by simp only [skip]; omega) hli
          (nbytes - (s.start - r.position))
      have hkn : (r.skip (s.start - r.position)).known = r.known := rfl
      rw [hkn] at hnl' hsp' hs' hm
      simp only [hca]
      -- what was consumed up to here
      have hta : emitted ++ (r.shown d).take (s.start - r.position + n) =
          emitted ++ slice d.source r.position s.start ++ (shownOf d r.known s rest).take n := by
        rw [hsh, take_append, take_of_length_le (by omega), hg,
          Nat.add_sub_cancel_left, append_assoc]
      have hd : (r.shown d).drop (s.start - r.position + n) =
          (shownOf d r.known s rest).drop n := by
        rw [hsh, drop_append, drop_eq_nil_of_le (by omega), hg, Nat.add_sub_cancel_left, nil_append]
      have hfr := afterSubstitution_finished (r.skip (s.start - r.position)) s' rest eof
      have hfr' := afterSubstitution_hasInput (r.skip (s.start - r.position)) s' rest eof
      have hf'' := afterSubstitution_sourceLength (r.skip (s.start - r.position)) s' rest eof
      generalize (r.skip (s.start - r.position)).afterSubstitution s' rest eof = r1 at *
      by_cases hz : nbytes - (s.start - r.position) - n = 0
      · rw [if_pos hz]
        refine ⟨s.start - r.position + n, r1, rfl, by omega, ?_, ?_, hli', ha', hfr', hfr, ?_⟩
        · rwa [hta]
        · rwa [hd]
        · intro hal hf hn'
          have hla := hal s mem_cons_self
          have hof : shownOf d r.known s rest =
              s.content ++ shownFrom d.source r.known s.stop rest := by
            rw [shownOf, if_pos hla]
          rw [hof, length_append] at hl
          cases eof with
          | false =>
            obtain ⟨-, hlt⟩ := (hm rfl).1 hla
            omega
          | true =>
            obtain ⟨hr, -, hnl, -⟩ := heo rfl
            rw [hr]
            refine (closes_iff_of_done h hf hs hal ?_
              (eq_nil_of_length_eq_zero (by omega))).symm
            by_cases hp : r.position = s.start
            · exact .inl hp
            · refine .inr fun hc => ?_
              rw [hc, length_nil] at hnl
              omega
      rw [if_neg hz]
      cases eof with
      | false =>
        exfalso
        obtain ⟨hdo, hal⟩ := hm rfl
        by_cases hla : s.defined = false ∨ s.last = true
        · have := hdo hla
          omega
        · rcases hn with hn | ⟨hx, -⟩
          · have := hal hla
            omega
          · exact hla (hx s mem_cons_self)
      | true =>
        obtain ⟨hr, hpo, hnl, hla⟩ := heo rfl
        have hlen' : (r1.shown d).length = (shownOf d r.known s rest).length - n := by
          rw [hs', length_drop]
        obtain ⟨total, r', hlo, hto, hs'', hsh'', hl'', ha'', hi, hfn, hcl⟩ :=
          ih (nbytes - (s.start - r.position) - n) hsp' hr hli.tail
            (hn.imp (fun hx => by omega) fun hx => ⟨hx.1.tail, hfr.trans hx.2⟩)
            (.inl (by omega))
        rw [hlo]
        refine ⟨s.start - r.position + n + total, r', rfl, by omega, ?_, ?_, hl'',
          fun hx => ha'' hx.tail, hi.trans hfr', hfn.trans hfr, ?_⟩
        · rw [take_add, ← append_assoc, hta, hd, ← hs']
          exact hs''
        · rw [hsh'', ← drop_drop, hd, hs']
        · intro hal hf hn'
          rw [hcl hal.tail (hfr.trans hf) (by omega)]
          apply closes_iff_next hf hs hal hr hpo hf''
          intro hni
          rw [shownOf, if_pos hla, hni, append_nil] at hl hlen'
          omega

end ReplaceIstream
end BengProxy.Istream
