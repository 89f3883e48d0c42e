import BengProxy.Istream.Replace

/-!
# The output of a `ReplaceIstream`

A document is the source with the edits the parser has asked for. A stream splices a document
if what it has emitted, followed by what it has yet to emit, is the document as far as it is
known. Each elementary operation of the stream keeps this.
-/

namespace BengProxy.Istream

open Base.Splice List Bool

/-- The source, and the ranges to be replaced. -/
structure Document where
  source : List UInt8 := []
  edits : List (Edit UInt8) := []

namespace Document

variable (d : Document)

/-- The source with each range replaced. -/
def output : List UInt8 := render d.source 0 d.edits d.source.length

/-- What a call of the parser asks for. -/
def control : Control → Document
  | .add start stop contents =>
    if contents.isNone && start == stop then d
    else { d with edits := d.edits ++ [{ start, stop, content := contents.getD [] }] }
  | .extend _ stop => { d with edits := mapLast (fun e => { e with stop }) d.edits }
  | .settle _ => d
  | .finish => d

/-- Several calls of the parser. -/
def controls (ops : List Control) : Document := ops.foldl control d

/-- More of the source, and what the parser makes of it. -/
def append (src : List UInt8) (ops : List Control) : Document :=
  controls { d with source := d.source ++ src } ops

end Document

namespace ReplaceIstream

variable {d : Document} {emitted : List UInt8} {r : ReplaceIstream}

/-- The pending edits. -/
def edits (r : ReplaceIstream) : List (Edit UInt8) := r.substitutions.map (·.toEdit)

/-- Up to this offset, there will be no more edits. -/
def known (r : ReplaceIstream) : Nat := if r.finished then r.sourceLength else r.settledPosition

/-- What is left to be emitted of the part that is known. -/
def remaining (d : Document) (r : ReplaceIstream) : List UInt8 :=
  render d.source r.position r.edits r.known

/-- The stream splices the document. -/
structure Splices (d : Document) (emitted : List UInt8) (r : ReplaceIstream) : Prop where
  buffer_eq : r.buffer = d.source.drop r.position
  length_eq : r.sourceLength = d.source.length
  ordered : Ordered r.position r.edits r.known
  known_le : r.known ≤ r.sourceLength
  edits_ordered : Ordered 0 d.edits r.known
  output_eq : emitted ++ r.remaining d = render d.source 0 d.edits r.known
  stops : r.edits.map Edit.stop <:+ d.edits.map Edit.stop
  no_content : ∀ s ∈ r.substitutions, s.defined = false → s.content = []

section

variable (h : Splices d emitted r)
include h

theorem Splices.position_le : r.position ≤ r.sourceLength :=
  h.ordered.le.trans h.known_le

omit h in
theorem Splices.new : Splices {} [] {} where
  buffer_eq := rfl
  length_eq := rfl
  ordered := le_refl 0
  known_le := le_refl 0
  edits_ordered := le_refl 0
  output_eq := rfl
  stops := suffix_rfl
  no_content _ hs := nomatch hs

private theorem Splices.output_upto {b : Nat} (hb : r.known ≤ b) :
    emitted ++ render d.source r.position r.edits b = render d.source 0 d.edits b := by
  rw [← render_append_slice h.ordered hb, ← render_append_slice h.edits_ordered hb,
    ← append_assoc, ← h.output_eq, remaining]

/-- With the source finished, all of the output is known. -/
theorem Splices.output_finished (hf : r.finished = true) : emitted ++ r.remaining d = d.output := by
  have hk : r.known = d.source.length := by rw [known, if_pos hf, h.length_eq]
  rw [h.output_eq, hk, Document.output]

/-- More of the output becomes known: no edit will come before `b`. -/
theorem Splices.learn {r' : ReplaceIstream}
    (hle : r.known ≤ r'.known) (hl' : r'.known ≤ r.sourceLength)
    (hb : r'.buffer = r.buffer) (hl : r'.sourceLength = r.sourceLength)
    (hp : r'.position = r.position) (hs : r'.substitutions = r.substitutions) :
    Splices d emitted r' := by
  have he : r'.edits = r.edits := by rw [edits, hs, edits]
  constructor
  · rw [hb, hp, h.buffer_eq]
  · rw [hl, h.length_eq]
  · rw [hp, he]
    exact h.ordered.mono hle
  · rwa [hl]
  · exact h.edits_ordered.mono hle
  · rw [remaining, hp, he]
    exact h.output_upto hle
  · rw [he]
    exact h.stops
  · rw [hs]
    exact h.no_content

omit h in
private theorem known_of_not_finished (hf : r.finished = false) :
    r.known = r.settledPosition := by
  rw [known, hf]
  exact if_neg Bool.false_ne_true

private theorem Splices.add {start stop : Nat} {c : Option (List UInt8)}
    (hass : r.Asserts (.add start stop c)) (hw : stop ≤ r.sourceLength) :
    Splices (d.control (.add start stop c)) emitted
      (r.control (.add start stop c)) := by
  obtain ⟨hf, hle, hse, -⟩ := hass
  by_cases hn : (c.isNone && start == stop) = true
  · rwa [control, if_pos hn, Document.control, if_pos hn]
  rw [control, if_neg hn, Document.control, if_neg hn]
  have hk := known_of_not_finished hf
  generalize hr : ReplaceIstream.mk r.hasInput _ _ _ _ _ _ _ = r'
  have hk' : r'.known = stop := by
    rw [known_of_not_finished (by rw [← hr]; exact hf), ← hr]
  have he' : r'.edits = r.edits ++ [{ start, stop, content := c.getD [] }] := by
    rw [← hr, edits, map_append]
    rfl
  have hp' : r'.position = r.position := by rw [← hr]
  constructor
  · rw [← hr]
    exact h.buffer_eq
  · rw [← hr]
    exact h.length_eq
  · rw [hp', he', hk', ordered_concat]
    exact ⟨h.ordered.mono (hk ▸ hse), hle, le_rfl⟩
  · rw [hk', ← hr]
    exact hw
  · rw [hk', ordered_concat]
    exact ⟨h.edits_ordered.mono (hk ▸ hse), hle, le_rfl⟩
  · rw [remaining, hp', he', render_concat, render_concat]
    simp only [← append_assoc]
    rw [h.output_upto (hk ▸ hse)]
  · rw [he', map_append, map_append]
    obtain ⟨before, hb⟩ := h.stops
    exact ⟨before, by rw [← hb, append_assoc]⟩
  · rw [← hr]
    intro s hs hd
    rcases mem_append.mp hs with hs | hs
    · exact h.no_content s hs hd
    · rw [mem_singleton.mp hs] at hd ⊢
      rw [Option.not_isSome_iff_eq_none.mp (eq_false_iff.mp hd)]
      rfl

private theorem Splices.extend {st stop : Nat}
    (hass : r.Asserts (.extend st stop)) (hw : stop ≤ r.sourceLength) :
    Splices (d.control (.extend st stop)) emitted (r.control (.extend st stop)) := by
  obtain ⟨hf, s, hla, -, hse, -, hle⟩ := hass
  obtain ⟨ss, hss⟩ := getLast?_eq_some_iff.mp hla
  have he : r.edits = ss.map (·.toEdit) ++ [s.toEdit] := by
    rw [edits, hss, map_append]
    rfl
  -- the last pending edit is the last one of the document
  obtain ⟨ds, e, hde, hst, hso⟩ : ∃ ds e, d.edits = ds ++ [e] ∧ e.stop = s.stop ∧
      (ss.map (·.toEdit)).map Edit.stop <:+ ds.map Edit.stop := by
    obtain ⟨before, hb⟩ := h.stops
    rw [he, map_append, ← append_assoc] at hb
    obtain ⟨ds, tl, hd, hds, htl⟩ := map_eq_append_iff.mp hb.symm
    obtain ⟨e, hte, hs⟩ := map_eq_singleton_iff.mp htl
    exact ⟨ds, e, by rw [hd, hte], hs, ⟨before, hds.symm⟩⟩
  have hk : r.known = s.stop := (known_of_not_finished hf).trans hse.symm
  have ho := h.ordered
  rw [he, ordered_concat] at ho
  have ho' := h.edits_ordered
  rw [hde, ordered_concat] at ho'
  have hou := h.output_eq
  rw [remaining, he, hk, hde, render_concat, render_concat, hst, slice_self, append_nil,
    append_nil] at hou
  rw [control, Document.control, hss, hde, mapLast_concat, mapLast_concat]
  generalize hr : ReplaceIstream.mk r.hasInput _ _ _ _ _ _ _ = r'
  have hk' : r'.known = stop := by
    rw [known_of_not_finished (by rw [← hr]; exact hf), ← hr]
  have he' : r'.edits = ss.map (·.toEdit) ++ [{ s.toEdit with stop }] := by
    rw [← hr, edits, map_append]
    rfl
  have hp' : r'.position = r.position := by rw [← hr]
  constructor
  · rw [← hr]
    exact h.buffer_eq
  · rw [← hr]
    exact h.length_eq
  · rw [hp', he', hk', ordered_concat]
    exact ⟨ho.1, ho.2.1.trans hle, le_rfl⟩
  · rw [hk', ← hr]
    exact hw
  · rw [hk', ordered_concat]
    exact ⟨ho'.1, ho'.2.1.trans (hst ▸ hle), le_rfl⟩
  · rw [remaining, hp', he', hk', render_concat, render_concat, slice_self, append_nil, append_nil]
    exact hou
  · rw [he', map_append, map_append]
    obtain ⟨before, hb⟩ := hso
    exact ⟨before, by rw [← hb, append_assoc]; rfl⟩
  · rw [← hr]
    intro t ht hd
    have hme := h.no_content
    rw [hss] at hme
    rcases mem_append.mp ht with ht | ht
    · exact hme t (mem_append_left _ ht) hd
    · rw [mem_singleton.mp ht] at hd ⊢
      exact hme s mem_concat_self hd

omit h in
/-- After `Finish`, there are no more calls of the parser. -/
theorem Asserts.not_finished {op : Control} (h : r.Asserts op) : r.finished = false := by
  cases op with
  | add start stop contents | extend start stop | settle offset => exact h.1
  | finish => exact h

/-- Every call of the parser does to the stream what it does to the document. -/
theorem Splices.control {op : Control} (hass : r.Asserts op)
    (hw : r.Within op) : Splices (d.control op) emitted (r.control op) := by
  cases op with
  | add start stop contents => exact h.add hass hw
  | extend start stop => exact h.extend hass hw
  | settle offset =>
    obtain ⟨hf, hle⟩ := hass
    have hk := known_of_not_finished hf
    have hk' : (r.control (.settle offset)).known = offset := known_of_not_finished hf
    exact h.learn (by rwa [hk, hk']) (by rwa [hk']) rfl rfl rfl rfl
  | finish => exact h.learn h.known_le (le_rfl) rfl rfl rfl rfl

theorem Splices.controls {ops : List Control} (ho : r.Permits ops) :
    Splices (d.controls ops) emitted (r.controls ops) := by
  induction ops generalizing d r with
  | nil => exact h
  | cons op ops ih => exact ih (h.control ho.1 ho.2.1) ho.2.2

theorem Splices.grow (src : List UInt8) :
    Splices { d with source := d.source ++ src } emitted (r.write src) := by
  rw [write]
  generalize hr : ReplaceIstream.mk r.hasInput _ _ _ _ _ _ _ = r'
  have hl : r'.sourceLength = r.sourceLength + src.length := by rw [← hr]
  have hk : r.known ≤ r'.known ∧ r'.known ≤ r'.sourceLength := by
    have hle := h.known_le
    rw [← hr, known, known] at *
    split at hle
    · next hf => simp [hf]
    · next hf =>
      simp only [hf, false_eq_true, if_false]
      omega
  have he : r'.edits = r.edits := by rw [← hr, edits, edits]
  have hp : r'.position = r.position := by rw [← hr]
  have hkl : r.known ≤ d.source.length := h.length_eq ▸ h.known_le
  constructor
  · rw [hp, drop_append_of_le_length (h.length_eq ▸ h.position_le), ← h.buffer_eq, ← hr]
  · rw [hl, length_append, h.length_eq]
  · rw [hp, he]
    exact h.ordered.mono hk.1
  · exact hk.2
  · exact h.edits_ordered.mono hk.1
  · rw [remaining, hp, he, ← render_append_slice h.ordered hk.1,
      ← render_append_slice h.edits_ordered hk.1, render_append_of_le h.ordered hkl,
      render_append_of_le h.edits_ordered hkl, ← append_assoc]
    congr 1
    exact h.output_eq
  · rw [he]
    exact h.stops
  · rw [← hr]
    exact h.no_content

omit h in
/-- `GetBufferEndOffsetUntil` is the offset of the next edit behind a position, or the end of the
known part. -/
theorem getBufferEndOffsetUntil_spec {p : Nat} {ss : List Substitution}
    (ho : Ordered p (ss.map (·.toEdit)) r.known) (hkn : r.known ≤ r.sourceLength) :
    r.getBufferEndOffsetUntil p ss.head? = none ∧ ss = [] ∧ r.finished = false ∧ p = r.known ∨
    ∃ stop, r.getBufferEndOffsetUntil p ss.head? = some stop ∧ p ≤ stop ∧
      Ordered stop (ss.map (·.toEdit)) r.known ∧ (ss = [] → stop = r.known) ∧
      ∀ s rest, ss = s :: rest → stop = s.start := by
  cases ss with
  | nil =>
    have hle : p ≤ r.known := ho
    have hni : ∀ s rest, ([] : List Substitution) = s :: rest → r.known = s.start :=
      fun s rest hs => nomatch hs
    by_cases hf : r.finished = true
    · right
      refine ⟨r.known, ?_, hle, le_rfl, fun _ => rfl, hni⟩
      simp only [head?_nil, getBufferEndOffsetUntil, known, if_pos hf]
    rw [not_eq_true] at hf
    have hk := known_of_not_finished hf
    by_cases hlt : p < r.settledPosition
    · right
      refine ⟨r.known, ?_, hle, le_rfl, fun _ => rfl, hni⟩
      simp only [head?_nil, getBufferEndOffsetUntil, hf, false_eq_true, if_false, if_pos hlt, hk]
    · left
      refine ⟨?_, rfl, hf, by omega⟩
      simp only [head?_nil, getBufferEndOffsetUntil, hf, false_eq_true, if_false, if_neg hlt]
  | cons s rest =>
    obtain ⟨hle, hl', ho'⟩ := ho
    have hst : s.start ≤ r.sourceLength := hl'.trans (ho'.le.trans hkn)
    right
    refine ⟨s.start, ?_, hle, ⟨le_rfl, hl', ho'⟩, fun hn => (nomatch hn), ?_⟩
    · simp only [head?_cons, getBufferEndOffsetUntil, min_eq_left hst]
    · intro t ts ht
      cases ht
      rfl

/-- The substitutions are marked, with the same edits. -/
theorem Splices.relabel {ss : List Substitution} (he : ss.map (·.toEdit) = r.edits)
    (hno : ∀ s ∈ ss, s.defined = false → s.content = []) :
    Splices d emitted { r with substitutions := ss } := by
  constructor
  · exact h.buffer_eq
  · exact h.length_eq
  · rw [edits, he]
    exact h.ordered
  · exact h.known_le
  · exact h.edits_ordered
  · rw [remaining, edits, he]
    exact h.output_eq
  · rw [edits, he]
    exact h.stops
  · exact hno

/-- Emitting from the buffer, in front of the first edit. -/
theorem Splices.emit {n : Nat} (hn : Ordered (r.position + n) r.edits r.known) :
    Splices d (emitted ++ r.buffer.take n)
      { r with buffer := r.buffer.drop n, position := r.position + n } where
  buffer_eq := by rw [h.buffer_eq, drop_drop]
  length_eq := h.length_eq
  ordered := hn
  known_le := h.known_le
  edits_ordered := h.edits_ordered
  output_eq := by
    have hsl : r.buffer.take n = slice d.source r.position (r.position + n) := by
      rw [h.buffer_eq, slice, Nat.add_sub_cancel_left]
    rw [hsl, append_assoc]
    refine Eq.trans ?_ h.output_eq
    congr 1
    exact slice_append_render (Nat.le_add_right _ _) hn
  stops := h.stops
  no_content := h.no_content

end

variable {s : Substitution} {rest : List Substitution}

/-- Emitting from the active substitution. -/
theorem Splices.deliver (h : Splices d emitted r) (hs : r.substitutions = s :: rest)
    (hac : r.position = s.start) {n : Nat} {s' : Substitution}
    (hs' : s'.toEdit = { s.toEdit with content := s.content.drop n })
    (hde : s'.defined = s.defined) :
    Splices d (emitted ++ s.content.take n) { r with substitutions := s' :: rest } := by
  have he : r.edits = s.toEdit :: rest.map (·.toEdit) := by rw [edits, hs]; rfl
  generalize hr : ReplaceIstream.mk r.hasInput _ _ _ _ _ _ _ = r'
  have he' : r'.edits = { s.toEdit with content := s.content.drop n } :: rest.map (·.toEdit) := by
    rw [← hr, ← hs']
    rfl
  have hk : r'.known = r.known := by rw [← hr, known, known]
  have hp : r'.position = r.position := by rw [← hr]
  have ho := h.ordered
  rw [he] at ho
  constructor
  · rw [hp, ← h.buffer_eq, ← hr]
  · rw [← h.length_eq, ← hr]
  · rw [hp, he', hk]
    exact ho
  · rw [← hr]
    exact h.known_le
  · rw [hk]
    exact h.edits_ordered
  · rw [hk, ← h.output_eq, remaining, remaining, he, he', hp, hk, render, render, hac,
      slice_self, nil_append, nil_append, append_assoc, ← append_assoc
        (s.content.take n), take_append_drop]
  · have hst := h.stops
    rw [he] at hst
    rwa [he']
  · rw [← hr]
    intro t ht hd
    have hme := h.no_content
    rw [hs] at hme
    rcases mem_cons.mp ht with rfl | ht
    · have hc : s.content = [] := hme s mem_cons_self (hde ▸ hd)
      rw [hs']
      simp only [hc, drop_nil]
    · exact hme t (mem_cons_of_mem _ ht) hd

/-- The next substitution, after the active one has ended. -/
theorem Splices.next (h : Splices d emitted r) (hs : r.substitutions = s :: rest)
    (hac : r.position = s.start) (hc : s.content = []) :
    Splices d emitted r.toNextSubstitution := by
  have he : r.edits = s.toEdit :: rest.map (·.toEdit) := by rw [edits, hs]; rfl
  have ho := h.ordered
  rw [he] at ho
  rw [toNextSubstitution, hs]
  constructor
  · show r.buffer.drop (s.stop - s.start) = _
    rw [h.buffer_eq, drop_drop, hac]
    congr 1
    exact Nat.add_sub_cancel' ho.2.1
  · exact h.length_eq
  · exact ho.2.2
  · exact h.known_le
  · exact h.edits_ordered
  · show emitted ++ render d.source s.stop (rest.map (·.toEdit)) r.known =
      render d.source 0 d.edits r.known
    rw [← h.output_eq, remaining, he, render, hac, slice_self, hc]
    rfl
  · have hst := h.stops
    rw [he] at hst
    exact (suffix_cons _ _).trans hst
  · intro t ht hd
    have hme := h.no_content
    rw [hs] at hme
    exact hme t (mem_cons_of_mem _ ht) hd

end ReplaceIstream
end BengProxy.Istream
