import BengProxy.Istream.ReplaceInvariant

/-!
# Reading from a `ReplaceIstream`

Whatever the handler accepts and whatever the streams of the substitutions do, reading emits the
document in order, and `DestroyEof` is called as soon as nothing is left.
-/

namespace BengProxy.Istream

open Base.Splice ReplaceIstream List Replacing SubstitutionEvent

variable {n : Nat}

namespace Replacing

/-- What holds between calls. -/
structure Inv (d : Document) (m : Replacing) : Prop where
  splices : Splices d m.handler.received m.stream
  ended_eq : m.ended = m.stream.isEof
  finished : m.stream.hasInput = false → m.stream.finished = true

variable {d : Document} {m : Replacing} {s : Substitution} {rest : List Substitution}

private theorem isEof_of_substitutions {r : ReplaceIstream} (hs : r.substitutions = s :: rest) :
    r.isEof = false := by
  rw [isEof, hs]
  simp

theorem isEof_iff {r : ReplaceIstream} :
    r.isEof = true ↔ r.hasInput = false ∧ r.finished = true ∧ r.substitutions = [] ∧
      r.position = r.sourceLength := by
  simp [isEof, isBufferAtEof, and_assoc]

/-- The active substitution: the first one, with everything in front of it emitted. -/
structure Active (m : Replacing) (s : Substitution) (rest : List Substitution) : Prop where
  eq : m.stream.substitutions = s :: rest
  position_eq : m.stream.position = s.start

private theorem Inv.substitutionData_active (h : Inv d m) (ha : m.Active s rest) (size : Nat) :
    Inv d (m.substitutionData 0 size) ∧ ∃ s', (m.substitutionData 0 size).Active s' rest := by
  unfold substitutionData
  simp only [ha.eq]
  by_cases hsr : m.stream.position = s.start ∧ s.content.take size ≠ []
  · simp only [if_pos hsr]
    obtain ⟨n, h', hc, hn, hco, -, -⟩ := m.handler.invokeData_spec (s.content.take size)
    rw [hc]
    have ht : (s.content.take size).take n = s.content.take n := by
      rw [take_take, min_eq_left (hn.trans (length_take_le _ _))]
    refine ⟨⟨?_, ?_, h.finished⟩, _, rfl, ha.position_eq⟩
    · simp only
      rw [hco.received_eq, ht]
      exact h.splices.deliver ha.eq ha.position_eq rfl rfl
    · show m.ended = _
      rw [h.ended_eq, isEof_of_substitutions ha.eq, isEof_of_substitutions rfl]
  · rw [if_neg hsr]
    exact ⟨h, s, ha⟩

theorem Inv.substitutionData (h : Inv d m) (index size : Nat) :
    Inv d (m.substitutionData index size) := by
  cases hs : m.stream.substitutions with
  | nil =>
    have hsa : m.substitutionData index size = m := by
      cases index <;> simp [Replacing.substitutionData, hs]
    rwa [hsa]
  | cons s rest =>
    cases index with
    | succ index => exact h
    | zero =>
      by_cases hp : m.stream.position = s.start
      · exact (h.substitutionData_active ⟨hs, hp⟩ size).1
      · have hsa : m.substitutionData 0 size = m := by
          simp [Replacing.substitutionData, hs, hp]
        rwa [hsa]

private theorem splices_modify {r : ReplaceIstream} {e : List UInt8} (id : Nat)
    (h : Splices d e r)
    (hc : ∀ s, r.substitutions[id]? = some s → s.content = []) :
    Splices d e { r with
      substitutions := r.substitutions.modify id fun s => { s with defined := false } } := by
  have he : (r.substitutions.modify id fun s => { s with defined := false }).map (·.toEdit) =
      r.substitutions.map (·.toEdit) := by
    apply ext_getElem?
    intro i
    rw [getElem?_map, getElem?_map, getElem?_modify]
    cases r.substitutions[i]? with
    | none => rfl
    | some s => split <;> rfl
  apply h.relabel he
  intro s hs hd
  obtain ⟨i, hi⟩ := mem_iff_getElem?.mp hs
  simp only [getElem?_modify, Option.map_eq_map, Option.map_eq_some_iff] at hi
  obtain ⟨t, ht, hts⟩ := hi
  by_cases hin : id = i
  · subst hin
    rw [if_pos rfl] at hts
    rw [← hts]
    exact hc t ht
  · rw [if_neg hin] at hts
    subst hts
    exact h.no_content t (mem_of_getElem? ht) hd

theorem Inv.substitutionEof (h : Inv d m) (index : Nat)
    (hs : m.stream.substitutions[index]? = some s) (hc : s.content = []) :
    Inv d (m.substitutionEof index) := by
  have hsp := splices_modify index h.splices (by
    intro t ht
    rw [hs] at ht
    cases ht
    exact hc)
  have hne : ∃ t ts, m.stream.substitutions = t :: ts := by
    cases hl : m.stream.substitutions with
    | nil => simp [hl] at hs
    | cons t ts => exact ⟨t, ts, rfl⟩
  obtain ⟨t, ts, hts⟩ := hne
  have he : m.ended = false := by rw [h.ended_eq, isEof_of_substitutions hts]
  unfold Replacing.substitutionEof
  cases index with
  | succ index =>
    refine ⟨hsp, ?_, h.finished⟩
    simp only [hts]
    rw [he, isEof_of_substitutions rfl]
  | zero =>
    rw [hts] at hs hsp ⊢
    cases hs
    simp only [modify_zero_cons] at hsp ⊢
    by_cases hp : m.stream.position = s.start
    · rw [if_pos hp]
      exact ⟨hsp.next rfl hp hc, rfl, h.finished⟩
    · rw [if_neg hp]
      exact ⟨hsp, by rw [isEof_of_substitutions rfl]; exact he, h.finished⟩

private theorem substitutionEof_active (ha : m.Active s rest) :
    (m.substitutionEof 0).stream.substitutions = rest ∧ (m.substitutionEof 0).handler = m.handler ∧
      (m.substitutionEof 0).stream.hasInput = m.stream.hasInput ∧
      (m.substitutionEof 0).stream.sourceLength = m.stream.sourceLength ∧
      (m.substitutionEof 0).stream.known = m.stream.known := by
  unfold substitutionEof
  rw [ha.eq]
  simp only [modify_zero_cons]
  rw [if_pos ha.position_eq]
  exact ⟨rfl, rfl, rfl, rfl, rfl⟩

private theorem Inv.substitutionRead (e : List SubstitutionEvent) :
    ∀ {m : Replacing} {s : Substitution}, Inv d m → m.Active s rest →
      ∃ first m', m.substitutionRead e = (first, m') ∧ Inv d m' ∧
        (first = false → m'.stream.substitutions = rest) := by
  induction e with
  | nil =>
    intro m s h ha
    exact ⟨true, m, rfl, h, nofun⟩
  | cons event e ih =>
    intro m s h ha
    cases event with
    | data size =>
      obtain ⟨h', s', ha'⟩ := h.substitutionData_active ha size
      simp only [Replacing.substitutionRead]
      by_cases hd : (m.substitutionData 0 size).handler.destroyed = true
      · rw [if_pos hd]
        exact ⟨true, _, rfl, h', nofun⟩
      · rw [if_neg hd]
        exact ih h' ha'
    | eof =>
      simp only [Replacing.substitutionRead, ha.eq]
      by_cases hc : s.content = []
      · rw [if_pos hc]
        exact ⟨false, _, rfl, h.substitutionEof 0 (by rw [ha.eq]; rfl) hc,
          fun _ => (substitutionEof_active ha).1⟩
      · rw [if_neg hc]
        exact ih h ha

private theorem Inv.readSubstitution (e : Nat → List SubstitutionEvent) (fuel : Nat) :
    ∀ {m : Replacing}, Inv d m → m.handler.destroyed = false → m.ended = false →
      m.stream.substitutions.length < fuel →
      ∃ b m', readSubstitution e fuel m = some (b, m') ∧ Inv d m' ∧
        (b = true → m'.handler.destroyed = false ∧ m'.ended = false ∧
          (∀ s rest, ¬ m'.Active s rest) ∧
          (m' = m ∨ m'.stream.substitutions.length < m.stream.substitutions.length)) := by
  induction fuel with
  | zero =>
    intro m _ _ _ hf
    omega
  | succ fuel ih =>
    intro m h hd he hf
    cases hs : m.stream.substitutions with
    | nil =>
      refine ⟨true, m, by simp only [Replacing.readSubstitution, hs], h, fun _ =>
        ⟨hd, he, ?_, .inl rfl⟩⟩
      intro s rest ha
      rw [ha.eq] at hs
      cases hs
    | cons s rest =>
      rw [hs, length_cons] at hf
      -- the rest of the loop, once the active substitution is gone
      have loop : ∀ m1 : Replacing, Inv d m1 → m1.handler.destroyed = false → m1.ended = false →
          m1.stream.substitutions = rest →
          ∃ b m', Replacing.readSubstitution e fuel m1 = some (b, m') ∧ Inv d m' ∧
            (b = true → m'.handler.destroyed = false ∧ m'.ended = false ∧
              (∀ s rest, ¬ m'.Active s rest) ∧
              (m' = m ∨ m'.stream.substitutions.length < (s :: rest).length)) := by
        intro m1 h1 hd1 he1 hre
        obtain ⟨b, m', hr, h', hb⟩ := ih h1 hd1 he1 (by rw [hre]; omega)
        refine ⟨b, m', hr, h', fun hbt => ?_⟩
        obtain ⟨hd', he', hna, hlt⟩ := hb hbt
        refine ⟨hd', he', hna, .inr ?_⟩
        rcases hlt with rfl | hlt
        · rw [hre]
          exact Nat.lt_succ_self _
        · rw [hre] at hlt
          exact Nat.lt_succ_of_lt hlt
      by_cases hp : m.stream.position = s.start
      · by_cases hde : s.defined = true
        · obtain ⟨first, m1, hr, h1, hn⟩ :=
            h.substitutionRead (e rest.length) ⟨hs, hp⟩
          simp only [Replacing.readSubstitution, hs, if_pos hp, if_pos hde, hr]
          by_cases hst : (m1.handler.destroyed || m1.ended || first) = true
          · rw [if_pos hst]
            exact ⟨false, m1, rfl, h1, nofun⟩
          · rw [if_neg hst]
            simp only [Bool.not_eq_true, Bool.or_eq_false_iff] at hst
            exact loop m1 h1 hst.1.1 hst.1.2 (hn hst.2)
        have hc : s.content = [] :=
          h.splices.no_content s (by rw [hs]; exact mem_cons_self) (Bool.eq_false_iff.mpr hde)
        have hsp := h.splices.next hs hp hc
        have hre : m.stream.toNextSubstitution.substitutions = rest ∧
            m.stream.toNextSubstitution.hasInput = m.stream.hasInput ∧
            m.stream.toNextSubstitution.finished = m.stream.finished := by
          rw [toNextSubstitution, hs]
          exact ⟨rfl, rfl, rfl⟩
        have hfi : m.stream.toNextSubstitution.hasInput = false →
            m.stream.toNextSubstitution.finished = true := by
          rw [hre.2.1, hre.2.2]
          exact h.finished
        simp only [Replacing.readSubstitution, hs, if_pos hp, if_neg hde]
        by_cases heo : m.stream.toNextSubstitution.isEof = true
        · rw [if_pos heo]
          exact ⟨false, _, rfl, ⟨hsp, heo.symm, hfi⟩, nofun⟩
        · rw [if_neg heo]
          exact loop _ ⟨hsp, he.trans (Bool.eq_false_iff.mpr heo).symm, hfi⟩ hd he hre.1
      · refine ⟨true, m, ?_, h, fun _ => ⟨hd, he, ?_, .inl rfl⟩⟩
        · simp only [Replacing.readSubstitution, hs, if_neg hp]
        · intro t ts ha
          have heq := ha.eq
          rw [hs, List.cons.injEq] at heq
          rw [heq.1] at hp
          exact hp ha.position_eq

/-- The handler has taken `n` bytes from the buffer. -/
def advance (m : Replacing) (n : Nat) (handler : Handler) : Replacing :=
  { m with
    handler
    stream := { m.stream with
      buffer := m.stream.buffer.drop n
      position := m.stream.position + n } }

theorem advance_zero (m : Replacing) (h : Handler) : m.advance 0 h = { m with handler := h } := rfl

theorem advance_advance (m : Replacing) (n n' : Nat) (h h' : Handler) :
    (m.advance n h).advance n' h' = m.advance (n + n') h' := by
  simp only [advance, drop_drop, Nat.add_assoc]

private theorem readFromBuffer_spec (h : Splices d m.handler.received m.stream)
    (hd : m.handler.destroyed = false) {p stop : Nat} (hpi : 0 < p)
    (hlt : m.stream.position < stop) (hst : Ordered stop m.stream.edits m.stream.known) :
    ∃ left n h', m.readFromBuffer p (stop - m.stream.position) = (left, m.advance n h') ∧
      Splices d h'.received (m.advance n h').stream ∧
      (0 < left → m.stream.position + n < stop) ∧
      (left = 0 → h'.destroyed = false ∧ 0 < n ∧ m.stream.position + n ≤ stop) := by
  have hbu : m.stream.buffer.length = m.stream.sourceLength - m.stream.position := by
    rw [h.buffer_eq, length_drop, h.length_eq]
  have hle : stop ≤ m.stream.sourceLength := hst.le.trans h.known_le
  obtain ⟨n, h', hc, hn, hco, -, hde⟩ := m.handler.invokeData_spec
    ((m.stream.buffer.take p).take (stop - m.stream.position))
  have hln : ((m.stream.buffer.take p).take (stop - m.stream.position)).length =
      min (stop - m.stream.position) (min p m.stream.buffer.length) := by
    rw [length_take, length_take]
  have ht : ((m.stream.buffer.take p).take (stop - m.stream.position)).take n =
      m.stream.buffer.take n := by
    rw [take_take, take_take]
    congr 1
    omega
  have hb : m.stream.position + n ≤ stop := by omega
  have ho : Ordered (m.stream.position + n) m.stream.edits m.stream.known := by
    cases he : m.stream.edits with
    | nil =>
      rw [he] at hst
      exact hb.trans hst
    | cons e es =>
      rw [he] at hst
      exact ⟨hb.trans hst.1, hst.2⟩
  have hsp : Splices d h'.received (m.advance n h').stream := by
    rw [hco.received_eq, ht]
    exact h.emit ho
  have hlf : ∃ left, m.readFromBuffer p (stop - m.stream.position) =
      (left, m.advance n h') ∧ (n = 0 → 0 < left) ∧
      left + n = min (stop - m.stream.position) (min p m.stream.buffer.length) := by
    simp only [readFromBuffer, hc]
    by_cases hn0 : n = 0
    · subst hn0
      exact ⟨_, rfl, by omega, by omega⟩
    · rw [if_neg hn0]
      exact ⟨_, rfl, by omega, by omega⟩
  obtain ⟨left, hr, hz, hsu⟩ := hlf
  refine ⟨left, n, h', hr, hsp, by omega, fun hl => ⟨?_, by omega, hb⟩⟩
  cases hdb : h'.destroyed with
  | false => rfl
  | true =>
    have := hz (hde hd hdb)
    omega

private theorem readFromBufferLoop_spec (p : Nat → Nat) {stop : Nat} (fuel : Nat) :
    ∀ {m : Replacing}, Splices d m.handler.received m.stream → m.handler.destroyed = false →
      stop - m.stream.position ≤ fuel → m.stream.position ≤ stop →
      Ordered stop m.stream.edits m.stream.known →
      ∃ b n h', readFromBufferLoop p stop fuel m = some (b, m.advance n h') ∧
        Splices d h'.received (m.advance n h').stream ∧
        (b = false → m.stream.position + n < stop) ∧
        (b = true → h'.destroyed = false ∧ m.stream.position + n = stop) := by
  induction fuel with
  | zero =>
    intro m h hd hfu hle _
    have hg : ¬ m.stream.position < stop := by omega
    refine ⟨true, 0, m.handler, ?_, h, fun hf => (nomatch hf), fun _ => ⟨hd, by omega⟩⟩
    rw [readFromBufferLoop, if_neg hg, advance_zero]
  | succ fuel ih =>
    intro m h hd hfu hle hst
    rw [readFromBufferLoop]
    by_cases hlt : m.stream.position < stop
    · obtain ⟨left, n, h1, hr, hsp, hb, hgo⟩ :=
        readFromBuffer_spec h hd (Nat.succ_pos (p m.stream.position)) hlt hst
      rw [if_pos hlt]
      simp only [hr]
      by_cases hl : 0 < left
      · rw [if_pos hl]
        exact ⟨false, n, h1, rfl, hsp, fun _ => hb hl, nofun⟩
      rw [if_neg hl]
      obtain ⟨hd1, hpo, hl1⟩ := hgo (by omega)
      obtain ⟨b, n', h', hr', hs', hfa, ht⟩ :=
        ih (m := m.advance n h1) hsp hd1 (by simp only [advance]; omega) hl1 hst
      rw [advance_advance] at hr' hs'
      simp only [advance, Nat.add_assoc] at hfa ht
      exact ⟨b, n + n', h', hr', hs', hfa, ht⟩
    · rw [if_neg hlt]
      exact ⟨true, 0, m.handler, rfl, h, fun hf => (nomatch hf), fun _ => ⟨hd, by omega⟩⟩

private theorem Inv.tryReadFromBuffer (p : Nat → Nat) (h : Inv d m)
    (hd : m.handler.destroyed = false) (he : m.ended = false) :
    ∃ b m', tryReadFromBuffer p m = some (b, m') ∧ Inv d m' ∧
      m'.stream.substitutions = m.stream.substitutions ∧
      (b = true → m'.handler.destroyed = false ∧ m'.ended = false ∧
        (m'.stream.substitutions = [] → m'.stream.position = m'.stream.known) ∧
        ∀ s rest, m'.stream.substitutions = s :: rest → m'.Active s rest) := by
  unfold Replacing.tryReadFromBuffer
  rcases getBufferEndOffsetUntil_spec h.splices.ordered h.splices.known_le with
    ⟨hen, hs, -, hp⟩ | ⟨stop, hen, hle, ho, hla, hf⟩
  · refine ⟨true, m, by rw [hen], h, rfl, fun _ => ⟨hd, he, fun _ => hp, fun s rest hs' => ?_⟩⟩
    rw [hs] at hs'
    cases hs'
  · rw [hen]
    obtain ⟨b, n, h', hr, hsp, hfa, ht⟩ :=
      readFromBufferLoop_spec p _ h.splices hd (le_rfl) hle ho
    have hfi : (m.advance n h').stream.hasInput = false →
        (m.advance n h').stream.finished = true := h.finished
    simp only [hr]
    cases b with
    | false =>
      refine ⟨false, _, rfl, ⟨hsp, ?_, hfi⟩, rfl, nofun⟩
      -- not all of the buffer was read
      have hlt := hfa rfl
      have hb := ho.le.trans h.splices.known_le
      have hne : (m.advance n h').stream.isEof ≠ true := by
        intro ht
        have hpo : m.stream.position + n = m.stream.sourceLength := (isEof_iff.mp ht).2.2.2
        omega
      exact he.trans (Bool.eq_false_iff.mpr hne).symm
    | true =>
      obtain ⟨hd', hpo⟩ := ht rfl
      simp only
      by_cases hdo : (m.advance n h').stream.position = (m.advance n h').stream.sourceLength ∧
          (m.advance n h').stream.substitutions = [] ∧ (m.advance n h').stream.hasInput = false
      · rw [if_pos hdo]
        refine ⟨false, _, rfl, ⟨hsp, ?_, hfi⟩, rfl, nofun⟩
        exact (isEof_iff.mpr ⟨hdo.2.2, hfi hdo.2.2, hdo.2.1, hdo.1⟩).symm
      · rw [if_neg hdo]
        refine ⟨true, _, rfl, ⟨hsp, ?_, hfi⟩, rfl, fun _ => ⟨hd', he,
          fun hs => hpo.trans (hla hs), fun s rest hs => ⟨hs, hpo.trans (hf s rest hs)⟩⟩⟩
        have hne : (m.advance n h').stream.isEof ≠ true := by
          intro ht
          obtain ⟨hi, -, hs, hp⟩ := isEof_iff.mp ht
          exact hdo ⟨hp, hs, hi⟩
        exact he.trans (Bool.eq_false_iff.mpr hne).symm

private theorem Inv.tryReadLoop (e : Nat → List SubstitutionEvent) (p : Nat → Nat)
    (fuel : Nat) :
    ∀ {m : Replacing}, Inv d m → m.handler.destroyed = false → m.ended = false →
      (m.stream.substitutions.length < fuel ∨
        m.stream.substitutions.length ≤ fuel ∧ ∃ s rest, m.Active s rest) →
      ∃ b m', tryReadLoop e p fuel m = some (b, m') ∧ Inv d m' := by
  induction fuel with
  | zero =>
    intro m _ _ _ hfu
    rcases hfu with hlt | ⟨hle, s, rest, ha⟩
    · omega
    · rw [ha.eq, length_cons] at hle
      omega
  | succ fuel ih =>
    intro m h hd he hfu
    obtain ⟨b, m1, hr, h1, hb⟩ := h.readSubstitution e _ hd he (Nat.lt_succ_self _)
    simp only [Replacing.tryReadLoop, hr]
    cases b with
    | false => exact ⟨false, m1, rfl, h1⟩
    | true =>
      obtain ⟨hd1, he1, hna, hlt⟩ := hb rfl
      have hl : m1.stream.substitutions.length ≤ fuel := by
        rcases hlt with rfl | hlt
        · rcases hfu with hlt | ⟨-, s, rest, ha⟩
          · omega
          · exact absurd ha (hna s rest)
        · omega
      obtain ⟨b, m2, hr2, h2, hs2, hb2⟩ := h1.tryReadFromBuffer p hd1 he1
      simp only [hr2]
      cases b with
      | false => exact ⟨false, m2, rfl, h2⟩
      | true =>
        obtain ⟨hd2, he2, -, hac⟩ := hb2 rfl
        simp only
        cases hs : m2.stream.substitutions with
        | nil => exact ⟨true, m2, rfl, h2⟩
        | cons s rest =>
          simp only
          by_cases hst : s.start ≤ m2.stream.sourceLength
          · rw [if_pos hst]
            exact ih h2 hd2 he2 (.inr ⟨hs2 ▸ hl, s, rest, hac s rest hs⟩)
          · rw [if_neg hst]
            exact ⟨true, m2, rfl, h2⟩

theorem Inv.tryRead (events : Nat → List SubstitutionEvent) (pieces : Nat → Nat) (h : Inv d m)
    (hd : m.handler.destroyed = false) (he : m.ended = false) :
    ∃ b m', tryRead events pieces m = some (b, m') ∧ Inv d m' :=
  h.tryReadLoop events pieces _ hd he (.inl (Nat.lt_succ_self _))

private theorem substitutionRead_of_empty (ha : m.Active s rest) (hc : s.content = [])
    (hd : m.handler.destroyed = false) {e : List SubstitutionEvent}
    (he : eof ∈ e) :
    m.substitutionRead e = (false, m.substitutionEof 0) := by
  induction e with
  | nil => cases he
  | cons event e ih =>
    cases event with
    | eof => simp only [substitutionRead, ha.eq, if_pos hc]
    | data size =>
      have hsa : m.substitutionData 0 size = m := by
        simp [substitutionData, ha.eq, hc]
      simp only [substitutionRead, hsa, hd, Bool.false_eq_true]
      rcases mem_cons.mp he with hx | hx
      · cases hx
      · exact ih hx

private theorem Inv.active_of_remaining (h : Inv d m) (he : m.ended = false)
    (hi : m.stream.hasInput = false) (hre : m.stream.remaining d = []) :
    ∃ s rest, m.Active s rest ∧ s.content = [] := by
  have hfi := h.finished hi
  have hl := h.splices.length_eq
  have ho := h.splices.ordered
  have hkn := h.splices.known_le
  rw [remaining] at hre
  cases hs : m.stream.substitutions with
  | nil =>
    rw [edits, hs, map_nil, known, if_pos hfi, render, hl, slice_length, drop_eq_nil_iff] at hre
    have hpo := h.splices.position_le
    have heo : m.stream.isEof = true := isEof_iff.mpr ⟨hi, hfi, hs, by omega⟩
    rw [h.ended_eq, heo] at he
    cases he
  | cons s rest =>
    rw [edits, hs, map_cons] at hre ho
    obtain ⟨hle, hl', ho'⟩ := ho
    have hl'' := ho'.le
    rw [render, append_eq_nil_iff, append_eq_nil_iff] at hre
    have hsl := congrArg List.length hre.1.1
    rw [length_slice (by omega), length_nil] at hsl
    exact ⟨s, rest, ⟨hs, by omega⟩, hre.1.2⟩

private theorem Inv.readSubstitution_ends {e : Nat → List SubstitutionEvent}
    (hev : ∀ k, eof ∈ e k) (fuel : Nat) :
    ∀ {m : Replacing}, Inv d m → m.handler.destroyed = false → m.ended = false →
      m.stream.hasInput = false → m.stream.remaining d = [] →
      m.stream.substitutions.length < fuel →
      ∃ m', Replacing.readSubstitution e fuel m = some (false, m') ∧ m'.ended = true := by
  induction fuel with
  | zero =>
    intro m _ _ _ _ _ hf
    omega
  | succ fuel ih =>
    intro m h hd he hi hre hf
    obtain ⟨s, rest, ha, hc⟩ := h.active_of_remaining he hi hre
    rw [ha.eq, length_cons] at hf
    -- what is left to emit does not change with the end of the substitution
    have loop : ∀ m1 : Replacing, Inv d m1 → m1.handler = m.handler → m1.ended = false →
        m1.stream.substitutions = rest → m1.stream.hasInput = false →
        ∃ m', Replacing.readSubstitution e fuel m1 = some (false, m') ∧ m'.ended = true := by
      intro m1 h1 hh1 he1 hs1 hi1
      apply ih h1 (hh1 ▸ hd) he1 hi1 _ (by rw [hs1]; omega)
      have ho := h.splices.output_finished (h.finished hi)
      rw [← h1.splices.output_finished (h1.finished hi1), hre, hh1] at ho
      exact (append_cancel_left ho).symm
    by_cases hde : s.defined = true
    · simp only [Replacing.readSubstitution, ha.eq, if_pos ha.position_eq, if_pos hde,
        substitutionRead_of_empty ha hc hd (hev rest.length)]
      have h1 := h.substitutionEof 0 (by rw [ha.eq]; rfl) hc
      obtain ⟨hs1, hh1, hi1, -, -⟩ := substitutionEof_active ha
      rw [hh1, hd, Bool.false_or, Bool.or_false]
      by_cases he1 : (m.substitutionEof 0).ended = true
      · rw [if_pos he1]
        exact ⟨_, rfl, he1⟩
      · rw [if_neg he1]
        exact loop _ h1 hh1 (Bool.eq_false_iff.mpr he1) hs1 (hi1.trans hi)
    simp only [Replacing.readSubstitution, ha.eq, if_pos ha.position_eq, if_neg hde]
    have hsp := h.splices.next ha.eq ha.position_eq hc
    have hr : m.stream.toNextSubstitution.substitutions = rest ∧
        m.stream.toNextSubstitution.hasInput = m.stream.hasInput ∧
        m.stream.toNextSubstitution.finished = m.stream.finished := by
      rw [toNextSubstitution, ha.eq]
      exact ⟨rfl, rfl, rfl⟩
    by_cases heo : m.stream.toNextSubstitution.isEof = true
    · rw [if_pos heo]
      exact ⟨_, rfl, rfl⟩
    rw [if_neg heo]
    refine loop _ ⟨hsp, he.trans (Bool.eq_false_iff.mpr heo).symm, ?_⟩ rfl he hr.1
      (hr.2.1.trans hi)
    rw [hr.2.1, hr.2.2]
    exact h.finished

/-- When everything was emitted, `TryRead` calls `DestroyEof`. -/
theorem Inv.tryRead_ends {events : Nat → List SubstitutionEvent}
    (hev : ∀ k, eof ∈ events k) (pieces : Nat → Nat) (h : Inv d m)
    (hd : m.handler.destroyed = false) (he : m.ended = false) (hi : m.stream.hasInput = false)
    (hre : m.stream.remaining d = []) :
    ∃ m', Replacing.tryRead events pieces m = some (false, m') ∧ m'.ended = true := by
  obtain ⟨m', hr, he'⟩ := h.readSubstitution_ends hev _ hd he hi hre (Nat.lt_succ_self _)
  exact ⟨m', by simp only [Replacing.tryRead, Replacing.tryReadLoop, hr], he'⟩

/-- The handler accepts everything that can be presented to it. -/
structure Flows (n : Nat) (m : Replacing) : Prop where
  alive : m.handler.destroyed = false
  accepts : ∀ k, ∃ a, m.handler.accept k = some a ∧ n ≤ a
  source_le : m.stream.sourceLength ≤ n
  content_le : ∀ s ∈ m.stream.substitutions, s.content.length ≤ n

private theorem Flows.invokeData (h : Flows n m) {src : List UInt8} (hsr : src.length ≤ n) :
    ∃ h', m.handler.invokeData src = (src.length, h') ∧ h'.destroyed = false ∧
      h'.accept = m.handler.accept := by
  obtain ⟨a, ha, hle⟩ := h.accepts m.handler.calls
  simp only [Handler.invokeData, ha, min_eq_right (hsr.trans hle)]
  exact ⟨_, rfl, h.alive, rfl⟩

private theorem Flows.substitutionRead (h : Flows n m) (ha : m.Active s rest) :
    ∃ m', m.substitutionRead [.data n, .eof] = (false, m') ∧ Flows n m' ∧
      m'.stream.known = m.stream.known := by
  have hle : s.content.length ≤ n := h.content_le s (by rw [ha.eq]; exact mem_cons_self)
  -- all of the content is accepted
  have hda : ∃ m1, m.substitutionData 0 n = m1 ∧ Flows n m1 ∧
      m1.stream.known = m.stream.known ∧ ∃ s', m1.Active s' rest ∧ s'.content = [] := by
    simp only [substitutionData, ha.eq, take_of_length_le hle]
    by_cases hsr : m.stream.position = s.start ∧ s.content ≠ []
    · obtain ⟨h', hc, hd, hac⟩ := h.invokeData hle
      rw [if_pos hsr, hc]
      refine ⟨_, rfl, ⟨hd, ?_, h.source_le, ?_⟩, rfl, _, ⟨rfl, ha.position_eq⟩, ?_⟩
      · simp only [hac]
        exact h.accepts
      · intro t ht
        rcases mem_cons.mp ht with rfl | ht
        · simp
        · exact h.content_le t (by rw [ha.eq]; exact mem_cons_of_mem _ ht)
      · exact drop_length
    · rw [if_neg hsr]
      refine ⟨_, rfl, h, rfl, s, ha, ?_⟩
      rw [not_and_not_right] at hsr
      exact hsr ha.position_eq
  obtain ⟨m1, hm1, h1, hk1, s', ha', hc'⟩ := hda
  simp only [Replacing.substitutionRead, hm1, h1.alive, ha'.eq, if_pos hc']
  obtain ⟨hs, hh, -, hl, hk⟩ := substitutionEof_active ha'
  refine ⟨_, rfl, ⟨hh ▸ h1.alive, hh ▸ h1.accepts, hl ▸ h1.source_le, ?_⟩, hk.trans hk1⟩
  intro t ht
  rw [hs] at ht
  exact h1.content_le t (by rw [ha'.eq]; exact mem_cons_of_mem _ ht)

private theorem Flows.readSubstitution (fuel : Nat) :
    ∀ {m : Replacing} {b : Bool} {m' : Replacing}, Flows n m →
      readSubstitution (fun _ => [.data n, .eof]) fuel m = some (b, m') →
      Flows n m' ∧ m'.stream.known = m.stream.known ∧ (b = false → m'.ended = true) := by
  induction fuel with
  | zero =>
    intro m b m' _ hr
    cases hr
  | succ fuel ih =>
    intro m b m' h hr
    simp only [Replacing.readSubstitution] at hr
    cases hs : m.stream.substitutions with
    | nil =>
      simp only [hs] at hr
      cases hr
      exact ⟨h, rfl, nofun⟩
    | cons s rest =>
      simp only [hs] at hr
      by_cases hp : m.stream.position = s.start
      · rw [if_pos hp] at hr
        by_cases hd : s.defined = true
        · obtain ⟨m1, hm1, h1, hk1⟩ := h.substitutionRead ⟨hs, hp⟩
          simp only [if_pos hd, hm1, h1.alive, Bool.false_or, Bool.or_false] at hr
          by_cases he : m1.ended = true
          · rw [if_pos he] at hr
            cases hr
            exact ⟨h1, hk1, fun _ => he⟩
          · rw [if_neg he] at hr
            obtain ⟨h', hk', hen⟩ := ih h1 hr
            exact ⟨h', hk'.trans hk1, hen⟩
        rw [if_neg hd] at hr
        have h1 : Flows n { m with stream := m.stream.toNextSubstitution } := by
          refine ⟨h.alive, h.accepts, ?_, ?_⟩
          · simp only [toNextSubstitution, hs]
            exact h.source_le
          · simp only [toNextSubstitution, hs]
            intro t ht
            exact h.content_le t (by rw [hs]; exact mem_cons_of_mem _ ht)
        have hk1 : m.stream.toNextSubstitution.known = m.stream.known := by
          rw [toNextSubstitution, hs]
          rfl
        by_cases he : m.stream.toNextSubstitution.isEof = true
        · simp only [if_pos he] at hr
          cases hr
          exact ⟨⟨h1.alive, h1.accepts, h1.source_le, h1.content_le⟩, hk1, fun _ => rfl⟩
        · simp only [if_neg he] at hr
          obtain ⟨h', hk', hen⟩ := ih h1 hr
          exact ⟨h', hk'.trans hk1, hen⟩
      · rw [if_neg hp] at hr
        cases hr
        exact ⟨h, rfl, nofun⟩

private theorem Flows.readFromBuffer (h : Flows n m) (hb : m.stream.buffer.length ≤ n)
    (p ma : Nat) :
    ∃ m', m.readFromBuffer p ma = (0, m') ∧ Flows n m' ∧
      m'.stream.known = m.stream.known ∧ m'.stream.buffer.length ≤ n := by
  have hle : ((m.stream.buffer.take p).take ma).length ≤ n := by
    rw [length_take, length_take]
    omega
  obtain ⟨h', hc, hd, ha⟩ := h.invokeData hle
  simp only [Replacing.readFromBuffer, hc, Nat.sub_self]
  have hac : ∀ k, ∃ a, h'.accept k = some a ∧ n ≤ a := ha ▸ h.accepts
  split
  · next h0 =>
    rw [h0]
    exact ⟨_, rfl, ⟨hd, hac, h.source_le, h.content_le⟩, rfl, hb⟩
  · refine ⟨_, rfl, ⟨hd, hac, h.source_le, h.content_le⟩, rfl, ?_⟩
    exact le_trans (by rw [length_drop]; exact Nat.sub_le _ _) hb

private theorem Flows.readFromBufferLoop (p : Nat → Nat) {stop : Nat} (fuel : Nat) :
    ∀ {m : Replacing} {b : Bool} {m' : Replacing}, Flows n m → m.stream.buffer.length ≤ n →
      readFromBufferLoop p stop fuel m = some (b, m') →
      Flows n m' ∧ m'.stream.known = m.stream.known ∧ b = true := by
  induction fuel with
  | zero =>
    intro m b m' h _ hr
    rw [Replacing.readFromBufferLoop, ite_eq_iff] at hr
    rcases hr with ⟨-, hr⟩ | ⟨-, hr⟩
    · cases hr
    · cases hr
      exact ⟨h, rfl, rfl⟩
  | succ fuel ih =>
    intro m b m' h hbu hr
    rw [Replacing.readFromBufferLoop] at hr
    by_cases hlt : m.stream.position < stop
    · obtain ⟨m1, hm1, h1, hk1, hbuffer1⟩ := h.readFromBuffer hbu
        (p m.stream.position + 1) (stop - m.stream.position)
      simp only [if_pos hlt, hm1, lt_irrefl] at hr
      obtain ⟨h', hk', hb⟩ := ih h1 hbuffer1 hr
      exact ⟨h', hk'.trans hk1, hb⟩
    · rw [if_neg hlt] at hr
      cases hr
      exact ⟨h, rfl, rfl⟩

private theorem Flows.tryReadFromBuffer {p : Nat → Nat} {b : Bool} {m' : Replacing}
    (h : Flows n m) (hb : m.stream.buffer.length ≤ n)
    (hr : tryReadFromBuffer p m = some (b, m')) :
    Flows n m' ∧ m'.stream.known = m.stream.known ∧ (b = false → m'.ended = true) := by
  unfold Replacing.tryReadFromBuffer at hr
  split at hr
  · cases hr
    exact ⟨h, rfl, fun hf => Bool.noConfusion hf⟩
  split at hr
  · cases hr
  · next hlo =>
    cases (h.readFromBufferLoop p _ hb hlo).2.2
  · next hlo =>
    obtain ⟨h1, hk1, -⟩ := h.readFromBufferLoop p _ hb hlo
    split at hr
    · cases hr
      exact ⟨⟨h1.alive, h1.accepts, h1.source_le, h1.content_le⟩, hk1, fun _ => rfl⟩
    · cases hr
      exact ⟨h1, hk1, fun hf => Bool.noConfusion hf⟩

/-- If nobody blocks, everything that is known is emitted. -/
theorem Inv.tryReadLoop_complete {pieces : Nat → Nat} (fuel : Nat) :
    ∀ {m : Replacing} {b : Bool} {m' : Replacing}, Inv d m → m.ended = false → Flows n m →
      Replacing.tryReadLoop (fun _ => [.data n, .eof]) pieces fuel m = some (b, m') →
      m'.stream.known = m.stream.known ∧ m'.stream.remaining d = [] := by
  induction fuel with
  | zero =>
    intro m b m' _ _ _ hr
    cases hr
  | succ fuel ih =>
    intro m b m' h he hfl hr
    -- at the end, nothing is left
    have hd : ∀ {m1 : Replacing}, Inv d m1 → m1.ended = true → m1.stream.remaining d = [] := by
      intro m1 h1 he1
      rw [h1.ended_eq] at he1
      obtain ⟨-, hfi, hs, hp⟩ := isEof_iff.mp he1
      rw [remaining, edits, hs, known, if_pos hfi, hp]
      exact slice_self _ _
    obtain ⟨b1, m1, hr1, h1, hb1⟩ :=
      h.readSubstitution (fun _ => [.data n, .eof]) _ hfl.alive he (Nat.lt_succ_self _)
    obtain ⟨hf1, hk1, hen1⟩ := hfl.readSubstitution _ hr1
    simp only [Replacing.tryReadLoop, hr1] at hr
    cases b1 with
    | false =>
      cases hr
      exact ⟨hk1, hd h1 (hen1 rfl)⟩
    | true =>
      obtain ⟨hd1, he1, -, -⟩ := hb1 rfl
      obtain ⟨b2, m2, hr2, h2, -, hb2⟩ := h1.tryReadFromBuffer pieces hd1 he1
      have hb : m1.stream.buffer.length ≤ n := by
        have hle := hf1.source_le
        rw [h1.splices.buffer_eq, length_drop, ← h1.splices.length_eq]
        omega
      obtain ⟨hf2, hk2, hen2⟩ := hf1.tryReadFromBuffer hb hr2
      simp only [hr2] at hr
      cases b2 with
      | false =>
        cases hr
        exact ⟨hk2.trans hk1, hd h2 (hen2 rfl)⟩
      | true =>
        obtain ⟨-, he2, hkn, -⟩ := hb2 rfl
        cases hs : m2.stream.substitutions with
        | nil =>
          simp only [hs] at hr
          cases hr
          refine ⟨hk2.trans hk1, ?_⟩
          rw [remaining, edits, hs, hkn hs]
          exact slice_self _ _
        | cons s rest =>
          -- all edits are in the source
          have hst : s.start ≤ m2.stream.sourceLength := by
            have ho := h2.splices.ordered
            rw [edits, hs] at ho
            exact ho.2.1.trans (ho.2.2.le.trans h2.splices.known_le)
          simp only [hs, if_pos hst] at hr
          obtain ⟨hk, hre⟩ := ih h2 he2 hf2 hr
          exact ⟨hk.trans (hk2.trans hk1), hre⟩

end Replacing
end BengProxy.Istream
