import BengProxy.Base.Run
import BengProxy.Istream.Concat
import Mathlib.Algebra.GroupWithZero.Nat
import Mathlib.Data.List.Nodup

/-!
# Runs of the concatenation

In every run, what the handler has received, followed by what the inputs still have, is the
concatenation of the inputs. What the handler still sees of a bucket list is what the first inputs
have listed, so it can be consumed. The end is reported once, when no input is left.
-/

namespace BengProxy.Istream.Concat

open Base IstreamBucketList List CatIstream Input

variable {inputs : List Input} {reply : Nat → Option FillReply}

/-- The bytes that the inputs still have. -/
def rests (inputs : List Input) : List UInt8 := (inputs.map rest).flatten

/-- The bytes that the inputs have listed: an input that has listed everything is followed by the
next one. -/
def listing : List Input → List UInt8
  | [] => []
  | i :: inputs => i.rest.take i.shown ++ if i.complete then listing inputs else []

/-- An input has listed bytes that it has. If these are all, then it is not empty. -/
structure Input.Wf (i : Input) : Prop where
  shown_le : i.shown ≤ i.rest.length
  complete : i.complete = true → i.shown = i.rest.length ∧ 0 < i.shown

@[simp] theorem rests_nil : rests [] = [] := rfl

@[simp] theorem rests_cons (i : Input) (inputs : List Input) :
    rests (i :: inputs) = i.rest ++ rests inputs := rfl

private theorem listing_isPrefix (hw : ∀ i ∈ inputs, i.Wf) :
    listing inputs <+: rests inputs := by
  induction inputs with
  | nil => exact prefix_refl _
  | cons i inputs ih =>
    obtain ⟨hi, hw⟩ := forall_mem_cons.mp hw
    rw [listing]
    split
    next hc =>
      rw [(hi.complete hc).1, take_length]
      exact (prefix_append_right_inj i.rest).mpr (ih hw)
    · rw [append_nil]
      exact (List.take_prefix _ _).trans (prefix_append _ _)

private theorem rests_filter {id : Nat} (h : ∀ i ∈ inputs, i.id = id → i.rest = []) :
    rests (inputs.filter (·.id ≠ id)) = rests inputs := by
  induction inputs with
  | nil => rfl
  | cons i inputs ih =>
    obtain ⟨hi, h⟩ := forall_mem_cons.mp h
    by_cases hid : i.id = id
    · rw [filter_cons_of_neg (by simp [hid]), rests_cons, hi hid, ih h]
      rfl
    · rw [filter_cons_of_pos (by simp [hid]), rests_cons, rests_cons, ih h]

private theorem listing_filter {id : Nat} (h : ∀ i ∈ inputs, i.id = id → i.rest = []) :
    listing inputs <+: listing (inputs.filter (·.id ≠ id)) := by
  induction inputs with
  | nil => exact prefix_refl _
  | cons i inputs ih =>
    obtain ⟨hi, h⟩ := forall_mem_cons.mp h
    by_cases hid : i.id = id
    · rw [filter_cons_of_neg (by simp [hid]), listing, hi hid, take_nil]
      split
      · exact ih h
      · exact nil_prefix
    rw [filter_cons_of_pos (by simp [hid]), listing]
    apply (prefix_append_right_inj _).mpr
    split
    · exact ih h
    · exact prefix_refl _

private theorem FillReply.Obeys.fill {r : FillReply} {rest : List UInt8} (h : r.Obeys rest)
    (l : IstreamBucketList) :
    ∃ kept, (r.fill l).list = l.list ++ kept ∧ kept.flatten <+: rest ∧ (∀ b ∈ kept, b ≠ []) ∧
      ((r.fill l).more = false → kept.flatten = rest) := by
  obtain ⟨kept, hli, hpr, hal⟩ := l.pushAll_spec r.buckets
  have hl' : (r.fill l).list = l.list ++ kept := by
    unfold FillReply.fill
    rw [← hli]
    split
    · rfl
    · split <;> rfl
  refine ⟨kept, hl', ?_, fun b hb => h.nonempty b (hpr.subset hb), fun hmo => ?_⟩
  · obtain ⟨more, hmo⟩ := hpr
    apply List.IsPrefix.trans _ h.isPrefix
    rw [← hmo, flatten_append]
    exact prefix_append _ _
  · unfold FillReply.fill at hmo
    split at hmo
    · cases hmo
    next hfa =>
      split at hmo
      · cases hmo
      next hm =>
        rw [(hal hmo).2]
        exact h.complete (Bool.not_eq_true _ ▸ hm) (Bool.not_eq_true _ ▸ hfa)

/-- What the inputs have listed in a bucket list. -/
structure Filled (inputs : List Input) (l : IstreamBucketList) (inputs' : List Input)
    (l' : IstreamBucketList) : Prop where
  rests_eq : rests inputs' = rests inputs
  ids : (inputs'.map Input.id).Sublist (inputs.map Input.id)
  wf : ∀ i ∈ inputs', i.Wf
  added : l'.list.flatten = l.list.flatten ++ listing inputs'
  complete : l'.more = false → ∀ i ∈ inputs', i.complete = true
  more : l'.more = true → inputs' ≠ []

private theorem wf_listed {i : Input} {l l' : IstreamBucketList} {kept : List (List UInt8)}
    (hli : l'.list = l.list ++ kept) (hpr : kept.flatten <+: i.rest)
    (hne : ∀ b ∈ kept, b ≠ []) (hal : l'.more = false → kept.flatten = i.rest)
    (hso : l'.more = true ∨ kept ≠ []) :
    (i.listed l l').Wf ∧ i.rest.take (i.listed l l').shown = kept.flatten := by
  have hsh : (i.listed l l').shown = kept.flatten.length := by
    show (l'.list.drop l.list.length).flatten.length = _
    rw [hli, drop_left]
  have hke : i.rest.take kept.flatten.length = kept.flatten := (prefix_iff_eq_take.mp hpr).symm
  refine ⟨⟨by rw [hsh]; exact hpr.length_le, fun hc => ?_⟩, by rw [hsh, hke]⟩
  have hm : l'.more = false := by
    have hc' : (!l'.more) = true := hc
    rwa [Bool.not_eq_true'] at hc'
  rw [hsh]
  refine ⟨by rw [hal hm]; rfl, ?_⟩
  cases kept with
  | nil =>
    rw [hm] at hso
    exact absurd rfl (hso.resolve_left Bool.false_ne_true)
  | cons b kept =>
    have hb := length_pos_iff.mpr (hne b mem_cons_self)
    rw [flatten_cons, length_append]
    omega

private theorem fillLoop_spec :
    ∀ {l : IstreamBucketList} {inputs' : List Input} {l' : IstreamBucketList},
      (∀ i ∈ inputs, i.Wf) → (∀ i ∈ inputs, ∀ r ∈ reply i.id, r.Obeys i.rest) → l.more = false →
      fillLoop reply inputs l = some (inputs', l') → Filled inputs l inputs' l' := by
  induction inputs with
  | nil =>
    intro l inputs' l' _ _ hl h
    cases h
    refine ⟨rfl, List.Sublist.refl _, fun i hi => absurd hi not_mem_nil,
      (append_nil _).symm, fun _ i hi => absurd hi not_mem_nil, fun hm => ?_⟩
    rw [hl] at hm
    cases hm
  | cons i inputs ih =>
    intro l inputs' l' hw ho hl h
    obtain ⟨hi, hw⟩ := forall_mem_cons.mp hw
    obtain ⟨hr, ho⟩ := forall_mem_cons.mp ho
    rw [fillLoop] at h
    split at h
    · cases h
    next r hre =>
      obtain ⟨kept, hli, hpr, hne, hal⟩ := (hr r hre).fill l
      simp only at h
      split at h
      next he =>
        -- the input has ended
        rw [emptySinceMark, mark, Bool.and_eq_true, Bool.not_eq_true', beq_iff_eq] at he
        have hn : kept = [] := by
          have hle := congrArg length hli
          rw [length_append] at hle
          apply length_eq_zero_iff.mp
          omega
        have hrs : i.rest = [] := by rw [← hal he.1, hn]; rfl
        have hf := ih hw ho he.1 h
        refine ⟨?_, hf.ids.cons _, hf.wf, ?_, hf.complete, hf.more⟩
        · rw [hf.rests_eq, rests_cons, hrs]
          rfl
        · rw [hf.added, hli, hn, append_nil]
      next he =>
        have hso : (r.fill l).more = true ∨ kept ≠ [] := by
          by_contra hno
          rw [not_or, Bool.not_eq_true, not_not] at hno
          apply he
          rw [emptySinceMark, mark, hno.1, hl, hli, hno.2]
          simp
        obtain ⟨hs, ht⟩ := wf_listed hli hpr hne hal hso
        split at h
        next hm =>
          cases h
          have hin : (i.listed l (r.fill l)).complete = false := by
            show (!(r.fill l).more) = false
            rw [hm]
            rfl
          refine ⟨rfl, List.Sublist.refl _, forall_mem_cons.mpr ⟨hs, hw⟩, ?_, ?_,
            fun _ => cons_ne_nil _ _⟩
          · rw [listing, if_neg (by rw [hin]; exact Bool.false_ne_true), append_nil]
            show _ = _ ++ i.rest.take _
            rw [ht, hli, flatten_append]
          · intro hno
            rw [hm] at hno
            cases hno
        next hm =>
          have hmore' : (r.fill l).more = false := Bool.not_eq_true _ ▸ hm
          have hc : (i.listed l (r.fill l)).complete = true := by
            show (!(r.fill l).more) = true
            rw [hmore']
            rfl
          obtain ⟨p, hlo, heq⟩ := Option.map_eq_some_iff.mp h
          cases heq
          have hf := ih hw ho hmore' hlo
          refine ⟨?_, hf.ids.cons_cons _, forall_mem_cons.mpr ⟨hs, hf.wf⟩, ?_, ?_,
            fun _ => cons_ne_nil _ _⟩
          · rw [rests_cons, hf.rests_eq]
            rfl
          · rw [hf.added, listing, if_pos hc, hli, flatten_append, append_assoc]
            show _ = _ ++ (i.rest.take _ ++ _)
            rw [ht]
          · intro hno
            exact forall_mem_cons.mpr ⟨hc, hf.complete hno⟩

/-- Inputs after a part of what they have listed was consumed. -/
structure Consumed (inputs : List Input) (nbytes : Nat) (inputs' : List Input) : Prop where
  rests_eq : rests inputs' = (rests inputs).drop nbytes
  listing_eq : listing inputs' = (listing inputs).drop nbytes
  ids : (inputs'.map Input.id).Sublist (inputs.map Input.id)
  wf : ∀ i ∈ inputs', i.Wf
  complete : (∀ i ∈ inputs, i.complete = true) → ∀ i ∈ inputs', i.complete = true

private theorem consumeLoop_spec :
    ∀ {nbytes : Nat}, (∀ i ∈ inputs, i.Wf) → nbytes ≤ (listing inputs).length →
      ∃ inputs', consumeLoop inputs nbytes = some (inputs', nbytes) ∧
        Consumed inputs nbytes inputs' := by
  induction inputs with
  | nil =>
    intro nbytes hw hle
    obtain rfl : nbytes = 0 := Nat.le_zero.mp hle
    exact ⟨[], rfl, rfl, rfl, List.Sublist.refl _, hw, id⟩
  | cons i inputs ih =>
    intro nbytes hw hle
    obtain ⟨hi, hw⟩ := forall_mem_cons.mp hw
    have ht : (i.rest.take i.shown).length = i.shown := by
      rw [length_take]
      exact min_eq_left hi.shown_le
    rw [listing, length_append] at hle
    unfold consumeLoop Input.consumeBucketList
    by_cases hlt : nbytes < i.shown
    · -- a part of what the first input has listed
      simp only [if_pos hlt, Nat.sub_self, Bool.false_eq_true, if_false]
      refine ⟨_, rfl, ?_, ?_, List.Sublist.refl _, forall_mem_cons.mpr ⟨⟨?_, ?_⟩, hw⟩, ?_⟩
      · rw [rests_cons, rests_cons, drop_append_of_le_length (by have := hi.shown_le; omega)]
      · rw [listing, listing, drop_append_of_le_length (by rw [ht]; omega), drop_take]
      · have hl' := hi.shown_le
        show i.shown - nbytes ≤ (i.rest.drop nbytes).length
        rw [length_drop]
        omega
      · intro hc
        obtain ⟨he, hpo⟩ := hi.complete hc
        rw [length_drop]
        simp only
        omega
      · intro hal
        obtain ⟨hc, hal⟩ := forall_mem_cons.mp hal
        exact forall_mem_cons.mpr ⟨hc, hal⟩
    simp only [if_neg hlt]
    have hd : ∀ {xs : List UInt8}, (i.rest.take i.shown ++ xs).drop nbytes =
        xs.drop (nbytes - i.shown) := by
      intro xs
      rw [drop_append, ht, drop_eq_nil_of_le (by rw [ht]; omega), nil_append]
    cases hc : i.complete with
    | true =>
      -- the first input has ended
      have hwh := (hi.complete hc).1
      have hre : (rests (i :: inputs)).drop nbytes = (rests inputs).drop (nbytes - i.shown) := by
        rw [rests_cons, ← hd, hwh, take_length]
      have hli : (listing (i :: inputs)).drop nbytes =
          (listing inputs).drop (nbytes - i.shown) := by
        rw [listing, if_pos hc, hd]
      rw [if_pos hc] at hle
      by_cases hz : nbytes - i.shown = 0
      · simp only [if_pos hz, if_true]
        have hn : i.shown = nbytes := by omega
        rw [hn]
        refine ⟨_, rfl, ?_, ?_, sublist_cons_self _ _, hw, fun hal => ?_⟩
        · rw [hre, hz, drop_zero]
        · rw [hli, hz, drop_zero]
        · exact (forall_mem_cons.mp hal).2
      obtain ⟨inputs', hlo, hco⟩ := @ih (nbytes - i.shown) hw (by omega)
      have hn : i.shown + (nbytes - i.shown) = nbytes := by omega
      simp only [if_neg hz, hlo, Option.map_some, hn]
      refine ⟨_, rfl, ?_, ?_, hco.ids.cons _, hco.wf, fun hal => ?_⟩
      · rw [hre, hco.rests_eq]
      · rw [hli, hco.listing_eq]
      · exact hco.complete (forall_mem_cons.mp hal).2
    | false =>
      -- nothing is listed behind the first input
      rw [if_neg (by rw [hc]; exact Bool.false_ne_true)] at hle
      have hn : nbytes = i.shown := by
        simp only [length_nil] at hle
        omega
      simp only [hn, Nat.sub_self, Bool.false_eq_true, if_false]
      refine ⟨_, rfl, ?_, ?_, List.Sublist.refl _, forall_mem_cons.mpr ⟨⟨?_, ?_⟩, hw⟩, ?_⟩
      · rw [rests_cons, rests_cons, drop_append_of_le_length hi.shown_le]
      · rw [listing, listing, if_neg Bool.false_ne_true,
          if_neg (by rw [hc]; exact Bool.false_ne_true), append_nil, append_nil,
          take_zero, drop_eq_nil_of_le (le_of_eq ht)]
      · exact Nat.zero_le _
      · intro hx
        cases hx
      · intro hal
        rw [(forall_mem_cons.mp hal).1] at hc
        cases hc

private theorem Consumed.eq_nil {inputs' : List Input} {n : Nat}
    (h : Consumed inputs n inputs') (hal : ∀ i ∈ inputs, i.complete = true)
    (hw : (listing inputs).length ≤ n) : inputs' = [] := by
  have hn := h.listing_eq
  rw [drop_eq_nil_of_le hw] at hn
  cases inputs' with
  | nil => rfl
  | cons i inputs' =>
    have hc := h.complete hal i mem_cons_self
    obtain ⟨he, hpo⟩ := (h.wf i mem_cons_self).complete hc
    have hle := congrArg length hn
    rw [listing, length_append, length_take, length_nil] at hle
    omega

/-- What holds in every run on inputs with these contents. -/
structure CatIstream.Inv (contents : List (List UInt8)) (s : CatIstream) : Prop where
  nodup : (s.inputs.map Input.id).Nodup
  wf : ∀ i ∈ s.inputs, i.Wf
  window : s.window <+: listing s.inputs
  isPrefix : s.received <+: contents.flatten
  delivered : s.destroyed = false ∨ s.reports ≠ [] → s.received ++ rests s.inputs = contents.flatten
  reports : s.reports.length ≤ 1
  ended : s.destroyed = true ∨ s.reports ≠ [] → s.inputs = []

namespace CatIstream.Inv

variable {contents : List (List UInt8)} {s : CatIstream}

theorem new (contents : List (List UInt8)) : (new contents).Inv contents where
  nodup := by
    show ((contents.zipIdx.map fun p => ({ id := p.2, rest := p.1 } : Input)).map
      Input.id).Nodup
    rw [map_map]
    have hs : (Input.id ∘ fun p : List UInt8 × Nat => ({ id := p.2, rest := p.1 } : Input)) =
        Prod.snd := rfl
    rw [hs, zipIdx_map_snd]
    exact nodup_range'
  wf i hi := by
    obtain ⟨p, -, rfl⟩ := mem_map.mp hi
    exact ⟨Nat.zero_le _, nofun⟩
  window := nil_prefix
  isPrefix := nil_prefix
  delivered _ := by
    show [] ++ ((contents.zipIdx.map fun p => ({ id := p.2, rest := p.1 } : Input)).map
      rest).flatten = contents.flatten
    rw [map_map]
    have hre : (rest ∘ fun p : List UInt8 × Nat => ({ id := p.2, rest := p.1 } : Input)) =
        Prod.fst := rfl
    rw [hre, zipIdx_map_fst]
    rfl
  reports := Nat.zero_le _
  ended h := by
    rcases h with h | h
    · cases h
    · exact absurd rfl h

private theorem congr {s' : CatIstream} (h : s.Inv contents) (hi : s'.inputs = s.inputs)
    (hw : s'.window = s.window) (hr : s'.received = s.received)
    (hd : s'.destroyed = s.destroyed) (hre : s'.reports = s.reports) :
    s'.Inv contents := by
  constructor
  · rw [hi]
    exact h.nodup
  · rw [hi]
    exact h.wf
  · rw [hi, hw]
    exact h.window
  · rw [hr]
    exact h.isPrefix
  · rw [hd, hre, hr, hi]
    exact h.delivered
  · rw [hre]
    exact h.reports
  · rw [hd, hre, hi]
    exact h.ended

section

variable (h : s.Inv contents)
include h

private theorem destroy : s.destroy.Inv contents where
  nodup := nodup_nil
  wf i hi := absurd hi not_mem_nil
  window := prefix_refl _
  isPrefix := h.isPrefix
  delivered hd := by
    have hre : s.reports ≠ [] := hd.resolve_left nofun
    have hde := h.delivered (.inr hre)
    rw [h.ended (.inr hre)] at hde
    exact hde
  reports := h.reports
  ended _ := rfl

private theorem destroyEof (hac : s.Active) (hni : s.inputs = []) : s.destroyEof.Inv contents where
  nodup := nodup_nil
  wf i hi := absurd hi not_mem_nil
  window := prefix_refl _
  isPrefix := h.isPrefix
  delivered _ := by
    have hd := h.delivered (.inl hac.1)
    rw [hni] at hd
    exact hd
  reports := by
    show (s.reports ++ [Report.onEof]).length ≤ 1
    rw [hac.2]
    exact le_refl 1
  ended _ := rfl

theorem read (hac : s.Active) : s.read.Inv contents := by
  unfold CatIstream.read
  split
  next hni => exact h.destroyEof hac hni
  · exact h.congr rfl rfl rfl rfl rfl

theorem readReturns : s.readReturns.Inv contents := by
  unfold CatIstream.readReturns
  split
  · exact h
  · exact h.congr rfl rfl rfl rfl rfl
  · split
    · exact h.congr rfl rfl rfl rfl rfl
    · split
      · exact h.congr rfl rfl rfl rfl rfl
      · split <;> exact h.congr rfl rfl rfl rfl rfl

private theorem withInputs (hac : s.Active)
    {window : List UInt8} (hi : (inputs.map Input.id).Sublist (s.inputs.map Input.id))
    (hwf : ∀ i ∈ inputs, i.Wf) (hw : window <+: listing inputs)
    (hre : rests inputs = rests s.inputs) : { s with inputs, window }.Inv contents where
  nodup := h.nodup.sublist hi
  wf := hwf
  window := hw
  isPrefix := h.isPrefix
  delivered hd := by
    rw [hre]
    exact h.delivered hd
  reports := h.reports
  ended hd := by
    rcases hd with hd | hd
    · rw [hac.1] at hd
      cases hd
    · exact absurd hac.2 hd

theorem fillBucketList (hle : s.Legal (.fill reply)) : (s.fillBucketList reply).1.Inv contents := by
  unfold CatIstream.fillBucketList
  split
  · exact h.destroy
  next inputs l hlo =>
    have hf := fillLoop_spec h.wf hle.2 rfl hlo
    apply h.withInputs hle.1 hf.ids hf.wf _ hf.rests_eq
    rw [hf.added]
    exact prefix_refl _

private theorem consumeBucketList {nbytes : Nat} (hl : s.Legal (.consume nbytes)) :
    ∃ s', s.consumeBucketList nbytes = some (s', ⟨nbytes, s'.inputs.isEmpty⟩) ∧ s'.Inv contents ∧
      Consumed s.inputs nbytes s'.inputs ∧ s'.destroyed = false ∧
      s'.window = s.window.drop nbytes ∧ (s'.inputs = [] ↔ s'.reports ≠ []) ∧
      s'.received = s.received ++ s.window.take nbytes := by
  obtain ⟨hac, hle⟩ := hl
  have hse := h.window.length_le
  obtain ⟨inputs, hlo, hc⟩ := @consumeLoop_spec s.inputs nbytes h.wf (by omega)
  have hb : s.window.take nbytes = (rests s.inputs).take nbytes := by
    obtain ⟨more, hm⟩ := h.window.trans (listing_isPrefix h.wf)
    rw [← hm, take_append_of_le_length hle]
  have hde : s.received ++ s.window.take nbytes ++ rests inputs = contents.flatten := by
    rw [hb, hc.rests_eq, append_assoc, take_append_drop]
    exact h.delivered (.inl hac.1)
  unfold CatIstream.consumeBucketList
  rw [hlo]
  have hre : inputs = [] ↔
      (if inputs.isEmpty then s.reports ++ [Report.consume] else s.reports) ≠ [] := by
    rw [hac.2]
    cases inputs with
    | nil => exact ⟨fun _ => cons_ne_nil _ _, fun _ => rfl⟩
    | cons i inputs => exact ⟨fun hni => (by cases hni), fun hno => absurd rfl hno⟩
  refine ⟨_, rfl, ⟨h.nodup.sublist hc.ids, hc.wf, ?_, ?_, fun _ => hde, ?_, ?_⟩, hc,
    hac.1, rfl, hre, rfl⟩
  · show s.window.drop nbytes <+: listing inputs
    rw [hc.listing_eq]
    exact h.window.drop nbytes
  · rw [← hde]
    exact prefix_append _ _
  · show (if inputs.isEmpty then s.reports ++ [.consume] else s.reports).length ≤ 1
    rw [hac.2]
    split
    · exact le_refl 1
    · exact Nat.zero_le 1
  · intro hd
    rcases hd with hd | hd
    · exact absurd (hac.1.symm.trans hd) Bool.false_ne_true
    · exact hre.mpr hd

omit h in
private theorem map_taken {i : Input} (n : Nat) (h : ((i :: inputs).map Input.id).Nodup) :
    (i :: inputs).map (fun j => if j.id = i.id then j.taken n else j) =
      i.taken n :: inputs := by
  rw [map_cons, if_pos rfl]
  congr 1
  conv_rhs => rw [← map_id inputs]
  apply map_congr_left
  intro j hj
  rw [if_neg]
  · rfl
  · intro he
    exact (nodup_cons.mp h).1 (he ▸ mem_map_of_mem hj)

private theorem inputData (hac : s.Active) {i : Input} (hi : i ∈ s.inputs)
    (size a : Nat) : (s.inputData i size a).Inv contents := by
  have hsa : ∀ inputs : List Input,
      inputs.map (fun j => if j.id = i.id then j.taken 0 else j) = inputs := by
    intro inputs
    conv_rhs => rw [← map_id inputs]
    apply map_congr_left
    intro j _
    split <;> rfl
  unfold CatIstream.inputData onInputData invokeData
  simp only
  split
  next hcu =>
    split
    · rw [hsa]
      exact h
    next hn =>
      -- the current input is the first one
      cases hin : s.inputs with
      | nil =>
        rw [hin] at hi
        exact absurd hi not_mem_nil
      | cons first inputs =>
        have hfi : first.id = i.id := by
          rw [isCurrent, hin] at hcu
          exact beq_iff_eq.mp hcu
        have hnd := h.nodup
        rw [hin] at hi hnd
        have he : first = i := by
          rcases mem_cons.mp hi with he | hme
          · exact he.symm
          · exact absurd (hfi ▸ mem_map_of_mem hme) (nodup_cons.mp hnd).1
        subst he
        rw [map_taken _ hnd]
        generalize hnb : min a (first.rest.take size).length = nbytes at hn
        have hb : (first.rest.take size).take nbytes = first.rest.take nbytes := by
          rw [take_take]
          congr 1
          rw [length_take] at hnb
          omega
        have hde : s.received ++ first.rest.take nbytes ++
            rests (first.taken nbytes :: inputs) = contents.flatten := by
          have ho := h.delivered (.inl hac.1)
          rw [hin] at ho
          have hr : (first.taken nbytes).rest = first.rest.drop nbytes := by
            rw [taken, if_neg hn]
          rw [rests_cons, hr, append_assoc, ← append_assoc (first.rest.take nbytes),
            take_append_drop]
          exact ho
        have ht : (first.taken nbytes).Wf := by
          rw [taken, if_neg hn]
          exact ⟨Nat.zero_le _, nofun⟩
        have hid : (first.taken nbytes).id = first.id := by
          rw [taken, if_neg hn]
        have hw := h.wf
        rw [hin] at hw
        refine ⟨?_, forall_mem_cons.mpr ⟨ht, (forall_mem_cons.mp hw).2⟩,
          nil_prefix, ?_, fun _ => ?_, h.reports, fun hd => ?_⟩
        · show ((first.taken nbytes :: inputs).map Input.id).Nodup
          rw [map_cons, hid]
          exact hnd
        · show s.received ++ (first.rest.take size).take nbytes <+: _
          rw [hb, ← hde]
          exact prefix_append _ _
        · show s.received ++ (first.rest.take size).take nbytes ++ _ = _
          rw [hb]
          exact hde
        · have hni := h.ended hd
          rw [hin] at hni
          cases hni
  · rw [hsa]
    exact h

private theorem unlink (hac : s.Active) {id : Nat}
    (hle : ∃ i ∈ s.inputs, i.id = id ∧ i.rest = []) : (s.unlink id).Inv contents := by
  obtain ⟨i, hi, rfl, hr⟩ := hle
  have he : ∀ j ∈ s.inputs, j.id = i.id → j.rest = [] := by
    intro j hj hid
    rw [inj_on_of_nodup_map h.nodup hj hi hid]
    exact hr
  apply h.withInputs hac (filter_sublist.map _)
  · exact fun j hj => h.wf j (mem_filter.mp hj).1
  · exact h.window.trans (listing_filter he)
  · exact rests_filter he

theorem onInputEof {id : Nat} (hle : s.Legal (.eof id)) : (s.onInputEof id).Inv contents := by
  obtain ⟨hac, hi⟩ := hle
  have hu := h.unlink hac hi
  unfold CatIstream.onInputEof
  simp only
  split
  next he => exact hu.destroyEof hac (isEmpty_iff.mp he)
  · split
    · exact hu.congr rfl rfl rfl rfl rfl
    · exact hu

theorem onInputError (id : Nat) : (s.onInputError id).Inv contents :=
  h.destroy.congr rfl rfl rfl rfl rfl

theorem onInputReady (id : Nat) : (s.onInputReady id).2.Inv contents := by
  unfold CatIstream.onInputReady
  split
  · exact h
  · exact h.congr rfl rfl rfl rfl rfl

private theorem step {e : Event} (hle : s.Legal e) :
    ∃ s', s.step e = some s' ∧ s'.Inv contents := by
  cases e with
  | read => exact ⟨_, rfl, h.read hle⟩
  | readReturns => exact ⟨_, rfl, h.readReturns⟩
  | fill reply => exact ⟨_, rfl, h.fillBucketList hle⟩
  | consume nbytes =>
    obtain ⟨s', hs, hi, -⟩ := h.consumeBucketList hle
    exact ⟨s', by rw [CatIstream.step, hs]; rfl, hi⟩
  | close => exact ⟨_, rfl, h.destroy⟩
  | data id size accepts =>
    rw [CatIstream.step]
    split
    · exact ⟨_, rfl, h⟩
    next i hfi => exact ⟨_, rfl, h.inputData hle.1 (mem_of_find?_eq_some hfi) size _⟩
  | eof id => exact ⟨_, rfl, h.onInputEof hle⟩
  | error id => exact ⟨_, rfl, h.onInputError id⟩
  | ready id => exact ⟨_, rfl, h.onInputReady id⟩

end

private theorem run {ev : List Event} (h : Run CatIstream.Step (.new contents) ev s) :
    s.Inv contents := by
  apply h.invariant (P := CatIstream.Inv contents) (Inv.new contents)
  intro s e s' hi hst
  obtain ⟨s'', he, hi'⟩ := hi.step hst.1
  rw [hst.2] at he
  cases he
  exact hi'

end CatIstream.Inv

namespace CatIstream

variable {contents : List (List UInt8)} {s s' : CatIstream}

theorem inputs_read (h : s.inputs ≠ []) : s.read.inputs = s.inputs := by
  unfold read
  split
  next hni => exact absurd hni h
  · rfl

theorem inputs_readReturns : s.readReturns.inputs = s.inputs := by
  unfold readReturns
  split
  · rfl
  · rfl
  · split
    · rfl
    · split
      · rfl
      · split <;> rfl

theorem inputs_inputData {i : Input} {size accepts : Nat} (h : s.inputs ≠ []) :
    (s.inputData i size accepts).inputs ≠ [] := by
  have hi : ∀ src, (s.onInputData i.id src accepts).2.inputs = s.inputs := by
    intro src
    unfold onInputData invokeData
    split
    · simp only
      split <;> rfl
    · rfl
  unfold inputData
  simp only [ne_eq, map_eq_nil_iff]
  rw [hi]
  exact h

/-- The handler learns from a bucket list that there is nothing left. -/
def TellsEnd (s : CatIstream) (reply : Nat → Option FillReply) : Prop :=
  ∃ l, (s.fillBucketList reply).2 = some l ∧ l.getTotalBufferSize = 0 ∧ l.more = false

private theorem Inv.last (h : s.Inv contents) {e : Event} (hst : s.Step e s') (hso : s.inputs ≠ [])
    (hn : s'.inputs = []) :
    e = .close ∨ (∃ id, e = .error id) ∨ s'.reports ≠ [] ∨
      ∃ reply, e = .fill reply ∧ ((s.fillBucketList reply).2 = none ∨ s.TellsEnd reply) := by
  obtain ⟨hle, hst⟩ := hst
  cases e with
  | read =>
    cases hst
    rw [inputs_read hso] at hn
    exact absurd hn hso
  | readReturns =>
    cases hst
    rw [inputs_readReturns] at hn
    exact absurd hn hso
  | fill reply =>
    cases hst
    refine .inr (.inr (.inr ⟨reply, rfl, ?_⟩))
    unfold TellsEnd
    unfold CatIstream.fillBucketList at hn ⊢
    split
    · exact .inl rfl
    next inputs l hlo =>
      right
      rw [hlo] at hn
      have hf := fillLoop_spec h.wf hle.2 rfl hlo
      have hni : inputs = [] := hn
      refine ⟨l, rfl, ?_, ?_⟩
      · rw [getTotalBufferSize, hf.added, hni]
        rfl
      · cases hm : l.more with
        | false => rfl
        | true => exact absurd hni (hf.more hm)
  | consume nbytes =>
    obtain ⟨s'', hs, -, -, -, -, hre, -⟩ := h.consumeBucketList hle
    rw [CatIstream.step, hs] at hst
    cases hst
    exact .inr (.inr (.inl (hre.mp hn)))
  | close => exact .inl rfl
  | data id size accepts =>
    rw [CatIstream.step] at hst
    split at hst
    · cases hst
      exact absurd hn hso
    · cases hst
      exact absurd hn (inputs_inputData hso)
  | eof id =>
    cases hst
    refine .inr (.inr (.inl ?_))
    unfold CatIstream.onInputEof at hn ⊢
    simp only at hn ⊢
    split
    · exact append_ne_nil_of_right_ne_nil _ (cons_ne_nil _ _)
    next hne =>
      rw [if_neg hne] at hn
      have hni : (s.unlink id).inputs = [] := by
        split at hn <;> exact hn
      exact absurd (isEmpty_iff.mpr hni) hne
  | error id => exact .inr (.inl ⟨id, rfl⟩)
  | ready id =>
    cases hst
    have hsa : (s.onInputReady id).2.inputs = s.inputs := by
      unfold CatIstream.onInputReady
      split <;> rfl
    rw [hsa] at hn
    exact absurd hn hso

/-- The handler sees everything that the inputs still have. -/
structure SeesAll (s : CatIstream) : Prop where
  active : s.Active
  complete : ∀ i ∈ s.inputs, i.complete = true
  window : s.window = listing s.inputs

private theorem SeesAll.consume (hal : s.SeesAll) (h : s.Inv contents) {n : Nat}
    (hle : n ≤ s.window.length) :
    ∃ s', s.consumeBucketList n = some (s', ⟨n, s'.inputs.isEmpty⟩) ∧ s'.Inv contents ∧
      s'.window = s.window.drop n ∧ (n < s.window.length → s'.SeesAll) ∧
      (n = s.window.length → s'.inputs = []) := by
  obtain ⟨s', hs, hi, hc, hd, hw, hre, -⟩ := h.consumeBucketList ⟨hal.active, hle⟩
  have hli : listing s'.inputs = s'.window := by
    rw [hc.listing_eq, hw, hal.window]
  refine ⟨s', hs, hi, hw, fun hlt => ?_, fun he => ?_⟩
  · refine ⟨⟨hd, ?_⟩, hc.complete hal.complete, hli.symm⟩
    by_contra hno
    have hl := congrArg length hw
    rw [← hli, hre.mpr hno, length_drop, listing, length_nil] at hl
    omega
  · apply hc.eq_nil hal.complete
    rw [he, hal.window]

private theorem Inv.seesAll (h : s.Inv contents)
    (hle : s.Legal (.fill reply)) {l : IstreamBucketList}
    (hfi : (s.fillBucketList reply).2 = some l) (hm : l.more = false) :
    (s.fillBucketList reply).1.SeesAll ∧
      (s.fillBucketList reply).1.window.length = l.getTotalBufferSize := by
  unfold CatIstream.fillBucketList at hfi ⊢
  split at hfi
  · cases hfi
  next inputs l' hlo =>
    cases hfi
    have hf := fillLoop_spec h.wf hle.2 rfl hlo
    exact ⟨⟨hle.1, hf.complete hm, hf.added⟩, rfl⟩

private theorem SeesAll.consumeEach {si : List Nat} {last : Nat} (hla : 0 < last ∨ si = []) :
    ∀ {s : CatIstream}, s.SeesAll → s.Inv contents → si.sum + last = s.window.length →
      ∃ s' s'', s.consumeEach si = some s' ∧
        s'.consumeBucketList last = some (s'', ⟨last, true⟩) := by
  induction si with
  | nil =>
    intro s hal h hsu
    rw [sum_nil, zero_add] at hsu
    obtain ⟨s', hs, -, -, -, he⟩ := hal.consume h (le_of_eq hsu)
    rw [he hsu] at hs
    exact ⟨s, s', rfl, hs⟩
  | cons nbytes si ih =>
    intro s hal h hsu
    have hpo : 0 < last := hla.resolve_right (cons_ne_nil _ _)
    rw [sum_cons] at hsu
    have hlt : nbytes < s.window.length := by omega
    obtain ⟨s', hs, hi, hw, hr, -⟩ := hal.consume h (le_of_lt hlt)
    have hs' : si.sum + last = s'.window.length := by
      rw [hw, length_drop]
      omega
    obtain ⟨s₁, s₂, h₁, h₂⟩ := ih (.inl hpo) (hr hlt) hi hs'
    refine ⟨s₁, s₂, ?_, h₂⟩
    rw [CatIstream.consumeEach, hs]
    exact h₁

private theorem received_inputData {i : Input} {size a : Nat} (hcu : s.isCurrent i.id = true)
    (hle : size ≤ i.rest.length) :
    (s.onInputData i.id (i.rest.take size) a).1 = min a size ∧
      (s.inputData i size a).received = s.received ++ i.rest.take (min a size) := by
  have hlen : (i.rest.take size).length = size := length_take_of_le hle
  have ht : (i.rest.take size).take (min a size) = i.rest.take (min a size) := by
    rw [take_take, min_eq_left (min_le_right a size)]
  rw [inputData, onInputData, if_pos hcu, invokeData, hlen]
  simp only
  split
  next hn => simp [hn]
  · exact ⟨rfl, congrArg (s.received ++ ·) ht⟩

private theorem Active.reports_end (hac : s.Active) (hni : s.inputs = []) :
    s.read.reports = [.onEof] ∧
      ∃ s', s.consumeBucketList 0 = some (s', ⟨0, true⟩) ∧ s'.reports = [.consume] := by
  constructor
  · unfold read
    rw [hni]
    show s.reports ++ [.onEof] = [.onEof]
    rw [hac.2]
    rfl
  · unfold consumeBucketList
    rw [hni]
    refine ⟨_, rfl, ?_⟩
    rw [hac.2]
    rfl

end CatIstream

/-- Two inputs that list everything. -/
def listAll (first second : List UInt8) : Nat → Option FillReply
  | 0 => some { buckets := [first], more := false }
  | _ => some { buckets := [second], more := false }

end BengProxy.Istream.Concat
