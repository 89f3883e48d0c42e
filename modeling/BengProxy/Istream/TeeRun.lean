import BengProxy.Base.Run
import BengProxy.Istream.Tee
import Mathlib.Data.List.Nodup

/-!
# The outputs of the tee are in step

An output has received the consumed part of the input and `skip` more bytes. That is an invariant
of every run. Within `OnData()`, the outputs that have been fed are ahead of the others by at least
the current window, hence the assertion in `Consumed()`.
-/

namespace BengProxy.Istream.Tee

open Base TeeIstream List Bool

variable {o : Output} {pre post outputs : List Output} {s : TeeIstream} {source src : List UInt8}
  {c : Nat}

/-- The output has received `skip` more bytes than have been consumed. -/
def Output.Sync (source : List UInt8) (c : Nat) (o : Output) : Prop :=
  c + o.skip ≤ source.length ∧ o.received = source.take (c + o.skip)

/-- The invariant of a tee that has consumed `c` bytes. -/
structure Good (source : List UInt8) (c : Nat) (s : TeeIstream) : Prop where
  nodup : (s.outputs.map (·.id)).Nodup
  lt : ∀ o ∈ s.outputs, o.id < s.nextId
  sync : ∀ o ∈ s.outputs, o.Sync source c
  ended : ∀ o ∈ s.ended, o.received = source
  live : s.hasInput = true → s.destroyed = false

/-- The iterator `next_output` points between the two parts of the list. -/
def Split (s : TeeIstream) (pre post : List Output) : Prop :=
  s.outputs = pre ++ post ∧ s.nextOutput = post.head?.map (·.id)

private theorem after_append (h : ∀ x ∈ pre, x.id ≠ o.id) :
    after o.id (pre ++ o :: post) = post.head?.map (·.id) := by
  induction pre with
  | nil => exact if_pos rfl
  | cons x pre ih =>
    have hx := forall_mem_cons.mp h
    rw [cons_append, after, if_neg hx.1]
    exact ih hx.2

private theorem id_ne_of_nodup (h : ((pre ++ o :: post).map (·.id)).Nodup) :
    (∀ x ∈ pre, x.id ≠ o.id) ∧ ∀ x ∈ post, x.id ≠ o.id := by
  rw [map_append, map_cons, nodup_append] at h
  obtain ⟨-, hpo, hd⟩ := h
  constructor
  · intro x hx he
    exact hd x.id (mem_map_of_mem hx) o.id mem_cons_self he
  · intro x hx he
    apply (nodup_cons.mp hpo).1
    rw [← he]
    exact mem_map_of_mem hx

private theorem filter_eq_self_of_ne {id : Nat}
    (h : ∀ x ∈ outputs, x.id ≠ id) : outputs.filter (fun x => decide (x.id ≠ id)) = outputs := by
  rw [filter_eq_self]
  intro x hx
  exact decide_eq_true (h x hx)

private theorem Split.filter {s' : TeeIstream} {id : Nat}
    (h : Split s pre post) (hn : (s.outputs.map (·.id)).Nodup)
    (hou : s'.outputs = s.outputs.filter fun x => decide (x.id ≠ id))
    (hnx : s'.nextOutput = if s.nextOutput = some id then after id s.outputs else s.nextOutput) :
    Split s' (pre.filter fun x => decide (x.id ≠ id))
      (post.filter fun x => decide (x.id ≠ id)) := by
  obtain ⟨he, hpt⟩ := h
  refine ⟨by rw [hou, he, filter_append], ?_⟩
  rw [hnx, hpt, he]
  rw [he] at hn
  cases post with
  | nil => rfl
  | cons o post =>
    obtain ⟨hpr, hpo⟩ := id_ne_of_nodup hn
    by_cases ho : o.id = id
    · subst ho
      rw [head?_cons, Option.map_some, if_pos rfl, after_append hpr,
        filter_cons_of_neg (by simp), filter_eq_self_of_ne hpo]
    · rw [head?_cons, Option.map_some, if_neg (fun hx => ho (Option.some.inj hx)),
        filter_cons_of_pos (by simp [ho])]
      rfl

/-- Outputs have been removed, and nothing else has happened, unless the tee is gone. -/
structure Fewer (s s' : TeeIstream) : Prop where
  sublist : s'.outputs.Sublist s.outputs
  nextId_eq : s'.nextId = s.nextId
  ended_eq : s'.ended = s.ended
  live : s'.hasInput = true → s.hasInput = true ∧ s'.destroyed = s.destroyed

theorem Fewer.refl (s : TeeIstream) : Fewer s s :=
  ⟨List.Sublist.refl _, rfl, rfl, fun h => ⟨h, rfl⟩⟩

private theorem fewer_remove (s : TeeIstream) (id : Nat) : Fewer s (s.remove id) := by
  unfold remove
  split
  · exact .refl s
  next o hfi =>
    generalize (if o.weak = true then s.nStrong else s.nStrong - 1) = nStrong
    by_cases hi : s.hasInput = false
    · rw [if_pos hi]
      refine ⟨filter_sublist, rfl, rfl, fun h => ?_⟩
      exact absurd (h.symm.trans hi) (by decide)
    rw [if_neg hi]
    by_cases hst : 0 < nStrong
    · rw [if_pos hst]
      exact ⟨filter_sublist, rfl, rfl, fun h => ⟨h, rfl⟩⟩
    · rw [if_neg hst]
      exact ⟨nil_sublist _, rfl, rfl, nofun⟩

private theorem fewer_removeAll (s : TeeIstream) (ids : List Nat) : Fewer s (s.removeAll ids) := by
  induction ids generalizing s with
  | nil => exact .refl s
  | cons id ids ih =>
    have hst := fewer_remove s id
    have hr := ih (s.remove id)
    refine ⟨hr.sublist.trans hst.sublist, hr.nextId_eq.trans hst.nextId_eq,
      hr.ended_eq.trans hst.ended_eq, fun h => ?_⟩
    obtain ⟨hi, hd⟩ := hr.live h
    obtain ⟨hinput', hd'⟩ := hst.live hi
    exact ⟨hinput', hd.trans hd'⟩

private theorem Good.fewer {s' : TeeIstream} (h : Good source c s)
    (hs : Fewer s s') : Good source c s' where
  nodup := h.nodup.sublist (hs.sublist.map _)
  lt := by
    intro o ho
    rw [hs.nextId_eq]
    exact h.lt o (hs.sublist.subset ho)
  sync := fun o ho => h.sync o (hs.sublist.subset ho)
  ended := by
    rw [hs.ended_eq]
    exact h.ended
  live := by
    intro hi
    obtain ⟨hinput', hd⟩ := hs.live hi
    exact hd.trans (h.live hinput')

/-- What `Remove()` leaves behind while there is an input: either the tee is gone, or the iterator
still separates what is left of the two parts. -/
inductive Shrinks (s s' : TeeIstream) : Prop where
  | gone : s'.destroyed = true → s'.outputs = [] → Shrinks s s'
  | kept (p : Output → Bool) : s'.destroyed = s.destroyed → s'.hasInput = s.hasInput →
      s'.outputs = s.outputs.filter p →
      (∀ pre post, Split s pre post → Split s' (pre.filter p) (post.filter p)) → Shrinks s s'

private theorem Shrinks.refl (s : TeeIstream) : Shrinks s s :=
  .kept (fun _ => true) rfl rfl (filter_true _).symm fun pre post h => by
    rwa [filter_true, filter_true]

private theorem shrinks_remove (hn : (s.outputs.map (·.id)).Nodup)
    (hi : s.hasInput = true) (id : Nat) : Shrinks s (s.remove id) := by
  unfold remove
  split
  · exact .refl s
  next o hfi =>
    simp only [hi, true_eq_false]
    generalize (if o.weak = true then s.nStrong else s.nStrong - 1) = nStrong
    by_cases hst : 0 < nStrong
    · rw [if_pos hst]
      exact .kept _ rfl hi.symm rfl fun pre post h => h.filter hn rfl rfl
    · rw [if_neg hst]
      exact .gone rfl rfl

private theorem removeAll_of_nil (h : s.outputs = []) (ids : List Nat) :
    s.removeAll ids = s := by
  induction ids with
  | nil => rfl
  | cons id ids ih =>
    have hst : s.remove id = s := by
      unfold remove
      rw [h]
      rfl
    show (s.remove id).removeAll ids = s
    rw [hst, ih]

private theorem shrinks_removeAll (hn : (s.outputs.map (·.id)).Nodup)
    (hin : s.hasInput = true) (ids : List Nat) : Shrinks s (s.removeAll ids) := by
  induction ids generalizing s with
  | nil => exact .refl s
  | cons id ids ih =>
    have hn' : ((s.remove id).outputs.map (·.id)).Nodup :=
      hn.sublist ((fewer_remove s id).sublist.map _)
    show Shrinks s ((s.remove id).removeAll ids)
    cases shrinks_remove hn hin id with
    | gone hd hni =>
      rw [removeAll_of_nil hni]
      exact .gone hd hni
    | kept p hd hi ho hsp =>
      cases ih hn' (hi.trans hin) with
      | gone hd' hni' => exact .gone hd' hni'
      | kept q hd' hi' ho' hs' =>
        refine .kept (fun x => q x && p x) (hd'.trans hd) (hi'.trans hi) ?_ fun pre post h => ?_
        · rw [ho', ho, filter_filter]
        · have h' := hs' _ _ (hsp pre post h)
          rwa [filter_filter, filter_filter] at h'

private theorem Output.Sync.accept {nbytes : Nat}
    (h : o.Sync source c) (hsr : src <+: source.drop c) (hn : o.skip + nbytes ≤ src.length) :
    (o.accept (src.drop o.skip) nbytes).Sync source c := by
  have hl := hsr.length_le
  rw [length_drop] at hl
  have hw : (src.drop o.skip).take nbytes = (source.drop (c + o.skip)).take nbytes := by
    obtain ⟨rest, hr⟩ := hsr
    rw [← drop_drop, ← hr, drop_append_of_le_length (by omega),
      take_append_of_le_length (by rw [length_drop]; omega)]
  constructor
  · show c + (o.skip + nbytes) ≤ source.length
    have hle := h.1
    omega
  · show o.received ++ (src.drop o.skip).take nbytes = source.take (c + (o.skip + nbytes))
    rw [h.2, hw, ← Nat.add_assoc]
    exact take_add.symm

/-- The state of the loop in `OnData()`: the outputs before the iterator have received the whole
window. -/
structure Fed (source : List UInt8) (c : Nat) (s : TeeIstream) (src : List UInt8)
    (pre post : List Output) : Prop where
  good : Good source c s
  hasInput : s.hasInput = true
  window : src <+: source.drop c
  eq : s.outputs = pre ++ post
  ahead : ∀ o ∈ pre, src.length ≤ o.skip

private theorem eq_of_id_eq (h : (outputs.map (·.id)).Nodup) {x y : Output}
    (hx : x ∈ outputs) (hy : y ∈ outputs) (hid : x.id = y.id) : x = y :=
  inj_on_of_nodup_map h hx hy hid

theorem find?_of_mem (h : (outputs.map (·.id)).Nodup)
    (ho : o ∈ outputs) : outputs.find? (fun x => decide (x.id = o.id)) = some o := by
  cases hfi : outputs.find? (fun x => decide (x.id = o.id)) with
  | none =>
    have hno := find?_eq_none.mp hfi o ho
    exact absurd (decide_eq_true rfl) hno
  | some x =>
    have hid := find?_some hfi
    rw [eq_of_id_eq h (mem_of_find?_eq_some hfi) ho (of_decide_eq_true hid)]

/-- What a call of the handler does to the outputs. -/
def update (o : Output) (src : List UInt8) (nbytes : Nat) (x : Output) : Output :=
  if x.id = o.id then x.accept src nbytes else x

theorem id_update (o : Output) (src : List UInt8) (nbytes : Nat) (x : Output) :
    (update o src nbytes x).id = x.id := by
  unfold update
  split <;> rfl

private theorem update_of_mem (h : (outputs.map (·.id)).Nodup) {x : Output}
    (ho : o ∈ outputs) (hx : x ∈ outputs) (src : List UInt8) (n : Nat) :
    x = o ∧ update o src n x = o.accept src n ∨ x ≠ o ∧ update o src n x = x := by
  by_cases hid : x.id = o.id
  · have he := eq_of_id_eq h hx ho hid
    subst he
    exact .inl ⟨rfl, if_pos rfl⟩
  · exact .inr ⟨fun he => hid (by rw [he]), if_neg hid⟩

private theorem Good.update {n : Nat}
    (h : Good source c s) (ho : o ∈ s.outputs) (hsr : src <+: source.drop c)
    (hn : o.skip + n ≤ src.length) :
    Good source c { s with outputs := s.outputs.map (update o (src.drop o.skip) n) } where
  nodup := by
    rw [map_map, Function.comp_def]
    simp only [id_update]
    exact h.nodup
  lt := by
    intro x hx
    obtain ⟨y, hy, rfl⟩ := mem_map.mp hx
    rw [id_update]
    exact h.lt y hy
  sync := by
    intro x hx
    obtain ⟨y, hy, rfl⟩ := mem_map.mp hx
    rcases update_of_mem h.nodup ho hy (src.drop o.skip) n with ⟨-, he⟩ | ⟨-, he⟩
    · rw [he]
      exact (h.sync o ho).accept hsr hn
    · rw [he]
      exact h.sync y hy
  ended := h.ended
  live := h.live

private theorem Split.update (h : Split s pre post) (o : Output) (src : List UInt8) (n : Nat) :
    Split { s with outputs := s.outputs.map (update o src n) }
      (pre.map (Tee.update o src n)) (post.map (Tee.update o src n)) := by
  constructor
  · show s.outputs.map _ = _
    rw [h.1, map_append]
  · show s.nextOutput = _
    rw [h.2, head?_map, Option.map_map]
    congr 1
    funext x
    exact (id_update o src n x).symm

private theorem Fed.update {n : Nat} (hg : Good source c s) (hi : s.hasInput = true)
    (hw : src <+: source.drop c) (hsp : Split s pre post)
    (ho : o ∈ s.outputs) (hn : o.skip + n ≤ src.length)
    (hah : ∀ x ∈ pre, x ≠ o → src.length ≤ x.skip) :
    Fed source c { s with outputs := s.outputs.map (update o (src.drop o.skip) n) }
      (src.take (o.skip + n)) (pre.map (Tee.update o (src.drop o.skip) n))
      (post.map (Tee.update o (src.drop o.skip) n)) where
  good := hg.update ho hw hn
  hasInput := hi
  window := (List.take_prefix _ _).trans hw
  eq := (hsp.update o _ n).1
  ahead := by
    intro x hx
    rw [length_take]
    obtain ⟨y, hy, rfl⟩ := mem_map.mp hx
    have hme : y ∈ s.outputs := by
      rw [hsp.1]
      exact mem_append_left post hy
    rcases update_of_mem hg.nodup ho hme (src.drop o.skip) n with ⟨-, he⟩ | ⟨hne, he⟩
    · rw [he]
      exact min_le_left _ _
    · rw [he]
      exact le_trans (min_le_right _ _) (hah y hy hne)

private theorem feed_spec (h : Fed source c s src pre (o :: post)) (r : Response) :
    ∃ s' n, { s with nextOutput := after o.id s.outputs }.feed o src r = (s', n) ∧
      n ≤ src.length ∧ Good source c s' ∧
      (n ≠ 0 → ∃ pre' post', Split s' pre' post' ∧ post'.length ≤ post.length ∧
        Fed source c s' (src.take n) pre' post') := by
  have hi := id_ne_of_nodup (h.eq ▸ h.good.nodup)
  generalize hs0 : mk s.outputs (after o.id s.outputs) _ _ _ _ _ = s0
  have hou : s0.outputs = s.outputs := by rw [← hs0]
  have hin : s0.hasInput = true := by rw [← hs0]; exact h.hasInput
  have hg : Good source c s0 := by
    rw [← hs0]
    exact ⟨h.good.nodup, h.good.lt, h.good.sync, h.good.ended, h.good.live⟩
  have hsp : Split s0 (pre ++ [o]) post := by
    constructor
    · rw [hou, h.eq, append_assoc, singleton_append]
    · rw [← hs0]
      rw [h.eq, after_append hi.1]
  clear hs0
  unfold feed
  by_cases hsk : src.length ≤ o.skip
  · -- the output has seen the whole window before
    rw [if_pos hsk]
    refine ⟨s0, _, rfl, le_rfl, hg, fun _ => ⟨pre ++ [o], post, hsp, le_rfl, ?_⟩⟩
    rw [take_length]
    refine ⟨hg, hin, h.window, hsp.1, fun x hx => ?_⟩
    rcases mem_append.mp hx with hx | hx
    · exact h.ahead x hx
    · rw [mem_singleton.mp hx]
      exact hsk
  rw [if_neg hsk]
  have hsh := shrinks_removeAll hg.nodup hin r.closes
  have hg' := hg.fewer (fewer_removeAll s0 r.closes)
  generalize s0.removeAll r.closes = s1 at hsh hg'
  cases hsh with
  | gone hde _ =>
    rw [if_pos hde]
    exact ⟨s1, 0, rfl, Nat.zero_le _, hg', fun hn => absurd rfl hn⟩
  | kept p _ hinput' ho' hs' =>
    have hd : s1.destroyed = false := hg'.live (hinput'.trans hin)
    have hpa := hs' _ _ hsp
    have hs : (post.filter p).length ≤ post.length := length_filter_le p post
    -- an output that has been fed before is ahead of this window
    have hah : ∀ x ∈ (pre ++ [o]).filter p, x ≠ o → src.length ≤ x.skip := by
      intro x hx hne
      rcases mem_append.mp (mem_of_mem_filter hx) with hx | hx
      · exact h.ahead x hx
      · exact absurd (mem_singleton.mp hx) hne
    rw [if_neg (by rw [hd]; exact false_ne_true)]
    by_cases hc : s1.outputs.all (fun x => decide (x.id ≠ o.id)) = true
    · -- the output has been closed by the handler
      rw [if_pos hc]
      refine ⟨s1, _, rfl, ?_, hg', fun _ => ⟨_, _, hpa, hs, ?_⟩⟩
      · rw [length_drop]
        exact Nat.sub_le _ _
      · refine ⟨hg', hinput'.trans hin, (List.take_prefix _ _).trans h.window, hpa.1,
          fun x hx => ?_⟩
        have hme : x ∈ s1.outputs := by
          rw [hpa.1]
          exact mem_append_left _ hx
        have hne : x ≠ o := fun he => of_decide_eq_true (all_eq_true.mp hc x hme) (by rw [he])
        rw [length_take]
        exact le_trans (min_le_right _ _) (hah x hx hne)
    rw [if_neg hc]
    have ho : o ∈ s1.outputs := by
      rw [not_eq_true, all_eq_false] at hc
      obtain ⟨x, hx, hid⟩ := hc
      have hme : x ∈ s.outputs := by
        rw [← hou]
        exact mem_of_mem_filter (ho' ▸ hx)
      have hm' : o ∈ s.outputs := by
        rw [h.eq]
        exact mem_append_right pre mem_cons_self
      have hid' : x.id = o.id := by
        by_contra hne
        exact hid (decide_eq_true hne)
      rwa [← eq_of_id_eq h.good.nodup hme hm' hid']
    have hn : o.skip + min r.accepts (src.drop o.skip).length ≤ src.length := by
      rw [length_drop]
      omega
    have hfe := Fed.update hg' (hinput'.trans hin) h.window hpa ho hn hah
    refine ⟨_, _, rfl, hn, hfe.good, fun _ => ⟨_, _, hpa.update o _ _, ?_, hfe⟩⟩
    rw [length_map]
    exact hs

/-- What `Consumed()` does to an output that is ahead of the window. -/
def Output.drop (n : Nat) (o : Output) : Output := { o with skip := o.skip - n }

private theorem mapM_consumed {n : Nat} (h : ∀ o ∈ outputs, n ≤ o.skip) :
    outputs.mapM (·.consumed n) = some (outputs.map (Output.drop n)) := by
  induction outputs with
  | nil => rfl
  | cons o outputs ih =>
    have ho := forall_mem_cons.mp h
    rw [mapM_cons, ih ho.2, Output.consumed, if_pos ho.1]
    rfl

private theorem Good.drop {n : Nat} (h : Good source c s) (hn : ∀ o ∈ s.outputs, n ≤ o.skip) :
    Good source (c + n) { s with outputs := s.outputs.map (Output.drop n) } where
  nodup := by
    rw [map_map]
    exact h.nodup
  lt := by
    intro x hx
    obtain ⟨o, ho, rfl⟩ := mem_map.mp hx
    exact h.lt o ho
  sync := by
    intro x hx
    obtain ⟨o, ho, rfl⟩ := mem_map.mp hx
    have he : c + n + (o.skip - n) = c + o.skip := by
      have hle := hn o ho
      omega
    show c + n + (o.skip - n) ≤ source.length ∧ o.received = source.take (c + n + (o.skip - n))
    rw [he]
    exact h.sync o ho
  ended := h.ended
  live := h.live

private theorem onDataLoop_spec (r : Nat → Response) (fuel : Nat) :
    ∀ {s src pre post}, post.length < fuel → Fed source c s src pre post →
      ∃ s' n, onDataLoop r fuel s src (post.head?.map (·.id)) = some (s', n) ∧
        n ≤ src.length ∧ Good source (c + n) s' := by
  induction fuel with
  | zero =>
    intro s src pre post hfu
    exact absurd hfu (Nat.not_lt_zero _)
  | succ fuel ih =>
    intro s src pre post hfu h
    cases post with
    | nil =>
      have hah : ∀ o ∈ s.outputs, src.length ≤ o.skip := by
        rw [h.eq, append_nil]
        exact h.ahead
      refine ⟨_, src.length, ?_, le_rfl, h.good.drop hah⟩
      simp only [head?_nil, Option.map_none, onDataLoop, mapM_consumed hah]
      rfl
    | cons o post =>
      have ho : o ∈ s.outputs := by
        rw [h.eq]
        exact mem_append_right pre mem_cons_self
      obtain ⟨s', n, hfe, hn, hg, hx⟩ := feed_spec h (r o.id)
      simp only [head?_cons, Option.map_some, onDataLoop,
        find?_of_mem h.good.nodup ho, Option.bind_eq_bind, Option.bind_some, hfe]
      by_cases hz : n = 0
      · rw [if_pos hz]
        exact ⟨s', 0, rfl, Nat.zero_le _, hg⟩
      rw [if_neg hz]
      obtain ⟨pre', post', hsp, hsh, hf⟩ := hx hz
      rw [hsp.2]
      rw [length_cons] at hfu
      obtain ⟨s'', n', hlo, hn', hg'⟩ := ih (by omega) hf
      refine ⟨s'', n', hlo, le_trans hn' ?_, hg'⟩
      rw [length_take]
      exact min_le_right _ _

private theorem onData_spec (h : Good source c s)
    (hi : s.hasInput = true) (hsr : src <+: source.drop c) (r : Nat → Response) :
    ∃ s' n, s.onData src r = some (s', n) ∧ n ≤ src.length ∧ Good source (c + n) s' :=
  onDataLoop_spec r _ (Nat.lt_succ_self _)
    ⟨h, hi, hsr, (nil_append _).symm, forall_mem_nil _⟩

private theorem feed_full {r : Response} (hd : s.destroyed = false)
    (ho : o ∈ s.outputs) (hc : r.closes = []) (ha : src.length ≤ r.accepts) :
    (s.feed o src r).2 = src.length ∧ (s.feed o src r).1.destroyed = false := by
  have hfo : ¬ s.outputs.all (fun x => decide (x.id ≠ o.id)) = true := fun hx =>
    of_decide_eq_true (all_eq_true.mp hx o ho) rfl
  unfold feed
  by_cases hsk : src.length ≤ o.skip
  · rw [if_pos hsk]
    exact ⟨rfl, hd⟩
  · have hno : s.removeAll [] = s := rfl
    rw [if_neg hsk, hc, hno]
    simp only [hd, Bool.false_eq_true, if_false, if_neg hfo, length_drop]
    exact ⟨by omega, trivial⟩

private theorem onDataLoop_full {r : Nat → Response}
    (hr : ∀ id, (r id).closes = [] ∧ src.length ≤ (r id).accepts) {s' : TeeIstream} {n : Nat} :
    ∀ {fuel : Nat} {s : TeeIstream} {next : Option Nat}, s.destroyed = false →
      onDataLoop r fuel s src next = some (s', n) → n = src.length
  | 0, _, _, _, h => nomatch h
  | _ + 1, s, none, _, h => by
    obtain ⟨_, -, he⟩ := Option.bind_eq_some_iff.mp h
    cases he
    rfl
  | fuel + 1, s, some id, hd, h => by
    obtain ⟨o, ho, h⟩ := Option.bind_eq_some_iff.mp h
    obtain ⟨hn, hd'⟩ := @feed_full o { s with nextOutput := after id s.outputs } src (r id) hd
      (mem_of_find?_eq_some ho) (hr id).1 (hr id).2
    simp only [hn, take_length] at h
    split at h
    next hz =>
      cases h
      exact hz.symm
    next => exact onDataLoop_full hr hd' h

private theorem length_remove_lt (ho : o ∈ s.outputs) :
    (s.remove o.id).outputs.length < s.outputs.length := by
  have hfi : (s.outputs.filter fun x => decide (x.id ≠ o.id)).length < s.outputs.length :=
    length_filter_lt_length_iff_exists.mpr ⟨o, ho, by simp⟩
  unfold remove
  split
  next hf => exact absurd (decide_eq_true rfl) (find?_eq_none.mp hf o ho)
  next x hf =>
    simp only
    split
    · exact hfi
    generalize (if x.weak = true then s.nStrong else s.nStrong - 1) = nStrong
    by_cases hst : 0 < nStrong
    · rw [if_pos hst]
      exact hfi
    · rw [if_neg hst]
      exact length_pos_of_mem ho

private theorem Output.Sync.eq_source (h : o.Sync source source.length) : o.received = source := by
  rw [h.2]
  exact take_of_length_le (Nat.le_add_right _ _)

private theorem onEofLoop_spec (r : Nat → Response) (fuel : Nat) :
    ∀ {s}, s.outputs.length ≤ fuel → s.hasInput = false → Good source source.length s →
      Good source source.length (onEofLoop r fuel s) ∧ (onEofLoop r fuel s).outputs = [] := by
  induction fuel with
  | zero =>
    intro s hfu _ h
    exact ⟨h, length_eq_zero_iff.mp (Nat.le_zero.mp hfu)⟩
  | succ fuel ih =>
    intro s hfu hi h
    unfold onEofLoop
    cases hla : s.outputs.getLast? with
    | none => exact ⟨h, getLast?_eq_none_iff.mp hla⟩
    | some o =>
      have ho : o ∈ s.outputs := mem_of_getLast? hla
      have hre := h.fewer (fewer_remove s o.id)
      have hinput' : (s.remove o.id).hasInput = false := by
        rw [← not_eq_true]
        intro hx
        exact absurd (((fewer_remove s o.id).live hx).1.symm.trans hi) (by decide)
      simp only
      generalize hs' : mk (s.remove o.id).outputs _ _ _ _ _ (s.ended ++ [o]) = s'
      have hg : Good source source.length s' := by
        rw [← hs']
        refine ⟨hre.nodup, hre.lt, hre.sync, fun x hx => ?_, hre.live⟩
        rcases mem_append.mp hx with hx | hx
        · exact h.ended x hx
        · rw [mem_singleton.mp hx]
          exact (h.sync o ho).eq_source
      have hfe := fewer_removeAll s' (r o.id).closes
      apply ih
      · have hlt : s'.outputs.length < s.outputs.length := by
          rw [← hs']
          exact length_remove_lt ho
        have hle := hfe.sublist.length_le
        omega
      · rw [← not_eq_true]
        intro hx
        have hx' : (s.remove o.id).hasInput = true := by
          have := (hfe.live hx).1
          rwa [← hs'] at this
        exact absurd (hx'.symm.trans hinput') (by decide)
      · exact hg.fewer hfe

private theorem Good.createOutput (h : Good source 0 s)
    (weak : Bool) : Good source 0 (s.createOutput weak) where
  nodup := by
    show ((s.outputs ++ [_]).map _).Nodup
    rw [map_append, nodup_append]
    refine ⟨h.nodup, nodup_singleton _, fun x hx y hy he => ?_⟩
    obtain ⟨o, ho, rfl⟩ := mem_map.mp hx
    have hlt := h.lt o ho
    rw [he, mem_singleton.mp hy] at hlt
    exact lt_irrefl _ hlt
  lt := by
    intro o ho
    rcases mem_append.mp ho with ho | ho
    · exact Nat.lt_succ_of_lt (h.lt o ho)
    · rw [mem_singleton.mp ho]
      exact Nat.lt_succ_self _
  sync := by
    intro o ho
    rcases mem_append.mp ho with ho | ho
    · exact h.sync o ho
    · rw [mem_singleton.mp ho]
      exact ⟨Nat.zero_le _, rfl⟩
  ended := h.ended
  live := h.live

private theorem good_nil (h : s.outputs = []) (he : ∀ o ∈ s.ended, o.received = source)
    (hli : s.hasInput = true → s.destroyed = false) : Good source c s := by
  refine ⟨?_, ?_, ?_, he, hli⟩ <;> rw [h] <;> simp

private theorem Good.step {s s' : State} {e : Event}
    (h : Good source s.consumed s.tee) (hst : Step source s e s') :
    Good source s'.consumed s'.tee := by
  cases hst with
  | add _ hz =>
    rw [hz] at h
    rw [hz]
    exact h.createOutput _
  | @data src r tee n hi hsr hd =>
    obtain ⟨tee', n', hd', -, hg⟩ := onData_spec h hi hsr r
    rw [hd] at hd'
    cases hd'
    exact hg
  | @close id _ => exact h.fewer (fewer_remove s.tee id)
  | @eof r _ he =>
    rw [he] at h
    rw [he]
    have h' : Good source source.length { s.tee with hasInput := false } :=
      ⟨h.nodup, h.lt, h.sync, h.ended, nofun⟩
    exact (onEofLoop_spec r _ (le_rfl) rfl h').1
  | error _ => exact good_nil rfl h.ended nofun

theorem good_initial (source : List UInt8) (weak : Bool) :
    Good source (initial weak).consumed (initial weak).tee :=
  (good_nil rfl (forall_mem_nil _) fun _ => rfl).createOutput weak

/-- After every run: an open output has received the input up to `skip` bytes beyond what has been
consumed; an output that has got the end has received all of the input; and the next `OnData()`
returns, without a failing assertion, and consumes everything if all outputs accept it. -/
theorem tee_outputs_in_step (source : List UInt8) (weak : Bool) {events : List Event} {s : State}
    (h : Run (Step source) (initial weak) events s) :
    (∀ o ∈ s.tee.outputs, s.consumed + o.skip ≤ source.length ∧
      o.received = source.take (s.consumed + o.skip)) ∧
    (∀ o ∈ s.tee.ended, o.received = source) ∧
    (∀ src r, s.tee.hasInput = true → src <+: source.drop s.consumed →
      ∃ tee n, s.tee.onData src r = some (tee, n) ∧ n ≤ src.length ∧
        ((∀ id, (r id).closes = [] ∧ src.length ≤ (r id).accepts) → n = src.length)) := by
  have hg : Good source s.consumed s.tee :=
    h.invariant (P := fun s => Good source s.consumed s.tee) (good_initial source weak)
      fun _ _ _ hs hst => hs.step hst
  refine ⟨hg.sync, hg.ended, fun src r hinput hsr => ?_⟩
  obtain ⟨tee, n, hd, hn, -⟩ := onData_spec hg hinput hsr r
  exact ⟨tee, n, hd, hn, fun hr => onDataLoop_full hr (hg.live hinput) hd⟩

/-- Two outputs, the second of which accepts less than the first one. -/
theorem tee_outputs_in_step_sample :
    let r : Nat → Response := fun id => { accepts := if id = 0 then 3 else 2 }
    let tee : TeeIstream :=
      { outputs := [{ id := 0, weak := false, skip := 1, received := [1, 2, 3] },
                    { id := 1, weak := true, received := [1, 2] }]
        nStrong := 1, nextId := 2 }
    Run (Step [1, 2, 3]) (initial false) [.add true, .data [1, 2, 3] r] { tee, consumed := 2 } ∧
      ∀ o ∈ tee.outputs, o.received = [1, 2, 3].take (2 + o.skip) := by
  intro r tee
  have hd : ((initial false).tee.createOutput true).onData [1, 2, 3] r = some (tee, 2) := by
    decide
  have had : Step [1, 2, 3] (initial false) (.add true)
      { tee := (initial false).tee.createOutput true, consumed := 0 } := .add rfl rfl
  have hst : Step [1, 2, 3] { tee := (initial false).tee.createOutput true, consumed := 0 }
      (.data [1, 2, 3] r) { tee, consumed := 0 + 2 } := .data rfl (prefix_refl _) hd
  have hru : Run (Step [1, 2, 3]) (initial false) [.add true, .data [1, 2, 3] r]
      { tee, consumed := 2 } := (Run.nil.snoc had).snoc hst
  exact ⟨hru, fun o ho => ((tee_outputs_in_step [1, 2, 3] false hru).1 o ho).2⟩

end BengProxy.Istream.Tee
