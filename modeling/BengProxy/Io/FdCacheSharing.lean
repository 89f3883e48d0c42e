import BengProxy.Base.Run
import BengProxy.Io.FdCache

/-!
# Requests that share a descriptor

Requests that are answered by one item have the same path and the same flags, which are the key of
the cache. How the path is resolved and which directory it is relative to are not in the key: two
requests that differ in that may share an item, and then one of them gets a descriptor that was
opened for the other one.
-/

namespace BengProxy.Io

open Base Text List FdCache Prod Option

variable {log : List (GetRequest × Nat)} {i : Item} {g : GetRequest}

/-- The requests that have used an item have its key, and what it has opened or is opening is what
one of them asked for. -/
structure ItemInv (log : List (GetRequest × Nat)) (i : Item) : Prop where
  created : ∃ g, (g, i.id) ∈ log
  key : ∀ g, (g, i.id) ∈ log → g.key = i.key
  opened : ∀ call, i.fd = some call ∨ i.uringOpen = some call →
    ∃ g, (g, i.id) ∈ log ∧ call = g.openCall
  requests : ∀ r ∈ i.requests, (r.get, i.id) ∈ log

/-- A descriptor that is given to a request was opened for one that has used the same item. -/
def CallbackOk (log : List (GetRequest × Nat)) : Callback → Prop
  | .success g fd => ∃ id g0, (g, id) ∈ log ∧ (g0, id) ∈ log ∧ fd = g0.openCall
  | .error _ _ => True

/-- The item is still the same one, and the callbacks are as they should be. -/
structure OutcomeOk (log : List (GetRequest × Nat)) (i : Item) (o : Outcome) : Prop where
  id_eq : o.item.id = i.id
  item : ItemInv log o.item
  callbacks : ∀ cb ∈ o.callbacks, CallbackOk log cb

private theorem OutcomeOk.of_id {j : Item} {o : Outcome} (h : OutcomeOk log j o)
    (hid : j.id = i.id) :
    OutcomeOk log i o :=
  ⟨h.id_eq.trans hid, h.item, h.callbacks⟩

namespace ItemInv

variable (h : ItemInv log i)
include h

private theorem congr {j : Item} (hid : j.id = i.id) (hke : j.key = i.key)
    (ho : ∀ call, j.fd = some call ∨ j.uringOpen = some call →
      i.fd = some call ∨ i.uringOpen = some call)
    (hre : ∀ r ∈ j.requests, r ∈ i.requests) : ItemInv log j where
  created := by
    rw [hid]
    exact h.created
  key := by
    rw [hid, hke]
    exact h.key
  opened := by
    rw [hid]
    exact fun call hc => h.opened call (ho call hc)
  requests := by
    rw [hid]
    exact fun r hr => h.requests r (hre r hr)

private theorem append {id : Nat} (hke : id = i.id → g.key = i.key) : ItemInv
    (log ++ [(g, id)]) i where
  created := h.created.imp fun _ hg => mem_append_left _ hg
  key := by
    intro g' hg'
    rcases mem_append.mp hg' with hg' | hg'
    · exact h.key g' hg'
    · have he : (g', i.id) = (g, id) := mem_singleton.mp hg'
      rw [(mk.inj he).1]
      exact hke (mk.inj he).2.symm
  opened := by
    intro call hc
    obtain ⟨g0, hg0, he⟩ := h.opened call hc
    exact ⟨g0, mem_append_left _ hg0, he⟩
  requests := fun r hr => mem_append_left _ (h.requests r hr)

private theorem invokeSuccess {fd : OpenCall} (hfd : i.fd = some fd) :
    OutcomeOk log i (i.invokeSuccess fd) where
  id_eq := rfl
  item := h.congr rfl rfl (fun _ hc => hc) (forall_mem_nil _)
  callbacks := by
    intro cb hcb
    obtain ⟨r, hr, rfl⟩ := mem_map.mp hcb
    obtain ⟨g0, hg0, he⟩ := h.opened fd (.inl hfd)
    exact ⟨i.id, g0, h.requests r hr, hg0, he⟩

private theorem setError (e : Nat) : OutcomeOk log i (i.setError e) where
  id_eq := rfl
  item := by
    refine h.congr rfl rfl ?_ ?_
    · rintro call (hfd | ho)
      · cases hfd
      · exact .inr ho
    · exact forall_mem_nil _
  callbacks := by
    intro cb hc
    obtain ⟨r, -, rfl⟩ := mem_map.mp hc
    exact trivial

private theorem statxDone {fd : OpenCall} (hfd : i.fd = some fd)
    (r : Except Nat UInt32) : OutcomeOk log i (i.statxDone fd r) := by
  cases r with
  | ok stxMask =>
    have hma : ItemInv log { i with stxMask } := h.congr rfl rfl (fun _ hc => hc) fun _ hr => hr
    exact (hma.invokeSuccess hfd).of_id rfl
  | error error => exact h.setError error

private theorem startStatx (u : Bool) {fd : OpenCall} (hfd : i.fd = some fd)
    (r : Except Nat UInt32) : OutcomeOk log i (i.startStatx u fd r) := by
  rw [Item.startStatx]
  split
  · exact ⟨rfl, h, forall_mem_nil _⟩
  · split
    · exact ⟨rfl, h.congr rfl rfl (fun _ hc => hc) fun _ hr => hr, forall_mem_nil _⟩
    · exact h.statxDone hfd r

private theorem openDone (u : Bool) {call : OpenCall}
    (hc : i.uringOpen = some call) (r : Except Nat Unit)
    (s : Except Nat UInt32) :
    OutcomeOk log i (i.openDone u call r s) := by
  have ho : ItemInv log { i with uringOpen := none, fd := some call } := by
    refine h.congr rfl rfl ?_ ?_
    · rintro call' (hfd | hop)
      · rw [← some.inj hfd]
        exact .inr hc
      · cases hop
    · exact fun _ hr => hr
  have hfa : ItemInv log { i with uringOpen := none } := by
    refine h.congr rfl rfl ?_ ?_
    · rintro call' (hfd | hop)
      · exact .inl hfd
      · cases hop
    · exact fun _ hr => hr
  cases r with
  | error error => exact (hfa.setError error).of_id rfl
  | ok _ =>
    simp only [Item.openDone]
    split
    · exact (ho.startStatx u rfl s).of_id rfl
    · exact (ho.invokeSuccess rfl).of_id rfl

private theorem addRequest {r : PendingRequest} (hr : (r.get, i.id) ∈ log) :
    ItemInv log (i.addRequest r) where
  created := h.created
  key := h.key
  opened := h.opened
  requests := by
    intro r' hr'
    rcases mem_append.mp hr' with hr' | hr'
    · exact h.requests r' hr'
    · rw [mem_singleton.mp hr']
      exact hr

private theorem get (u : Bool) (hg : (g, i.id) ∈ log) (id : Nat)
    (re : Except Nat UInt32) : OutcomeOk log i (i.get u g id re) := by
  rw [Item.get]
  split
  next fd hfd =>
    split
    · refine ⟨rfl, h.congr rfl rfl (fun _ hc => hc) fun _ hr => hr, fun cb hcb => ?_⟩
      obtain ⟨g0, hg0, he⟩ := h.opened fd (.inl hfd)
      rw [mem_singleton.mp hcb]
      exact ⟨i.id, g0, hg, hg0, he⟩
    split
    · refine ⟨rfl, h, fun cb hcb => ?_⟩
      rw [mem_singleton.mp hcb]
      exact trivial
    · exact ((h.addRequest (r := ⟨id, g⟩) hg).startStatx u hfd re).of_id rfl
  · split
    · refine ⟨rfl, h, fun cb hcb => ?_⟩
      rw [mem_singleton.mp hcb]
      exact trivial
    · exact ⟨rfl, h.addRequest (r := ⟨id, g⟩) hg, forall_mem_nil _⟩

private theorem start (u : Bool) (hg : (g, i.id) ∈ log)
    (r : Except Nat Unit) : OutcomeOk log i (i.start u g r) := by
  unfold Item.start
  split
  · refine ⟨rfl, ⟨h.created, h.key, ?_, h.requests⟩, forall_mem_nil _⟩
    rintro call (hfd | ho)
    · exact h.opened call (.inl hfd)
    · exact ⟨g, hg, (some.inj ho).symm⟩
  split
  · have hop : ItemInv log
        { i with nextStxMask := i.nextStxMask ||| g.stxMask, fd := some g.openCall } := by
      refine ⟨h.created, h.key, ?_, h.requests⟩
      rintro call (hfd | ho)
      · exact ⟨g, hg, (some.inj hfd).symm⟩
      · exact h.opened call (.inr ho)
    exact (hop.invokeSuccess rfl).of_id rfl
  next error =>
    have hma : ItemInv log { i with nextStxMask := i.nextStxMask ||| g.stxMask } :=
      h.congr rfl rfl (fun _ hc => hc) fun _ hr => hr
    exact (hma.setError error).of_id rfl

end ItemInv

namespace FdCache

variable {c : FdCache}

/-- All items are as they should be, the numbers of items are not reused, and the requests that
have used one item have the same key. -/
structure Inv (c : FdCache) : Prop where
  items : ∀ i ∈ c.items, ItemInv c.log i ∧ i.id < c.nextId
  log_lt : ∀ u ∈ c.log, u.2 < c.nextId
  same_key : ∀ g g' id, (g, id) ∈ c.log → (g', id) ∈ c.log → g.key = g'.key

private theorem inv_new (uring : Bool) : Inv { uring } where
  items _ h := absurd h not_mem_nil
  log_lt _ h := absurd h not_mem_nil
  same_key _ _ _ h := absurd h not_mem_nil

section

variable (h : c.Inv)
include h

private theorem Inv.of_items {c' : FdCache} (hlo : c'.log = c.log) (hn : c'.nextId = c.nextId)
    (he : ∀ i ∈ c'.items, i ∈ c.items ∨ ItemInv c.log i ∧ i.id < c.nextId) : c'.Inv where
  items := by
    rw [hlo, hn]
    intro i hi
    rcases he i hi with hi | hi
    · exact h.items i hi
    · exact hi
  log_lt := by
    rw [hlo, hn]
    exact h.log_lt
  same_key := by
    rw [hlo]
    exact h.same_key

omit h in
private theorem mem_items_update {j : Item} (hj : j ∈ (c.update i).items) :
    j ∈ c.items ∨ j = i := by
  rcases mem_append.mp hj with hj | hj
  · obtain ⟨j', hj', rfl⟩ := mem_map.mp hj
    split
    · exact .inr rfl
    · exact .inl (mem_append_left _ hj')
  · obtain ⟨j', hj', rfl⟩ := mem_map.mp hj
    split
    · exact .inr rfl
    · exact .inl (mem_append_right _ hj')

private theorem Inv.update (hi : ItemInv c.log i) (hlt : i.id < c.nextId) : (c.update i).Inv := by
  refine h.of_items rfl rfl fun j hj => ?_
  rcases mem_items_update hj with hj | rfl
  · exact .inl hj
  · exact .inr ⟨hi, hlt⟩

private theorem Inv.moveFront (hi : ItemInv c.log i) (hlt : i.id < c.nextId) (expires : Nat) :
    Inv { c with chronological := { i with expires } :: c.chronological.filter (·.id ≠ i.id) } := by
  refine h.of_items rfl rfl fun j hj => ?_
  rcases mem_append.mp hj with hj | hj
  · rcases mem_cons.mp hj with rfl | hj
    · right
      exact ⟨hi.congr rfl rfl (fun _ hc => hc) fun _ hr => hr, hlt⟩
    · exact .inl (mem_append_left _ (mem_of_mem_filter hj))
  · exact .inl (mem_append_right _ hj)

private theorem Inv.setExpiresSoon (hi : ItemInv c.log i) (hlt : i.id < c.nextId) :
    (c.setExpiresSoon i).Inv := by
  rw [FdCache.setExpiresSoon]
  split
  · exact h
  · simp only
    split
    · exact h
    · exact h.moveFront hi hlt _

private theorem Inv.reap (id : Nat) : (c.reap id).Inv := by
  refine h.of_items rfl rfl fun j hj => ?_
  left
  rcases mem_append.mp hj with hj | hj
  · exact mem_append_left _ hj
  · exact mem_append_right _ (mem_of_mem_filter hj)

private theorem Inv.settle {o : Outcome} (hi : ItemInv c.log o.item)
    (hlt : o.item.id < c.nextId) : (c.settle o).Inv ∧ (c.settle o).log = c.log := by
  have hso : ∀ c : FdCache, c.Inv → ItemInv c.log o.item → o.item.id < c.nextId →
      (if o.expiresSoon then c.setExpiresSoon o.item else c).Inv ∧
        (if o.expiresSoon then c.setExpiresSoon o.item else c).log = c.log := by
    intro c hc hi hlt
    split
    · refine ⟨hc.setExpiresSoon hi hlt, ?_⟩
      rw [FdCache.setExpiresSoon]
      split
      · rfl
      · simp only
        split
        · rfl
        · rfl
    · exact ⟨hc, rfl⟩
  have hu := hso (c.update o.item) (h.update hi hlt) hi hlt
  rw [FdCache.settle]
  split
  · exact ⟨hu.1.reap _, hu.2⟩
  · exact hu

private theorem Inv.retire {r : List Item}
    (hre : ∀ i ∈ r, ItemInv c.log i ∧ i.id < c.nextId) : (c.retire r).Inv := by
  refine h.of_items rfl rfl fun j hj => ?_
  rcases mem_append.mp hj with hj | hj
  · exact .inl (mem_append_left _ hj)
  rcases mem_append.mp hj with hj | hj
  · exact .inl (mem_append_right _ hj)
  · obtain ⟨j', hj', rfl⟩ := mem_map.mp hj
    have ho := hre j' (mem_of_mem_filter hj')
    exact .inr ⟨ho.1.congr rfl rfl (fun _ hc => hc) fun _ hr => hr, ho.2⟩

private theorem Inv.retire_sublist {kept r : List Item}
    (hke : ∀ i ∈ kept, i ∈ c.chronological) (hre : ∀ i ∈ r, i ∈ c.chronological) :
    ({ c with chronological := kept }.retire r).Inv := by
  have hin : Inv { c with chronological := kept } := by
    refine h.of_items rfl rfl fun j hj => ?_
    left
    rcases mem_append.mp hj with hj | hj
    · exact mem_append_left _ (hke j hj)
    · exact mem_append_right _ hj
  exact hin.retire fun i hi => h.items i (mem_append_left _ (hre i hi))

private theorem Inv.retireOne (hi : i ∈ c.chronological) : (c.retireOne i).Inv := by
  apply h.retire_sublist
  · exact fun j hj => mem_of_mem_filter hj
  · intro j hj
    rw [mem_singleton.mp hj]
    exact hi

private theorem Inv.append {id : Nat} (hlt : id < c.nextId)
    (ht : ∀ i ∈ c.items, id = i.id → g.key = i.key)
    (hlo : ∀ g', (g', id) ∈ c.log → g'.key = g.key) :
    Inv { c with log := c.log ++ [(g, id)] } where
  items := fun i hi => ⟨(h.items i hi).1.append (ht i hi), (h.items i hi).2⟩
  log_lt := by
    intro u hu
    rcases mem_append.mp hu with hu | hu
    · exact h.log_lt u hu
    · rw [mem_singleton.mp hu]
      exact hlt
  same_key := by
    intro g1 g2 id' h1 h2
    rcases mem_append.mp h1 with h1 | h1 <;> rcases mem_append.mp h2 with h2 | h2
    · exact h.same_key g1 g2 id' h1 h2
    · have he := Prod.mk.inj (mem_singleton.mp h2)
      rw [he.1]
      exact hlo g1 (he.2 ▸ h1)
    · have he := Prod.mk.inj (mem_singleton.mp h1)
      rw [he.1]
      exact (hlo g2 (he.2 ▸ h2)).symm
    · rw [(Prod.mk.inj (mem_singleton.mp h1)).1, (Prod.mk.inj (mem_singleton.mp h2)).1]

private theorem Inv.newItem (g : GetRequest) : ItemInv (c.insertNew g).log (c.newItem g) where
  created := ⟨g, mem_concat_self⟩
  key := by
    intro g' hg'
    rcases mem_append.mp hg' with hg' | hg'
    · exact absurd (h.log_lt _ hg') (Nat.lt_irrefl c.nextId)
    · rw [(Prod.mk.inj (mem_singleton.mp hg')).1]
      rfl
  opened := by
    rintro call (hfd | ho)
    · cases hfd
    · cases ho
  requests _ hr := absurd hr not_mem_nil

private theorem Inv.insertNew (g : GetRequest) : (c.insertNew g).Inv := by
  have hn : Inv { c with nextId := c.nextId + 1 } :=
    ⟨fun i hi => ⟨(h.items i hi).1, Nat.lt_succ_of_lt (h.items i hi).2⟩,
      fun u hu => Nat.lt_succ_of_lt (h.log_lt u hu), h.same_key⟩
  have hap : Inv { c with nextId := c.nextId + 1, log := c.log ++ [(g, c.nextId)] } := by
    apply hn.append (Nat.lt_succ_self c.nextId)
    · intro i hi hid
      exact absurd hid (Nat.ne_of_gt (h.items i hi).2)
    · exact fun g' hg' => absurd (h.log_lt _ hg') (Nat.lt_irrefl c.nextId)
  have hw : ItemInv (c.log ++ [(g, c.nextId)]) (c.newItem g) := h.newItem g
  refine hap.of_items rfl rfl fun j hj => ?_
  rw [FdCache.items, FdCache.insertNew] at hj
  have hme : j ∈ c.items ∨ j = c.newItem g := by
    rw [FdCache.items]
    cases hd : c.shuttingDown with
    | false =>
      simp only [hd, mem_append, Bool.false_eq_true, if_false, mem_singleton, not_mem_nil] at hj
      rw [mem_append]
      tauto
    | true =>
      simp only [hd, mem_append, if_true, mem_singleton, not_mem_nil] at hj
      rw [mem_append]
      tauto
  rcases hme with hj | rfl
  · exact .inl hj
  · exact .inr ⟨hw, Nat.lt_succ_self c.nextId⟩

end

/-- What a step does: the invariant is kept, the log grows, and the callbacks are as they should
be. -/
structure StepOk (c c' : FdCache) (callbacks : List Callback) : Prop where
  inv : c'.Inv
  log : ∀ u ∈ c.log, u ∈ c'.log
  callbacks : ∀ cb ∈ callbacks, CallbackOk c'.log cb

private theorem StepOk.silent {c' : FdCache} (h : c'.Inv) (hlo : c'.log = c.log) :
    StepOk c c' [] :=
  ⟨h, fun _ hu => hlo ▸ hu, forall_mem_nil _⟩

private theorem Inv.stepOk_settle (h : c.Inv) (hlt : i.id < c.nextId) {o : Outcome}
    (ho : OutcomeOk c.log i o) : StepOk c (c.settle o) o.callbacks := by
  have hse := h.settle ho.item (ho.id_eq ▸ hlt)
  exact ⟨hse.1, fun _ hu => hse.2 ▸ hu, fun cb hc => hse.2 ▸ ho.callbacks cb hc⟩

private theorem outcomeOk_startNew (h : ItemInv log i) (hg : (g, i.id) ∈ log) (r : Nat)
    (o : Except Nat Unit) (s : Except Nat UInt32) :
    OutcomeOk log i (c.startNew i g r o s) := by
  have hst := h.start c.uring hg o
  have hge := hst.item.get c.uring (hst.id_eq ▸ hg) r s
  refine ⟨hge.id_eq.trans hst.id_eq, hge.item, fun cb hc => ?_⟩
  rcases mem_append.mp hc with hc | hc
  · exact hst.callbacks cb hc
  · exact hge.callbacks cb hc

private theorem Inv.getNew (h : c.Inv) (g : GetRequest) (r : Nat)
    (o : Except Nat Unit)
    (s : Except Nat UInt32) :
    StepOk c (c.getNew g r o s).1
      (c.getNew g r o s).2 := by
  have hg : (g, c.nextId) ∈ (c.insertNew g).log := mem_concat_self
  have ho := (h.insertNew g).stepOk_settle (i := c.newItem g) (Nat.lt_succ_self c.nextId)
    (outcomeOk_startNew (c := c) (h.newItem g) hg r o s)
  exact ⟨ho.inv, fun u hu => ho.log u (mem_append_left _ hu), ho.callbacks⟩

private theorem Inv.getHit (h : c.Inv) (hi : i ∈ c.items) (hke : i.key = g.key) (r : Nat)
    (s : Except Nat UInt32) :
    StepOk c (c.getHit i g r s).1 (c.getHit i g r s).2 := by
  have ht := h.items i hi
  have hap : Inv { c with log := c.log ++ [(g, i.id)] } := by
    apply h.append ht.2
    · intro j hj he
      obtain ⟨g', hg'⟩ := ht.1.created
      rw [← hke, ← ht.1.key g' hg', (h.items j hj).1.key g' (he ▸ hg')]
    · intro g' hg'
      rw [ht.1.key g' hg', hke]
  have hin : ItemInv (c.log ++ [(g, i.id)]) i := ht.1.append fun _ => hke.symm
  have ho := hap.stepOk_settle ht.2 (hin.get c.uring
    mem_concat_self r s)
  exact ⟨ho.inv, fun u hu => ho.log u (mem_append_left _ hu), ho.callbacks⟩

private theorem Inv.get (h : c.Inv) (g : GetRequest) (r : Nat) (o : Except Nat Unit)
    (s : Except Nat UInt32) :
    StepOk c (c.get g r o s).1
      (c.get g r o s).2 := by
  rw [FdCache.get]
  split
  next i hfi =>
    have hme : i ∈ c.chronological := mem_of_find?_eq_some hfi
    have hke := find?_some (p := fun i : Item => decide (i.key = g.key)) hfi
    split
    · exact h.getHit (mem_append_left _ hme) (of_decide_eq_true hke) r s
    · -- the log is that of the cache without the item
      have ho := (h.retireOne hme).getNew g r o s
      exact ⟨ho.inv, ho.log, ho.callbacks⟩
  · exact h.getNew g r o s

private theorem Inv.cancel (h : c.Inv) (r : Nat) : (c.cancel r).Inv := by
  have hw : ∀ i ∈ c.items,
      ItemInv c.log { i with requests := i.requests.filter (·.id ≠ r) } ∧
        i.id < c.nextId := by
    intro i hi
    have he := h.items i hi
    exact ⟨he.1.congr rfl rfl (fun _ hc => hc) fun _ hr => mem_of_mem_filter hr, he.2⟩
  refine h.of_items rfl rfl fun j hj => ?_
  right
  rcases mem_append.mp hj with hj | hj
  · obtain ⟨i, hi, rfl⟩ := mem_map.mp hj
    exact hw i (mem_append_left _ hi)
  · obtain ⟨i, hi, rfl⟩ := mem_map.mp hj
    exact hw i (mem_append_right _ hi)

private theorem Inv.step (h : c.Inv) {e : Event} {c' : FdCache} {callbacks : List Callback}
    (hst : c.step e = some (c', callbacks)) : StepOk c c' callbacks := by
  cases e with
  | get g request openResult statxResult =>
    simp only [FdCache.step, ite_none_right_eq_some] at hst
    have he := some.inj hst.2
    rw [show c' = _ from (congrArg fst he).symm, show callbacks = _ from (congrArg snd he).symm]
    exact h.get g request openResult statxResult
  | openDone id result =>
    rw [FdCache.step] at hst
    split at hst
    · cases hst
    next i hfi =>
      split at hst
      · cases hst
      next call hc =>
        have ht := h.items i (mem_of_find?_eq_some hfi)
        cases hst
        exact h.stepOk_settle ht.2 (ht.1.openDone c.uring hc result (.error 0))
  | statxDone id result =>
    rw [FdCache.step] at hst
    split at hst
    · cases hst
    next i hfi =>
      split at hst
      next fd _ hfd =>
        have ht := h.items i (mem_of_find?_eq_some hfi)
        have hd : ItemInv c.log { i with uringStatx := false } :=
          ht.1.congr rfl rfl (fun _ hc => hc) fun _ hr => hr
        cases hst
        exact h.stepOk_settle (i := { i with uringStatx := false }) ht.2
          (hd.statxDone hfd result)
      · cases hst
  | cancel request =>
    cases hst
    exact .silent (h.cancel request) rfl
  | release id =>
    rw [FdCache.step] at hst
    split at hst
    · cases hst
    next i hfi =>
      split at hst
      · cases hst
      · have ht := h.items i (mem_of_find?_eq_some hfi)
        cases hst
        exact h.stepOk_settle (o := ⟨{ i with leases := i.leases - 1 }, [], false, true⟩) ht.2
          ⟨rfl, ht.1.congr rfl rfl (fun _ hc => hc) fun _ hr => hr, forall_mem_nil _⟩
  | broken id =>
    rw [FdCache.step] at hst
    split at hst
    · cases hst
      exact .silent h rfl
    next i hfi =>
      split at hst
      · cases hst
      · cases hst
        exact .silent (h.retireOne (mem_of_find?_eq_some hfi)) rfl
  | inotify id =>
    rw [FdCache.step] at hst
    split at hst
    · cases hst
    next i hfi =>
      cases hst
      exact .silent (h.retireOne (mem_of_find?_eq_some hfi)) rfl
  | expire =>
    cases hst
    refine .silent (h.retire_sublist ?_ ?_) rfl
    · exact fun i hi => (dropWhile_sublist _).subset hi
    · exact fun i hi => (takeWhile_sublist _).subset hi
  | flush =>
    cases hst
    exact .silent (h.retire_sublist (forall_mem_nil _) fun _ hi => hi) rfl
  | beginShutdown =>
    cases hst
    have hfl : c.flush.Inv := h.retire_sublist (forall_mem_nil _) fun _ hi => hi
    exact .silent ⟨hfl.items, hfl.log_lt, hfl.same_key⟩ rfl
  | wait duration =>
    cases hst
    exact .silent ⟨h.items, h.log_lt, h.same_key⟩ rfl

private theorem Inv.run (h : c.Inv) {ls : List (Event × List Callback)} {c' : FdCache}
    (hru : Run Step c ls c') :
    c'.Inv ∧ ∀ l ∈ ls, ∀ cb ∈ l.2, CallbackOk c'.log cb := by
  induction hru with
  | nil => exact ⟨h, forall_mem_nil _⟩
  | @snoc ls c' c'' l _ hst ih =>
    have ho : StepOk c' c'' l.2 := ih.1.step hst
    refine ⟨ho.inv, fun l' hl' cb hc => ?_⟩
    rcases mem_append.mp hl' with hl' | hl'
    · have hb := ih.2 l' hl' cb hc
      cases cb with
      | success g fd =>
        obtain ⟨id, g0, hg, hg0, he⟩ := hb
        exact ⟨id, g0, ho.log _ hg, ho.log _ hg0, he⟩
      | error g error => exact trivial
    · rw [mem_singleton.mp hl'] at hc
      exact ho.callbacks cb hc

/-- Two requests open a file in the same way: with the same flags, resolved in the same way,
relative to the same directory. -/
def SameAccess (g0 g : GetRequest) : Prop :=
  g0.how.flags = g.how.flags ∧ g0.how.resolve = g.how.resolve ∧ g0.directory = g.directory

variable (g0 : GetRequest)

/-- A cache after a first request. -/
def afterFirst : FdCache :=
  (get { uring := true } g0 0 (.ok ()) (.ok 0)).1

/-- The item that the first request creates, while its file is being opened. -/
def firstItem : Item :=
  { newItem { uring := true } g0 with
      nextStxMask := (0 ||| g0.stxMask) ||| g0.stxMask
      uringOpen := some g0.openCall
      requests := [⟨0, g0⟩] }

private theorem expires_firstItem : 0 < (firstItem g0).expires := by
  show 0 < 0 + if g0.stxMask ≠ 0 then 10 * second else 60 * second
  rw [second]
  split
  · omega
  · omega

private theorem shares_afterFirst {g0 g : GetRequest} (hke : g0.key = g.key) :
    ((afterFirst g0).get g 1 (.ok ()) (.ok 0)).1.Shares g0 g := by
  have hfi : (afterFirst g0).chronological.find? (·.key = g.key) = some (firstItem g0) := by
    exact find?_cons_of_pos (decide_eq_true hke)
  have hg : (afterFirst g0).get g 1 (.ok ()) (.ok 0) =
      (afterFirst g0).getHit (firstItem g0) g 1 (.ok 0) := by
    rw [get, hfi]
    exact if_pos (expires_firstItem g0)
  have hlo : ((afterFirst g0).get g 1 (.ok ()) (.ok 0)).1.log = [(g0, 0), (g, 0)] := by
    rw [hg]
    rfl
  refine ⟨0, ?_, ?_⟩
  · rw [hlo]
    exact mem_cons_self
  · rw [hlo]
    exact mem_cons_of_mem _ mem_cons_self

/-- **Requests that share a descriptor.** In every run, a descriptor that a request gets was opened
for a request that has used the same item. Two requests use one item only if they open the file in
the same way, in every run, if and only if the way is the same whenever the path and the flags
are. -/
theorem fdCache_sharing_iff {g0 g : GetRequest} (h0 : g0.WellFormed) (h : g.WellFormed) :
    (∀ uring ls c, Run Step { uring } ls c → ∀ l ∈ ls, ∀ fd, .success g fd ∈ l.2 →
      ∃ g', c.Shares g' g ∧ fd = g'.openCall) ∧
    ((∀ uring ls c, Run Step { uring } ls c → c.Shares g0 g → SameAccess g0 g) ↔
      (g0.path = g.path → g0.how.flags = g.how.flags →
        g0.how.resolve = g.how.resolve ∧ g0.directory = g.directory)) := by
  refine ⟨fun uring ls c hru l hl fd hfd => ?_, ?_, ?_⟩
  · obtain ⟨id, g', hg, hg', he⟩ := ((inv_new uring).run hru).2 l hl _ hfd
    exact ⟨g', ⟨id, hg', hg⟩, he⟩
  · intro hruns hpa hfl
    have hfi : Step { uring := true } (.get g0 0 (.ok ()) (.ok 0), []) (afterFirst g0) := by
      show (if g0.WellFormed then some _ else none) = some _
      rw [if_pos h0]
      rfl
    have hse : Step (afterFirst g0) (.get g 1 (.ok ()) (.ok 0),
        ((afterFirst g0).get g 1 (.ok ()) (.ok 0)).2)
        ((afterFirst g0).get g 1 (.ok ()) (.ok 0)).1 := if_pos h
    have hsa := hruns true _ _ (.cons hfi (.cons hse .nil)) (shares_afterFirst (Prod.ext hpa hfl))
    exact hsa.2
  · rintro hag uring ls c hru ⟨id, hg0, hg⟩
    have hke : g0.key = g.key := ((inv_new uring).run hru).1.same_key g0 g id hg0 hg
    have hfl : g0.how.flags = g.how.flags := congrArg snd hke
    exact ⟨hfl, hag (congrArg fst hke) hfl⟩

/-- A file that is opened for reading, `src/bp/FileHandler.cxx:435-438, 446-447`. -/
def openReadOnly : GetRequest where
  directory := none
  stripPath := []
  path := ascii "/srv/www/link"
  how := { flags := 0x80900, resolve := 0x02 }
  stxMask := 0x341

/-- The same file, beneath a directory, `src/bp/FileHandler.cxx:440-443, 446-447`. -/
def openReadOnlyBeneath : GetRequest where
  directory := some 3
  stripPath := ascii "/srv/www"
  path := ascii "/srv/www/link"
  how := { flags := 0x80900, resolve := 0x0a }
  stxMask := 0x341

/-- A request for less information about it. -/
def openReadOnlyType : GetRequest := { openReadOnlyBeneath with stxMask := 0x01 }

/-- Two different requests share the item, and they ask for the same access. -/
theorem fdCache_sharing_type :
    openReadOnlyType ≠ openReadOnlyBeneath ∧
      (∃ c, Run Step { uring := false }
        [(.get openReadOnlyBeneath 0 (.ok ()) (.ok 0x341),
          [.success openReadOnlyBeneath openReadOnlyBeneath.openCall]),
          (.get openReadOnlyType 1 (.ok ()) (.ok 0x341),
            [.success openReadOnlyType openReadOnlyBeneath.openCall])] c ∧
        c.Shares openReadOnlyBeneath openReadOnlyType) ∧
      ∀ uring ls c, Run Step { uring } ls c → c.Shares openReadOnlyBeneath openReadOnlyType →
        SameAccess openReadOnlyBeneath openReadOnlyType := by
  refine ⟨by decide, ⟨_, .cons rfl (.cons rfl .nil), 0, by decide, by decide⟩, ?_⟩
  exact (fdCache_sharing_iff (by decide) (by decide)).2.mpr fun _ _ => ⟨rfl, rfl⟩

/-- The file is opened without a directory, and then the descriptor is given to a request that asks
for a file beneath a directory. -/
theorem fdCache_escapes_directory :
    (∃ c, Run Step { uring := false }
      [(.get openReadOnly 0 (.ok ()) (.ok 0x341), [.success openReadOnly openReadOnly.openCall]),
        (.get openReadOnlyBeneath 1 (.ok ()) (.ok 0x341),
          [.success openReadOnlyBeneath openReadOnly.openCall])] c) ∧
      ¬SameAccess openReadOnly openReadOnlyBeneath := by
  constructor
  · exact ⟨_, .cons rfl (.cons rfl .nil)⟩
  · rintro ⟨-, hre, -⟩
    cases hre

end FdCache

end BengProxy.Io
