import BengProxy.Base.Run

/-!
# A queue with a limit

Models `src/util/LimitedConcurrencyQueue.{cxx,hxx}`. A callback is the last thing a method does, so
that the calls it makes are the next events. Every `Add` has a number, which is not in the source.
-/

namespace BengProxy.Util

open Base List Function Prod

variable {α : Type}

/-- `LimitedConcurrencyJob::State`, `LimitedConcurrencyQueue.hxx:22-26`. -/
inductive JobState where
  | none
  | waiting
  | running
  deriving DecidableEq

/-- `LimitedConcurrencyQueue`, with the states of all jobs, the next number, and the numbers of the
jobs that were started. The limit does not change. -/
structure LimitedConcurrencyQueue (α : Type) where
  waiting : List (α × Nat) := []
  running : List α := []
  state : α → JobState := fun _ => .none
  deferStart : Bool := false
  next : Nat := 0
  started : List Nat := []

/-- What happens to a queue: `Schedule`, `Cancel`, and the deferred event. -/
inductive QueueEvent (α : Type) where
  | add (job : α)
  | remove (job : α)
  | deferredStart

namespace LimitedConcurrencyQueue

variable [DecidableEq α] (limit : Nat) (q : LimitedConcurrencyQueue α)

/-- `Add`, `LimitedConcurrencyQueue.cxx:31-42`. -/
def add (job : α) : LimitedConcurrencyQueue α :=
  if q.waiting = [] ∧ q.running.length < limit then
    { q with
      state := update q.state job .running
      running := q.running ++ [job]
      next := q.next + 1
      started := q.started ++ [q.next] }
  else
    { q with
      state := update q.state job .waiting
      waiting := q.waiting ++ [(job, q.next)]
      next := q.next + 1 }

/-- `Remove`, `LimitedConcurrencyQueue.cxx:44-64`. -/
def remove (job : α) : LimitedConcurrencyQueue α :=
  match q.state job with
  | .none => q
  | .waiting =>
    { q with
      waiting := q.waiting.filter (·.1 ≠ job)
      state := update q.state job .none }
  | .running =>
    { q with
      deferStart := q.deferStart || q.running.length == limit
      running := q.running.erase job
      state := update q.state job .none }

/-- `OnDeferredStart`, `LimitedConcurrencyQueue.cxx:66-84`. -/
def onDeferredStart : LimitedConcurrencyQueue α :=
  match q.waiting with
  | [] => { q with deferStart := false }
  | (job, number) :: waiting =>
    if limit ≤ q.running.length then { q with deferStart := false }
    else
      { q with
        state := update q.state job .running
        waiting
        running := q.running ++ [job]
        deferStart := !waiting.isEmpty && decide (q.running.length + 1 < limit)
        started := q.started ++ [number] }

/-- A job that is scheduled has no state, and only a pending event is fired. -/
def Step : QueueEvent α → LimitedConcurrencyQueue α → Prop
  | .add job, q' => q.state job = .none ∧ q' = q.add limit job
  | .remove job, q' => q' = q.remove limit job
  | .deferredStart, q' => q.deferStart = true ∧ q' = q.onDeferredStart limit

/-- The invariant: what was started and what is waiting is in the order of the calls of `Add`. -/
structure Inv : Prop where
  running_le : q.running.length ≤ limit
  waiting_iff : ∀ job, q.state job = .waiting ↔ job ∈ q.waiting.map fst
  running_iff : ∀ job, q.state job = .running ↔ job ∈ q.running
  nodup : (q.waiting.map fst).Nodup ∧ q.running.Nodup
  order : (q.started ++ q.waiting.map snd).Pairwise (· < ·)
  lt_next : ∀ n ∈ q.started ++ q.waiting.map snd, n < q.next
  wake : q.waiting ≠ [] → q.running.length < limit → q.deferStart = true

variable {limit q}

private theorem Inv.add {job : α} (h : q.Inv limit) (hjo : q.state job = .none) :
    (q.add limit job).Inv limit := by
  have hor := pairwise_append.mpr ⟨h.order, pairwise_singleton _ q.next, fun n hn m hm =>
    (mem_singleton.mp hm) ▸ h.lt_next n hn⟩
  obtain ⟨hle, hw, hr, hnd, -, hln, hwa⟩ := h
  unfold LimitedConcurrencyQueue.add
  split <;> constructor <;> grind

private theorem Inv.remove (h : q.Inv limit) (job : α) : (q.remove limit job).Inv limit := by
  have hsu : (q.waiting.filter (·.1 ≠ job)).Sublist q.waiting := filter_sublist
  have hor := h.order.sublist ((Sublist.refl q.started).append (hsu.map snd))
  have hfi := h.nodup.1.sublist (hsu.map fst)
  have her := h.nodup.2.erase job
  unfold LimitedConcurrencyQueue.remove
  split
  · exact h
  next hst =>
    obtain ⟨hle, hw, hr, hnd, -, hln, hwa⟩ := h
    constructor <;> grind
  next hst =>
    -- either the event is scheduled now, or it was pending before
    have hme := (h.running_iff job).mp hst
    obtain ⟨hle, hw, hr, hnd, hor, hln, hwa⟩ := h
    constructor <;> grind

private theorem Inv.onDeferredStart (h : q.Inv limit) : (q.onDeferredStart limit).Inv limit := by
  unfold LimitedConcurrencyQueue.onDeferredStart
  split
  next hni => exact { h with wake := fun hne => absurd hni hne }
  next job number waiting hwt =>
    obtain ⟨hle, hw, hr, hnd, hor, hln, hwa⟩ := h
    rw [hwt, map_cons] at hnd hor hln
    split <;> constructor <;> grind

end LimitedConcurrencyQueue

/-- After every run: at most as many jobs are running as the limit allows, they have been started in
the order in which they were added, every job is in the list its state says and once, and the
event is pending if a job is waiting and could be started. -/
theorem limited_concurrency [DecidableEq α] {limit : Nat} {events : List (QueueEvent α)}
    {q : LimitedConcurrencyQueue α} (h : Run (LimitedConcurrencyQueue.Step limit) {} events q) :
    q.running.length ≤ limit ∧ q.started.Pairwise (· < ·) ∧
      (∀ job, (q.state job = .waiting ↔ job ∈ q.waiting.map fst) ∧
        (q.state job = .running ↔ job ∈ q.running)) ∧
      (q.waiting.map fst).Nodup ∧ q.running.Nodup ∧
      (q.waiting ≠ [] → q.running.length < limit → q.deferStart = true) := by
  have hi : q.Inv limit := by
    apply h.invariant
    · exact ⟨Nat.zero_le _, by simp, by simp, by simp, .nil, by simp, by simp⟩
    · intro q e q' hi hst
      cases e with
      | add job => exact hst.2 ▸ hi.add hst.1
      | remove job => exact hst ▸ hi.remove job
      | deferredStart => exact hst.2 ▸ hi.onDeferredStart
  exact ⟨hi.running_le, hi.order.sublist (sublist_append_left _ _),
    fun job => ⟨hi.waiting_iff job, hi.running_iff job⟩, hi.nodup.1, hi.nodup.2, hi.wake⟩

/-- The second job is started when the first one is removed. -/
theorem limited_concurrency_two :
    ∃ q : LimitedConcurrencyQueue Nat, Run (LimitedConcurrencyQueue.Step 1) {}
        [.add 5, .add 4, .remove 5, .deferredStart] q ∧
      q.running = [4] ∧ q.started.Pairwise (· < ·) := by
  refine Run.exists_of (p := fun q => q.running = [4])
    ⟨_, .cons ⟨rfl, rfl⟩ (.cons ⟨rfl, rfl⟩ (.cons rfl (.cons ⟨rfl, rfl⟩ .nil))), rfl⟩ ?_
  intro q hr hru
  exact ⟨hru, (limited_concurrency hr).2.1⟩

end BengProxy.Util
