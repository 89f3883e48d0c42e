import Mathlib.Data.List.Basic

/-!
# Streams with marked payload

A stream of elements in which some are payload and the others are framing. `raw` forgets
the marks and `payload` keeps the marked elements only.
-/

namespace BengProxy.Base.Marked

open List Function

universe u

variable {α : Type u} {ts : List (α × Bool)} {n : Nat}

/-- All elements, payload and framing. -/
def raw (ts : List (α × Bool)) : List α := ts.map Prod.fst

/-- The payload. -/
def payload (ts : List (α × Bool)) : List α := (ts.filter Prod.snd).map Prod.fst

/-- The marks alone. -/
def marks (ts : List (α × Bool)) : List Bool := ts.map Prod.snd

variable (xs : List α)

/-- Mark all elements as framing. -/
def framing : List (α × Bool) := xs.map fun x => (x, false)

/-- Mark all elements as payload. -/
def data : List (α × Bool) := xs.map fun x => (x, true)

@[simp] theorem raw_nil : raw ([] : List (α × Bool)) = [] := rfl

@[simp] theorem raw_cons (t : α × Bool) (ts : List (α × Bool)) : raw (t :: ts) = t.1 :: raw ts :=
  rfl

@[simp] theorem raw_append (ts us : List (α × Bool)) : raw (ts ++ us) = raw ts ++ raw us :=
  map_append

@[simp] theorem length_raw (ts : List (α × Bool)) : (raw ts).length = ts.length := length_map _

@[simp] theorem raw_framing : raw (framing xs) = xs := by
  simp [raw, framing, comp_def]

@[simp] theorem raw_data : raw (data xs) = xs := by
  simp [raw, data, comp_def]

@[simp] theorem payload_nil : payload ([] : List (α × Bool)) = [] := rfl

@[simp] theorem payload_append (ts us : List (α × Bool)) :
    payload (ts ++ us) = payload ts ++ payload us := by
  simp [payload]

@[simp] theorem payload_framing : payload (framing xs) = [] := by
  simp [payload, framing]

@[simp] theorem payload_data : payload (data xs) = xs := by
  induction xs with
  | nil => rfl
  | cons x xs ih => exact congrArg (x :: ·) ih

@[simp] theorem marks_nil : marks ([] : List (α × Bool)) = [] := rfl

@[simp] theorem marks_append (ts us : List (α × Bool)) : marks (ts ++ us) = marks ts ++ marks us :=
  map_append

@[simp] theorem length_marks (ts : List (α × Bool)) : (marks ts).length = ts.length := length_map _

@[simp] theorem marks_framing : marks (framing xs) = replicate xs.length false := by
  simp [marks, framing, comp_def]

@[simp] theorem marks_data : marks (data xs) = replicate xs.length true := by
  simp [marks, data, comp_def]

@[simp] theorem raw_take (n : Nat) (ts : List (α × Bool)) : raw (ts.take n) = (raw ts).take n :=
  map_take

@[simp] theorem marks_take (n : Nat) (ts : List (α × Bool)) :
    marks (ts.take n) = (marks ts).take n :=
  map_take

theorem payload_eq_nil_iff : payload ts = [] ↔ true ∉ marks ts := by
  simp [payload, marks, filter_eq_nil_iff]

/-- A part of a stream without payload has none. -/
theorem payload_take_eq_nil {m : Nat} (h : payload (ts.take n) = [])
    (hm : m ≤ n) : payload (ts.take m) = [] := by
  rw [payload_eq_nil_iff] at h ⊢
  intro hme
  apply h
  rw [marks_take] at hme ⊢
  exact (take_prefix_take_left hm).subset hme

theorem payload_take_le (n : Nat) (ts : List (α × Bool)) :
    payload (ts.take n) <+: payload ts := by
  conv_rhs => rw [← take_append_drop n ts, payload_append]
  exact prefix_append _ _

private theorem eq_map_mark {b : Bool} (h : marks ts = replicate n b) :
    ts = (raw ts).map (·, b) := by
  induction ts generalizing n with
  | nil => rfl
  | cons t ts ih =>
    cases n with
    | zero => cases h
    | succ n =>
      injection h with ht hts
      rw [raw_cons, map_cons, ← ih hts, ← ht]

private theorem eq_framing (h : marks ts = replicate n false) : ts = framing (raw ts) :=
  eq_map_mark h

private theorem eq_data (h : marks ts = replicate n true) : ts = data (raw ts) := eq_map_mark h

theorem payload_of_framing (h : marks ts = replicate n false) : payload ts = [] := by
  rw [eq_framing h, payload_framing]

theorem payload_of_data (h : marks ts = replicate n true) :
    payload ts = raw ts := by
  rw [eq_data h, payload_data, raw_data]

/-- The marks of a stream may be cut wherever its marks are. -/
theorem split_of_marks {ms ns : List Bool} (h : marks ts = ms ++ ns) :
    ∃ us vs, ts = us ++ vs ∧ marks us = ms ∧ marks vs = ns :=
  map_eq_append_iff.mp h

/-- Cut `k` elements from a run of equally marked ones. -/
theorem split_replicate {b : Bool} {ms : List Bool}
    (h : marks ts = replicate n b ++ ms) {k : Nat} (hk : k ≤ n) :
    ∃ us vs, ts = us ++ vs ∧ us.length = k ∧ marks us = replicate k b ∧
      marks vs = replicate (n - k) b ++ ms := by
  have hn : replicate n b = replicate k b ++ replicate (n - k) b := by
    rw [replicate_append_replicate, Nat.add_sub_cancel' hk]
  rw [hn, append_assoc] at h
  obtain ⟨us, vs, rfl, hu, hv⟩ := split_of_marks h
  refine ⟨us, vs, rfl, ?_, hu, hv⟩
  rw [← length_marks, hu, length_replicate]

/-- The elements that are visible in front of a stream. -/
theorem take_of_prefix {xs rest : List α} {us vs : List (α × Bool)}
    (h : xs <+: raw (us ++ vs) ++ rest) : xs.take us.length = raw (us.take xs.length) := by
  have hx : xs = (raw (us ++ vs) ++ rest).take xs.length := prefix_iff_eq_take.mp h
  rw [raw_append, append_assoc] at hx
  conv_lhs => rw [hx]
  rw [take_take, Nat.min_comm, ← take_take, ← length_raw us, take_left, raw_take]

end BengProxy.Base.Marked
