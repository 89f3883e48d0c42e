import Mathlib.Algebra.GroupWithZero.Nat
import Mathlib.Tactic.Common

/-!
# Reading what was written

A reader takes tokens from the front of a stream. `Reads` says which tokens a reader takes to return
a value, whatever comes behind them; it composes like the readers do, so that a round trip is proved
along the structure of the reader. Values of a fixed size are written as their bytes in memory.
-/

namespace BengProxy.Base

open List

/-- Take tokens from the front of a stream, or fail. -/
abbrev Reader (ε τ : Type) := StateT (List τ) (Except ε)

namespace Reader

variable {ε τ α β σ : Type}

/-- The reader takes exactly these tokens from any stream, and returns this value. -/
def Reads (r : Reader ε τ α) (xs : List τ) (a : α) : Prop :=
  ∀ rest, r.run (xs ++ rest) = .ok (a, rest)

theorem Reads.pure (a : α) : Reads (pure a : Reader ε τ α) [] a := fun _ => rfl

theorem Reads.bind {r : Reader ε τ α} {f : α → Reader ε τ β} {xs ys : List τ} {a : α} {b : β}
    (h : Reads r xs a) (h' : Reads (f a) ys b) : Reads (r >>= f) (xs ++ ys) b := by
  intro rest
  rw [StateT.run_bind, append_assoc, h]
  exact h' rest

theorem Reads.map {r : Reader ε τ α} {xs : List τ} {a : α} (h : Reads r xs a) (f : α → β) :
    Reads (r >>= fun a => Pure.pure (f a)) xs (f a) := by
  have hb := h.bind (f := fun a => Pure.pure (f a)) (.pure (f a))
  rwa [append_nil] at hb

/-- Take some tokens, if there are as many. -/
def takeFull (error : ε) (n : Nat) : Reader ε τ (List τ) := fun input =>
  if input.length < n then .error error else .ok (input.take n, input.drop n)

/-- There are as many. -/
theorem reads_takeFull (error : ε) (xs : List τ) : Reads (takeFull error xs.length) xs xs := by
  intro rest
  have hn : ¬ (xs ++ rest).length < xs.length := by
    rw [length_append]
    omega
  rw [StateT.run, takeFull, if_neg hn, take_left, drop_left]

/-- A loop: each iteration takes some tokens, and may be the last. -/
def iterate (error : ε) (body : σ → Reader ε τ (Bool × σ)) : Nat → σ → Reader ε τ σ
  | 0, _ => throw error
  | n + 1, s => do
    let (more, s) ← body s
    if more then iterate error body n s else pure s

/-- A loop whose iterations take at least one token, but for the last. -/
def loop (error : ε) (body : σ → Reader ε τ (Bool × σ)) (s : σ) : Reader ε τ σ := fun input =>
  iterate error body (input.length + 1) s input

/-- The loop takes these tokens, if it may run as often as there are tokens. -/
def Iterates (error : ε) (body : σ → Reader ε τ (Bool × σ)) (s : σ) (xs : List τ) (s' : σ) : Prop :=
  ∀ n, xs.length < n → Reads (iterate error body n s) xs s'

variable {error : ε} {body : σ → Reader ε τ (Bool × σ)} {s s' s'' : σ} {xs ys : List τ}

theorem Iterates.last (h : Reads (body s) xs (false, s')) : Iterates error body s xs s' := by
  intro n hn
  cases n with
  | zero => omega
  | succ n =>
    intro rest
    rw [iterate, StateT.run_bind, h]
    rfl

theorem Iterates.next (h : Reads (body s) xs (true, s')) (hx : xs ≠ [])
    (h' : Iterates error body s' ys s'') : Iterates error body s (xs ++ ys) s'' := by
  intro n hn
  cases n with
  | zero => omega
  | succ n =>
    have hpo := length_pos_iff.mpr hx
    rw [length_append] at hn
    exact h.bind (h' n (by omega))

/-- The loop always may. -/
theorem Iterates.loop (h : Iterates error body s xs s') : Reads (loop error body s) xs s' := by
  intro rest
  exact h _ (by rw [length_append]; omega) rest

end Reader

/-- The bytes of a number, least significant byte first. -/
def littleEndian : Nat → Nat → List UInt8
  | 0, _ => []
  | size + 1, n => UInt8.ofNat n :: littleEndian size (n / 256)

/-- The number that the bytes denote. -/
def ofLittleEndian : List UInt8 → Nat
  | [] => 0
  | b :: bytes => b.toNat + 256 * ofLittleEndian bytes

@[simp]
private theorem length_littleEndian (size n : Nat) : (littleEndian size n).length = size := by
  induction size generalizing n with
  | zero => rfl
  | succ size ih => rw [littleEndian, length_cons, ih]

private theorem ofLittleEndian_littleEndian {size n : Nat} (h : n < 256 ^ size) :
    ofLittleEndian (littleEndian size n) = n := by
  induction size generalizing n with
  | zero =>
    rw [littleEndian, ofLittleEndian]
    omega
  | succ size ih =>
    have hd : n / 256 < 256 ^ size := by
      apply Nat.div_lt_of_lt_mul
      rwa [Nat.pow_succ, mul_comm] at h
    rw [littleEndian, ofLittleEndian, ih hd, UInt8.toNat_ofNat']
    omega

/-- A type whose values are copied byte by byte. -/
class Pod (α : Type) where
  size : Nat
  toBytes : α → List UInt8
  ofBytes : List UInt8 → α
  length_toBytes : ∀ a, (toBytes a).length = size
  ofBytes_toBytes : ∀ a, ofBytes (toBytes a) = a

instance : Pod UInt8 where
  size := 1
  toBytes a := [a]
  ofBytes bytes := bytes.headD 0
  length_toBytes _ := rfl
  ofBytes_toBytes _ := rfl

instance : Pod UInt16 where
  size := 2
  toBytes a := littleEndian 2 a.toNat
  ofBytes bytes := UInt16.ofNat (ofLittleEndian bytes)
  length_toBytes _ := length_littleEndian _ _
  ofBytes_toBytes a := by rw [ofLittleEndian_littleEndian a.toNat_lt, UInt16.ofNat_toNat]

instance : Pod UInt32 where
  size := 4
  toBytes a := littleEndian 4 a.toNat
  ofBytes bytes := UInt32.ofNat (ofLittleEndian bytes)
  length_toBytes _ := length_littleEndian _ _
  ofBytes_toBytes a := by rw [ofLittleEndian_littleEndian a.toNat_lt, UInt32.ofNat_toNat]

instance : Pod UInt64 where
  size := 8
  toBytes a := littleEndian 8 a.toNat
  ofBytes bytes := UInt64.ofNat (ofLittleEndian bytes)
  length_toBytes _ := length_littleEndian _ _
  ofBytes_toBytes a := by rw [ofLittleEndian_littleEndian a.toNat_lt, UInt64.ofNat_toNat]

namespace Reader

variable {ε α : Type} [Pod α]

/-- Read a value of a fixed size. -/
def readT (error : ε) (α : Type) [Pod α] : Reader ε UInt8 α := do
  let bytes ← takeFull error (Pod.size α)
  pure (Pod.ofBytes bytes)

/-- The value that was written. -/
theorem reads_readT (error : ε) (a : α) : Reads (readT error α) (Pod.toBytes a) a := by
  have ht := reads_takeFull error (Pod.toBytes a)
  rw [Pod.length_toBytes] at ht
  have hma := ht.map fun bytes => (Pod.ofBytes bytes : α)
  rwa [Pod.ofBytes_toBytes] at hma

end Reader
end BengProxy.Base
