import Mathlib.Data.List.Infix

/-!
# The handler of an istream

Models the other side of `Istream::InvokeData`, `src/istream/istream.hxx`: in each call the
handler accepts as much as it wants of what it is offered, or destroys the stream.
-/

namespace BengProxy.Istream

open List

/-- A handler: how much it accepts in each call (`none` if it destroys the stream then), the
number of calls so far, what it has received, and whether it destroyed the stream. -/
structure Handler where
  accept : Nat → Option Nat
  calls : Nat := 0
  received : List UInt8 := []
  destroyed : Bool := false

namespace Handler

/-- `Istream::InvokeData`, `src/istream/istream.hxx`: the number of bytes accepted. -/
def invokeData (h : Handler) (src : List UInt8) : Nat × Handler :=
  match h.accept h.calls with
  | none => (0, { h with calls := h.calls + 1, destroyed := true })
  | some n =>
    (min n src.length, { h with calls := h.calls + 1, received := h.received ++ src.take n })

/-- The handler does not accept `size` bytes in each call. -/
def Refuses (h : Handler) (size : Nat) : Prop := ∃ k, ∀ n, h.accept k = some n → n < size

theorem Refuses.mono {h h' : Handler} {m n : Nat} (hr : h.Refuses m) (ha : h'.accept = h.accept)
    (hmn : m ≤ n) : h'.Refuses n := by
  obtain ⟨k, hk⟩ := hr
  refine ⟨k, fun a hka => ?_⟩
  rw [ha] at hka
  exact lt_of_lt_of_le (hk a hka) hmn

/-- What a handler does later does not change what it is. -/
structure Continues (h h' : Handler) (out : List UInt8) : Prop where
  accept_eq : h'.accept = h.accept
  received_eq : h'.received = h.received ++ out

theorem Continues.refl (h : Handler) : Continues h h [] := ⟨rfl, (append_nil _).symm⟩

theorem Continues.trans {h h' h'' : Handler} {xs ys : List UInt8} (hx : Continues h h' xs)
    (hy : Continues h' h'' ys) : Continues h h'' (xs ++ ys) where
  accept_eq := hy.accept_eq.trans hx.accept_eq
  received_eq := by rw [hy.received_eq, hx.received_eq, append_assoc]

/-- The handler receives what it accepts. -/
theorem invokeData_spec (h : Handler) (src : List UInt8) :
    ∃ n h', h.invokeData src = (n, h') ∧ n ≤ src.length ∧ Continues h h' (src.take n) ∧
      (n < src.length → h.Refuses src.length) ∧
      (h.destroyed = false → h'.destroyed = true → n = 0) := by
  unfold invokeData
  cases ha : h.accept h.calls with
  | none =>
    refine ⟨0, _, rfl, Nat.zero_le _, ⟨rfl, (append_nil _).symm⟩, ?_, fun _ _ => rfl⟩
    intro _
    refine ⟨h.calls, fun n hn => ?_⟩
    rw [ha] at hn
    cases hn
  | some n =>
    refine ⟨min n src.length, _, rfl, min_le_right _ _, ⟨rfl, ?_⟩, ?_, ?_⟩
    · simp only
      rw [← take_eq_take_min]
    · intro hlt
      refine ⟨h.calls, fun m hm => ?_⟩
      rw [ha] at hm
      cases hm
      omega
    · intro hd hd'
      rw [hd] at hd'
      cases hd'

end Handler
end BengProxy.Istream
