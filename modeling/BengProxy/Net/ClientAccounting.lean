import Mathlib.Data.List.Basic

/-!
# Accounting per client

Models `ClientAccountingMap::Get`, `src/net/ClientAccounting.cxx`. The addresses of clients are
folded to 64 bits, and zero means that a client is not accounted at all. The records of a map are
told apart by their addresses.
-/

namespace BengProxy.Net

/-- `Read64`, `ClientAccounting.cxx:40-47`. -/
def read64 (src : List UInt8) : UInt64 :=
  (src.take 8).foldl (fun value byte => value <<< 8 ||| byte.toUInt64) 0

/-- The address of a client: nothing, `AF_INET`, `AF_INET6` or another family. -/
inductive ClientAddress where
  | null
  | inet (numericAddressBE : UInt32)
  | inet6 (s6Addr : Vector UInt8 16)
  | other
  deriving DecidableEq

namespace ClientAddress

/-- `ToInteger`, `ClientAccounting.cxx:49-71`. -/
def toInteger : ClientAddress → UInt64
  | null => 0
  | inet numericAddressBE => numericAddressBE.toUInt64
  | inet6 s6Addr => read64 s6Addr.toList ^^^ read64 (s6Addr.toList.drop 8)
  | other => 0

/-- An IPv4 address that is not zero, or an IPv6 address with two different halves. -/
def Accountable : ClientAddress → Prop
  | inet numericAddressBE => numericAddressBE ≠ 0
  | inet6 s6Addr => read64 s6Addr.toList ≠ read64 (s6Addr.toList.drop 8)
  | _ => False

private theorem toInteger_ne_zero_iff (a : ClientAddress) : a.toInteger ≠ 0 ↔ a.Accountable := by
  cases a with
  | null => exact iff_of_false (not_not_intro rfl) id
  | inet n =>
    have hze : n.toUInt64 = 0 ↔ n = 0 := UInt32.toUInt64_inj (b := 0)
    exact not_congr hze
  | inet6 s6Addr => exact not_congr UInt64.xor_eq_zero_iff
  | other => exact iff_of_false (not_not_intro rfl) id

end ClientAddress

/-- `PerClientAccounting`, `ClientAccounting.cxx:73-77`. -/
structure PerClientAccounting where
  address : UInt64
  deriving DecidableEq

/-- `ClientAccountingMap`: no two records have the same address. -/
structure ClientAccountingMap where
  map : List PerClientAccounting
  nodup : map.Nodup

namespace ClientAccountingMap

/-- A new map. -/
def empty : ClientAccountingMap := ⟨[], List.nodup_nil⟩

/-- `ClientAccountingMap::Get`, `ClientAccounting.cxx:150-165`. -/
def get (m : ClientAccountingMap) (a : ClientAddress) :
    ClientAccountingMap × Option PerClientAccounting :=
  if a.toInteger = 0 then (m, none)
  else if h : ⟨a.toInteger⟩ ∈ m.map then (m, some ⟨a.toInteger⟩)
  else (⟨⟨a.toInteger⟩ :: m.map, List.nodup_cons.mpr ⟨h, m.nodup⟩⟩, some ⟨a.toInteger⟩)

private theorem get_eq (m : ClientAccountingMap) (a : ClientAddress) :
    (m.get a).2 = if a.toInteger = 0 then none else some ⟨a.toInteger⟩ := by
  unfold get
  split
  · rfl
  · split <;> rfl

private theorem get_eq_some_iff {m : ClientAccountingMap} {a : ClientAddress}
    {r : PerClientAccounting} : (m.get a).2 = some r ↔ a.Accountable ∧ r = ⟨a.toInteger⟩ := by
  rw [get_eq, ← a.toInteger_ne_zero_iff]
  split
  next hz => simp [hz]
  next hz => simp [hz, eq_comm]

/-- Two clients get records, and different ones, if and only if both can be accounted and they are
folded to different numbers. -/
theorem get_separate_iff (m : ClientAccountingMap) (a b : ClientAddress) :
    (∃ r s, (m.get a).2 = some r ∧ ((m.get a).1.get b).2 = some s ∧ r ≠ s) ↔
      a.Accountable ∧ b.Accountable ∧ a.toInteger ≠ b.toInteger := by
  simp only [get_eq_some_iff]
  constructor
  · rintro ⟨r, s, ⟨ha, rfl⟩, ⟨hb, rfl⟩, hne⟩
    exact ⟨ha, hb, fun he => hne (congrArg PerClientAccounting.mk he)⟩
  · rintro ⟨ha, hb, hne⟩
    exact ⟨_, _, ⟨ha, rfl⟩, ⟨hb, rfl⟩, fun he => hne (congrArg PerClientAccounting.address he)⟩

/-- `2001:db8::2001:db8:0:0` has no record, and `::1`, `0:0:0:1::` and the IPv4 address whose number
is one have the same record. -/
theorem get_shares :
    (empty.get (.inet6 #v[32, 1, 13, 184, 0, 0, 0, 0, 32, 1, 13, 184, 0, 0, 0, 0])).2 = none ∧
      (empty.get (.inet6 #v[0, 0, 0, 0, 0, 0, 0, 0, 0, 0, 0, 0, 0, 0, 0, 1])).2 = some ⟨1⟩ ∧
      (empty.get (.inet6 #v[0, 0, 0, 0, 0, 0, 0, 1, 0, 0, 0, 0, 0, 0, 0, 0])).2 = some ⟨1⟩ ∧
      (empty.get (.inet 1)).2 = some ⟨1⟩ := by
  decide

end ClientAccountingMap
end BengProxy.Net
