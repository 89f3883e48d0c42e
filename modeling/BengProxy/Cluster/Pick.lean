import Mathlib.Data.Nat.Find
import BengProxy.Base.Cycle
import Mathlib.Data.List.Basic

/-!
# Picking a member of a cluster

Models `src/cluster/PickGeneric.hxx`, `src/cluster/PickFailover.hxx`, `src/cluster/PickModulo.hxx`
and `src/cluster/RoundRobinBalancer.{hxx,cxx}`, with the failure states of
`src/net/FailureInfo.hxx`. An address is given by its position in the list.

A member that is fading out is better than one that is down. The sticky modes forget this when
they have to look for another member: if all others are fading or down, they return the one they
started with.
-/

namespace BengProxy.Cluster

open Base.Cycle List

/-- `FailureInfo`, `FailureInfo.hxx:10-19`; `E` is the type of points in time. -/
structure FailureInfo (E : Type) where
  fadeExpires : E
  protocolExpires : E
  connectExpires : E
  protocolCounter : Nat := 0
  monitor : Bool := false
  deriving DecidableEq, Repr

namespace FailureInfo

variable {E : Type} (isExpired : E → E → Bool) (f : FailureInfo E) (now : E)

/-- `FailureInfo::CheckFade`, `FailureInfo.hxx:65-67`. -/
def checkFade : Bool := isExpired f.fadeExpires now

/-- `FailureInfo::CheckProtocol`, `FailureInfo.hxx:79-81`. -/
def checkProtocol : Bool :=
  isExpired f.protocolExpires now || decide (f.protocolCounter < 8)

/-- `FailureInfo::CheckConnect`, `FailureInfo.hxx:91-93`. -/
def checkConnect : Bool := isExpired f.connectExpires now

/-- `FailureInfo::CheckMonitor`, `FailureInfo.hxx:103-105`. -/
def checkMonitor : Bool := !f.monitor

/-- `FailureInfo::Check`, `FailureInfo.hxx:35-40`. -/
def check (allowFade : Bool) : Bool :=
  f.checkMonitor && f.checkConnect isExpired now && f.checkProtocol isExpired now &&
    (allowFade || f.checkFade isExpired now)

private theorem check_mono {b : Bool}
    (h : f.check isExpired now b = true) : f.check isExpired now true = true := by
  rw [check, Bool.and_eq_true] at h ⊢
  exact ⟨h.1, Bool.true_or _⟩

end FailureInfo

/-- `AddressListWrapper`, `src/cluster/AddressListWrapper.hxx`: a list of addresses, and what the
`FailureManager` knows about them. -/
structure AddressList (A E : Type) where
  addresses : List A
  failures : A → Option (FailureInfo E)
  isExpired : E → E → Bool

namespace AddressList

variable {A E : Type} (l : AddressList A E) (now : E)

/-- `FailureManager::Check`, `src/net/FailureManager.cxx:106-117`. -/
def check (a : A) (allowFade : Bool) : Bool :=
  match l.failures a with
  | none => true
  | some f => f.check l.isExpired now allowFade

/-- `Check` for the address at a position. -/
def checkAt (allowFade : Bool) (i : Nat) : Bool :=
  match l.addresses[i]? with
  | none => false
  | some a => l.check now a allowFade

/-- The address is down: it has a failure other than fading. -/
def Down (a : A) : Prop := l.check now a true = false
  deriving Decidable

/-- The address is up: it has no failure at all. -/
def Up (a : A) : Prop := l.check now a false = true
  deriving Decidable

/-- `PickFailover`, `PickFailover.hxx:17-33`. -/
def pickFailover : Nat := (l.addresses.findIdx? fun a => l.check now a true).getD 0

/-- The loop of `PickModulo`, `PickModulo.hxx:32-44`. -/
def pickModuloLoop (selected : Nat) : Nat → Nat → Bool → Option Nat
  | 0, _, _ => none
  | fuel + 1, i, allowFade =>
    if l.checkAt now allowFade i then some i
    else
      let i := succ l.addresses.length i
      if i = selected then some i else pickModuloLoop selected fuel i false

/-- `PickModulo`, `PickModulo.hxx:18-48`. -/
def pickModulo (stickyHash : Nat) : Option Nat :=
  let selected := stickyHash % l.addresses.length
  l.pickModuloLoop now selected l.addresses.length selected true

end AddressList

/-- `RoundRobinBalancer`, `RoundRobinBalancer.hxx:13-16`, for a list of `n` items. -/
structure RoundRobinBalancer (n : Nat) where
  next : Nat
  lt : next < n

namespace RoundRobinBalancer

variable {n : Nat}

/-- `RoundRobinBalancer::Next`, `RoundRobinBalancer.cxx:13-27`. -/
def step (b : RoundRobinBalancer n) : Nat × RoundRobinBalancer n :=
  (b.next, ⟨succ n b.next, succ_lt b.lt⟩)

/-- The loop of `RoundRobinBalancer::Get`, `RoundRobinBalancer.cxx:35-42`, with the
outcome of `Check` for each position. -/
def getLoop (check : Nat → Bool) (first : Nat) :
    Nat → Nat → RoundRobinBalancer n → Option (Nat × RoundRobinBalancer n)
  | 0, _, _ => none
  | fuel + 1, ret, b =>
    if check ret then some (ret, b)
    else
      let (ret, b) := b.step
      if ret = first then some (first, b) else getLoop check first fuel ret b

/-- `RoundRobinBalancer::Get`, `RoundRobinBalancer.cxx:29-46`. -/
def get (b : RoundRobinBalancer n) (check : Nat → Bool) : Option (Nat × RoundRobinBalancer n) :=
  let (first, b) := b.step
  getLoop check first n first b

end RoundRobinBalancer

/-- `StickyMode`, `src/cluster/StickyMode.hxx`. -/
inductive StickyMode where
  | none
  | failover
  | sourceIp
  | host
  | xhost
  | sessionModulo
  | cookie
  | jvmRoute
  deriving DecidableEq, Repr

namespace AddressList

variable {A E : Type} (l : AddressList A E) (now : E)

/-- The last line of `PickGeneric`, `PickGeneric.hxx:46-47`. -/
def pickRoundRobin (mode : StickyMode) (b : RoundRobinBalancer l.addresses.length) :
    Option (Nat × RoundRobinBalancer l.addresses.length) :=
  b.get fun i => l.checkAt now (mode == .none) i

/-- `PickGeneric`, `PickGeneric.hxx:17-48`: the position of the address, and the
balancer of the list. -/
def pickGeneric (mode : StickyMode) (stickyHash : Nat) (b : RoundRobinBalancer l.addresses.length) :
    Option (Nat × RoundRobinBalancer l.addresses.length) :=
  if l.addresses.length = 1 then some (0, b)
  else
    match mode with
    | .none => l.pickRoundRobin now mode b
    | .failover => some (l.pickFailover now, b)
    | .sourceIp | .host | .xhost | .sessionModulo | .cookie | .jvmRoute =>
      if stickyHash ≠ 0 then (l.pickModulo now stickyHash).map (·, b)
      else l.pickRoundRobin now mode b

variable {l now}

theorem check_mono {a : A} {b : Bool} (h : l.check now a b = true) :
    l.check now a true = true := by
  unfold check at h ⊢
  cases hf : l.failures a with
  | none => rfl
  | some f =>
    rw [hf] at h
    exact f.check_mono l.isExpired now h

theorem checkAt_mono {i : Nat} {b : Bool} (h : l.checkAt now b i = true) :
    l.checkAt now true i = true := by
  unfold checkAt at h ⊢
  cases ha : l.addresses[i]? with
  | none =>
    rw [ha] at h
    cases h
  | some a =>
    rw [ha] at h
    exact check_mono h

theorem checkAt_of_getElem? {i : Nat} {a : A} (h : l.addresses[i]? = some a) (b : Bool) :
    l.checkAt now b i = l.check now a b := by
  rw [checkAt, h]

variable (l : AddressList A E)

/-- What a sticky search around the list returns: a member that is up, or else the one it has
started with. -/
def Picked (now : E) (start : Nat) (i : Nat) : Prop :=
  l.checkAt now false i = true ∨
    i = start ∧ (l.checkAt now true i = true ∨
      ∀ j, j < l.addresses.length → l.checkAt now false j = false)

private theorem pickModuloLoop_spec (now : E) {s : Nat}
    (hs : s < l.addresses.length) (fuel : Nat) :
    ∀ k, k < l.addresses.length → l.addresses.length ≤ fuel + k →
      (∀ m, m < k → l.checkAt now false ((s + m) % l.addresses.length) = false) →
      ∃ i, l.pickModuloLoop now s fuel ((s + k) % l.addresses.length)
          (decide (k = 0)) = some i ∧ i < l.addresses.length ∧ l.Picked now s i := by
  induction fuel with
  | zero =>
    intro k hk hfu _
    omega
  | succ fuel ih =>
    intro k hk hfu hfa
    have hpo : 0 < l.addresses.length := Nat.zero_lt_of_lt hs
    rw [pickModuloLoop]
    by_cases hc : l.checkAt now (decide (k = 0)) ((s + k) % l.addresses.length) = true
    · rw [if_pos hc]
      refine ⟨_, rfl, Nat.mod_lt _ hpo, ?_⟩
      by_cases hk0 : k = 0
      · subst hk0
        exact .inr ⟨Nat.mod_eq_of_lt hs, .inl hc⟩
      · rw [decide_eq_false hk0] at hc
        exact .inl hc
    rw [if_neg hc, succ_add_mod hs]
    have hf' : ∀ m, m < k + 1 →
        l.checkAt now false ((s + m) % l.addresses.length) = false := by
      intro m hm
      by_cases hmk : m = k
      · subst hmk
        rw [← Bool.not_eq_true]
        intro hx
        apply hc
        cases hd : decide (m = 0) with
        | true => exact checkAt_mono hx
        | false => exact hx
      · exact hfa m (by omega)
    by_cases he : (s + (k + 1)) % l.addresses.length = s
    · -- around: all of them failed
      rw [if_pos he, he]
      refine ⟨s, rfl, hs, .inr ⟨rfl, .inr fun j hj => ?_⟩⟩
      have hk' : k + 1 = l.addresses.length := by
        rcases (add_mod_eq_self_iff hs (by omega)).mp he with h | h
        · omega
        · exact h
      obtain ⟨m, hm, rfl⟩ := exists_add_mod hs hj
      exact hf' m (by omega)
    · rw [if_neg he]
      have hk' : k + 1 ≠ l.addresses.length := fun h =>
        he ((add_mod_eq_self_iff hs (by omega)).mpr (.inr h))
      have hn := ih (k + 1) (by omega) (by omega) hf'
      rwa [decide_eq_false (Nat.succ_ne_zero k)] at hn

theorem pickModulo_spec (now : E) (h : 0 < l.addresses.length) (stickyHash : Nat) :
    ∃ i, l.pickModulo now stickyHash = some i ∧ i < l.addresses.length ∧
      l.Picked now (stickyHash % l.addresses.length) i := by
  have hs := Nat.mod_lt stickyHash h
  have hlo := pickModuloLoop_spec l now hs l.addresses.length 0 h (by omega)
    fun m hm => absurd hm (Nat.not_lt_zero m)
  rwa [Nat.add_zero, Nat.mod_eq_of_lt hs] at hlo

end AddressList

namespace RoundRobinBalancer

variable {n : Nat} {check : Nat → Bool}

private theorem getLoop_eq_good {first m : Nat} (hf : first < n) (hm : m < n)
    (hg : check ((first + m) % n) = true) (fuel : Nat) :
    ∀ (k : Nat) (b : RoundRobinBalancer n), k ≤ m → m < fuel + k → b.next = (first + (k + 1)) % n →
      (∀ j, k ≤ j → j < m → check ((first + j) % n) = false) →
      ∃ b', getLoop check first fuel ((first + k) % n) b = some ((first + m) % n, b') ∧
        b'.next = (first + (m + 1)) % n := by
  induction fuel with
  | zero =>
    intro k b hk hfu
    omega
  | succ fuel ih =>
    intro k b hk hfu hn hba
    rw [getLoop]
    by_cases he : k = m
    · subst he
      rw [if_pos hg]
      exact ⟨b, rfl, hn⟩
    have hc : ¬check ((first + k) % n) = true := by
      rw [hba k (le_refl k) (by omega)]
      decide
    -- the walk cannot be around yet
    have hb : (first + (k + 1)) % n ≠ first := by
      rw [ne_eq, add_mod_eq_self_iff hf (by omega)]
      omega
    rw [if_neg hc]
    simp only [step, hn]
    rw [if_neg hb]
    exact ih (k + 1) _ (by omega) (by omega) (succ_add_mod hf (k + 1))
      fun j hj hjm => hba j (by omega) hjm

private theorem getLoop_eq_bad {first : Nat} (hf : first < n) (hba : ∀ i, i < n → check i = false)
    (fuel : Nat) :
    ∀ (k : Nat) (b : RoundRobinBalancer n), k < n → n ≤ fuel + k → b.next = (first + (k + 1)) % n →
      ∃ b', getLoop check first fuel ((first + k) % n) b = some (first, b') ∧
        b'.next = (first + 1) % n := by
  induction fuel with
  | zero =>
    intro k b hk hfu
    omega
  | succ fuel ih =>
    intro k b hk hfu hn
    have hc : ¬check ((first + k) % n) = true := by
      rw [hba _ (Nat.mod_lt _ (Nat.zero_lt_of_lt hf))]
      decide
    rw [getLoop, if_neg hc]
    simp only [step, hn]
    by_cases he : k + 1 = n
    · have hb : (first + (k + 1)) % n = first :=
        (add_mod_eq_self_iff hf (by omega)).mpr (.inr he)
      rw [if_pos hb]
      refine ⟨_, rfl, ?_⟩
      show succ n ((first + (k + 1)) % n) = (first + 1) % n
      rw [hb, succ_eq_mod hf]
    · have hb : (first + (k + 1)) % n ≠ first := by
        rw [ne_eq, add_mod_eq_self_iff hf (by omega)]
        omega
      rw [if_neg hb]
      exact ih (k + 1) _ (by omega) (by omega) (succ_add_mod hf (k + 1))

/-- `Get` returns the next position that passes, and the cursor is behind it. -/
theorem get_eq_good {b : RoundRobinBalancer n} {m : Nat} (hm : m < n)
    (hg : check ((b.next + m) % n) = true) (hb : ∀ j, j < m → check ((b.next + j) % n) = false) :
    ∃ b', b.get check = some ((b.next + m) % n, b') ∧ b'.next = (b.next + (m + 1)) % n := by
  have hlo := getLoop_eq_good b.lt hm hg n 0 b.step.2 (Nat.zero_le m) hm
    (by simp only [step, succ_eq_mod b.lt]) fun j _ hj => hb j hj
  rwa [Nat.add_zero, Nat.mod_eq_of_lt b.lt] at hlo

/-- `Get` returns the next position if none passes, and the cursor is behind it. -/
theorem get_eq_bad {b : RoundRobinBalancer n} (hb : ∀ i, i < n → check i = false) :
    ∃ b', b.get check = some (b.next, b') ∧ b'.next = (b.next + 1) % n := by
  have hlo := getLoop_eq_bad b.lt hb n 0 b.step.2 (Nat.zero_lt_of_lt b.lt) (Nat.le_refl n)
    (by simp only [step, succ_eq_mod b.lt])
  rwa [Nat.add_zero, Nat.mod_eq_of_lt b.lt] at hlo

private theorem get_spec (b : RoundRobinBalancer n) (check : Nat → Bool) :
    ∃ i b', b.get check = some (i, b') ∧ i < n ∧
      (check i = true ∨ i = b.next ∧ ∀ j, j < n → check j = false) := by
  by_cases hg : ∃ m, m < n ∧ check ((b.next + m) % n) = true
  · -- the first one that passes
    obtain ⟨hm, hc⟩ := Nat.find_spec hg
    obtain ⟨b', hge, -⟩ := get_eq_good hm hc fun j hj => by
      have hn := Nat.find_min hg hj
      rw [not_and, Bool.not_eq_true] at hn
      exact hn (by omega)
    exact ⟨_, b', hge, Nat.mod_lt _ (Nat.zero_lt_of_lt b.lt), .inl hc⟩
  have hb (i : Nat) (hi : i < n) : check i = false := by
    obtain ⟨m, hm, rfl⟩ := exists_add_mod b.lt hi
    rw [← Bool.not_eq_true]
    exact fun hc => hg ⟨m, hm, hc⟩
  obtain ⟨b', hge, -⟩ := get_eq_bad (b := b) hb
  exact ⟨b.next, b', hge, b.lt, .inr ⟨rfl, hb⟩⟩

end RoundRobinBalancer

namespace AddressList

variable {A E : Type} {l : AddressList A E} {now : E} {i : Nat} {a : A}

theorem mem_of_checkAt {b : Bool} (h : l.checkAt now b i = true) :
    ∃ a ∈ l.addresses, l.check now a b = true := by
  unfold checkAt at h
  cases ha : l.addresses[i]? with
  | none =>
    rw [ha] at h
    cases h
  | some a =>
    rw [ha] at h
    exact ⟨a, mem_of_getElem? ha, h⟩

private theorem check_of_checkAt {b : Bool}
    (h : ∀ j, j < l.addresses.length → l.checkAt now b j = false) (ha : a ∈ l.addresses) :
    l.check now a b = false := by
  obtain ⟨j, hj⟩ := mem_iff_getElem?.mp ha
  rw [← checkAt_of_getElem? hj]
  exact h j (List.getElem?_eq_some_iff.mp hj).1

/-- The position a sticky search starts at. -/
def start (l : AddressList A E) (stickyHash : Nat) (b : RoundRobinBalancer l.addresses.length) :
    Nat :=
  if stickyHash ≠ 0 then stickyHash % l.addresses.length else b.next

/-- Nothing can go wrong: there is no choice, the mode is not sticky, there is a member that is up,
there is none that is merely fading, or the search starts at one that is not down. -/
def Safe (l : AddressList A E) (now : E) (mode : StickyMode) (stickyHash : Nat)
    (b : RoundRobinBalancer l.addresses.length) : Prop :=
  l.addresses.length = 1 ∨ mode = .none ∨ mode = .failover ∨ (∃ a ∈ l.addresses, l.Up now a) ∨
    (∀ a ∈ l.addresses, l.Down now a) ∨
    ∃ a, l.addresses[l.start stickyHash b]? = some a ∧ ¬ l.Down now a

private theorem Picked.down_iff {st : Nat} (h : l.Picked now st i)
    (ha : l.addresses[i]? = some a) :
    (l.Down now a → ∀ a' ∈ l.addresses, l.Down now a') ↔
      (∃ a ∈ l.addresses, l.Up now a) ∨ (∀ a ∈ l.addresses, l.Down now a) ∨
        ∃ a, l.addresses[st]? = some a ∧ ¬ l.Down now a := by
  have hat : ∀ b, l.checkAt now b i = l.check now a b := checkAt_of_getElem? ha
  constructor
  · intro hdo
    rcases h with hup | ⟨rfl, hpa | hn⟩
    · exact .inl (mem_of_checkAt hup)
    · refine .inr (.inr ⟨a, ha, fun hd => ?_⟩)
      rw [hat true, hd] at hpa
      cases hpa
    · by_cases hd : l.Down now a
      · exact .inr (.inl (hdo hd))
      · exact .inr (.inr ⟨a, ha, hd⟩)
  · intro hsa hd
    rcases h with hup | ⟨rfl, hpa | hn⟩
    · rw [hat false] at hup
      rw [Down, check_mono hup] at hd
      cases hd
    · rw [hat true, hd] at hpa
      cases hpa
    · rcases hsa with ⟨u, hu, hup⟩ | hal | ⟨s, hs, hns⟩
      · rw [Up, check_of_checkAt hn hu] at hup
        cases hup
      · exact hal
      · rw [ha] at hs
        cases hs
        exact absurd hd hns

private theorem pickFailover_spec (h : 0 < l.addresses.length) :
    ∃ a, l.addresses[l.pickFailover now]? = some a ∧
      (l.Down now a → ∀ a' ∈ l.addresses, l.Down now a') := by
  unfold pickFailover
  cases hfi : l.addresses.findIdx? fun a => l.check now a true with
  | none =>
    rw [findIdx?_eq_none_iff] at hfi
    exact ⟨_, getElem?_eq_getElem h, fun _ a' ha' => hfi a' ha'⟩
  | some i =>
    obtain ⟨hi, hc, -⟩ := findIdx?_eq_some_iff_getElem.mp hfi
    refine ⟨_, getElem?_eq_getElem hi, fun hd => ?_⟩
    rw [Down, hc] at hd
    cases hd

private theorem pickRoundRobin_none (b : RoundRobinBalancer l.addresses.length) :
    ∃ i b' a, l.pickRoundRobin now .none b = some (i, b') ∧ l.addresses[i]? = some a ∧
      (l.Down now a → ∀ a' ∈ l.addresses, l.Down now a') := by
  obtain ⟨i, b', hg, hi, hpi⟩ := b.get_spec fun i => l.checkAt now true i
  refine ⟨i, b', _, hg, getElem?_eq_getElem hi, fun hd a' ha' => ?_⟩
  rcases hpi with hpa | ⟨-, hn⟩
  · rw [checkAt_of_getElem? (getElem?_eq_getElem hi), hd] at hpa
    cases hpa
  · exact check_of_checkAt hn ha'

private theorem pickSticky_spec {mode : StickyMode} (hmo : mode ≠ .none) (s : Nat)
    (b : RoundRobinBalancer l.addresses.length) :
    ∃ i b', (if s ≠ 0 then (l.pickModulo now s).map (·, b)
        else l.pickRoundRobin now mode b) = some (i, b') ∧ i < l.addresses.length ∧
      l.Picked now (l.start s b) i := by
  unfold start
  by_cases hh : s ≠ 0
  · rw [if_pos hh, if_pos hh]
    obtain ⟨i, hi, hlt, hpi⟩ := l.pickModulo_spec now (Nat.zero_lt_of_lt b.lt) s
    exact ⟨i, b, by rw [hi]; rfl, hlt, hpi⟩
  rw [if_neg hh, if_neg hh]
  have hfa : (mode == .none) = false := by
    rw [beq_eq_false_iff_ne]
    exact hmo
  obtain ⟨i, b', hg, hlt, hpi⟩ := b.get_spec fun i => l.checkAt now false i
  refine ⟨i, b', ?_, hlt, hpi.imp_right fun hx => ⟨hx.1, .inr hx.2⟩⟩
  rw [pickRoundRobin, hfa]
  exact hg

end AddressList

open AddressList in
/-- `PickGeneric` always returns an address. It avoids one that is down while there is a better one
exactly under the condition `Safe`. -/
theorem pickGeneric_avoids_down_iff {A E : Type} (l : AddressList A E) (now : E)
    (mode : StickyMode) (stickyHash : Nat) (b : RoundRobinBalancer l.addresses.length) :
    ∃ i b' a, l.pickGeneric now mode stickyHash b = some (i, b') ∧ l.addresses[i]? = some a ∧
      ((l.Down now a → ∀ a' ∈ l.addresses, l.Down now a') ↔ l.Safe now mode stickyHash b) := by
  have hpo : 0 < l.addresses.length := Nat.zero_lt_of_lt b.lt
  by_cases ho : l.addresses.length = 1
  · -- the only one
    obtain ⟨a, ha⟩ := length_eq_one_iff.mp ho
    refine ⟨0, b, a, if_pos ho, by rw [ha]; rfl, ⟨fun _ => .inl ho, fun _ hd a' ha' => ?_⟩⟩
    rw [ha] at ha'
    rwa [mem_singleton.mp ha']
  have hst : mode ≠ .none → mode ≠ .failover →
      ∃ i b' a, (if stickyHash ≠ 0 then (l.pickModulo now stickyHash).map (·, b)
          else l.pickRoundRobin now mode b) = some (i, b') ∧ l.addresses[i]? = some a ∧
        ((l.Down now a → ∀ a' ∈ l.addresses, l.Down now a') ↔ l.Safe now mode stickyHash b) := by
    intro hnon hfa
    obtain ⟨i, b', hc, hi, hpi⟩ := pickSticky_spec (l := l) hnon stickyHash b
    refine ⟨i, b', _, hc, getElem?_eq_getElem hi, ?_⟩
    rw [hpi.down_iff (getElem?_eq_getElem hi), Safe]
    simp only [ho, hnon, hfa, false_or]
  unfold pickGeneric
  rw [if_neg ho]
  cases mode with
  | none =>
    obtain ⟨i, b', a, hc, ha, hdo⟩ := pickRoundRobin_none b
    exact ⟨i, b', a, hc, ha, fun _ => .inr (.inl rfl), fun _ => hdo⟩
  | failover =>
    obtain ⟨a, ha, hdo⟩ := pickFailover_spec hpo
    exact ⟨_, b, a, rfl, ha, fun _ => .inr (.inr (.inl rfl)), fun _ => hdo⟩
  | sourceIp | host | xhost | sessionModulo | cookie | jvmRoute => exact hst (by decide) (by decide)

/-- Two members: the first one cannot be connected to, the second one is fading. -/
def downAndFading : AddressList Bool Nat where
  addresses := [false, true]
  failures
    | false => some { fadeExpires := 0, protocolExpires := 0, connectExpires := 9 }
    | true => some { fadeExpires := 9, protocolExpires := 0, connectExpires := 0 }
  isExpired e now := decide (e ≤ now)

/-- Both sticky algorithms return the first one, which is down, instead of the second one. -/
theorem pickGeneric_returns_down :
    (downAndFading.pickGeneric 1 .sessionModulo 2 ⟨0, by decide⟩).map (·.1) = some 0 ∧
      (downAndFading.pickGeneric 1 .sessionModulo 0 ⟨0, by decide⟩).map (·.1) = some 0 ∧
      downAndFading.addresses[0]? = some false ∧ downAndFading.Down 1 false ∧
      true ∈ downAndFading.addresses ∧ ¬ downAndFading.Down 1 true := by
  decide

end BengProxy.Cluster
