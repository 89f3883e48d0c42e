import BengProxy.Memory.RubberSession

/-!
# The rubber allocator as a map of byte strings

What the allocator is for: a finite map from ids to byte strings. The map knows nothing about
offsets, so neither does it see that `Add`, `Remove`, `Shrink` and `Compress` move objects and
write hole headers. A forward simulation shows that every session behaves like the map.
-/

namespace BengProxy.Memory

open Base List Session Option

/-- The byte strings of all objects; a byte that was never written is `none`. -/
def Contents : Type := Nat → Option (List (Option UInt8))

namespace Contents

/-- No objects. -/
def empty : Contents := fun _ => none

/-- Assign the byte string of one object, or remove it. -/
def set (m : Contents) (id : Nat) (bytes : Option (List (Option UInt8))) : Contents :=
  fun k => if k = id then bytes else m k

/-- The calls, as operations on the map. Objects may be larger than requested. -/
inductive Step : Contents → Call → Contents → Prop where
  | addFail (m : Contents) (size : Nat) : Step m (.add size) m
  | add (m : Contents) (size id n : Nat) (hfresh : m id = none) (hid : id ≠ 0) (hn : size ≤ n) :
      Step m (.add size) (m.set id (some (List.replicate n none)))
  | remove (m : Contents) (id : Nat) : Step m (.remove id) (m.set id none)
  | shrink (m : Contents) (id newSize n : Nat) (bytes : List (Option UInt8))
      (hm : m id = some bytes) (hn : newSize ≤ n) :
      Step m (.shrink id newSize) (m.set id (some (bytes.take n)))
  | compress (m : Contents) : Step m .compress m
  | write (m : Contents) (id position : Nat) (data : List UInt8) (bytes : List (Option UInt8))
      (hm : m id = some bytes) :
      Step m (.write id position data) (m.set id (some (overwrite bytes position (data.map some))))

theorem set_self (m : Contents) (id : Nat) (bytes : Option (List (Option UInt8))) :
    m.set id bytes id = bytes := if_pos rfl

theorem set_of_ne (m : Contents) {id k : Nat} (bytes : Option (List (Option UInt8)))
    (h : k ≠ id) : m.set id bytes k = m k := if_neg h

end Contents

/-- A cell of the memory map shows a byte of the map; any cell shows one never written. -/
def Shows : Option UInt8 → Cell Hole → Prop
  | none, _ => True
  | some b, c => c = .byte b

/-- The live objects are those of the map, and reading one gives its byte string. -/
structure Refines (s : Session) (m : Contents) : Prop where
  live_iff : ∀ id, id ∈ s.live ↔ (m id).isSome
  reads : ∀ id bytes, m id = some bytes → List.Forall₂ Shows bytes (s.rubber.read id)

private theorem forall₂_replicate (cs : List (Cell Hole)) :
    List.Forall₂ Shows (List.replicate cs.length none) cs := by
  induction cs with
  | nil => exact .nil
  | cons c cs ih => exact .cons True.intro ih

private theorem forall₂_bytes (data : List UInt8) :
    List.Forall₂ Shows (data.map some) (data.map Cell.byte) := by
  induction data with
  | nil => exact .nil
  | cons b data ih => exact .cons rfl ih

private theorem forall₂_overwrite {b data : List (Option UInt8)} {cs ds : List (Cell Hole)}
    (h : List.Forall₂ Shows b cs) (hd : List.Forall₂ Shows data ds) (p : Nat) :
    List.Forall₂ Shows (overwrite b p data) (overwrite cs p ds) := by
  rw [overwrite, hd.length_eq]
  exact rel_append (rel_append (forall₂_take _ h) hd) (forall₂_drop _ h)

namespace Refines

variable {s s' : Session} {m : Contents}

private theorem of_sameReads (h : Refines s m) (hl : s'.live = s.live)
    (hr : s.SameReads s' fun _ => False) : Refines s' m where
  live_iff id := by rw [hl]; exact h.live_iff id
  reads id bytes hm := by
    rw [hr id ((h.live_iff id).mpr (by rw [hm]; rfl)) not_false]
    exact h.reads id bytes hm

private theorem set (h : Refines s m) {id : Nat} {bt : Option (List (Option UInt8))}
    (hl : ∀ k, k ≠ id → (k ∈ s'.live ↔ k ∈ s.live)) (hid : id ∈ s'.live ↔ bt.isSome)
    (hr : s.SameReads s' (· = id))
    (hb : ∀ b, bt = some b → List.Forall₂ Shows b (s'.rubber.read id)) :
    Refines s' (m.set id bt) where
  live_iff k := by
    by_cases hk : k = id
    · subst hk
      rw [Contents.set_self]
      exact hid
    · rw [Contents.set_of_ne _ _ hk, hl k hk]
      exact h.live_iff k
  reads k bytes' hm := by
    by_cases hk : k = id
    · subst hk
      rw [Contents.set_self] at hm
      exact hb bytes' hm
    · rw [Contents.set_of_ne _ _ hk] at hm
      rw [hr k ((h.live_iff k).mpr (by rw [hm]; rfl)) hk]
      exact h.reads k bytes' hm

private theorem set_live (h : Refines s m) {id : Nat} {b : List (Option UInt8)}
    (hid : id ∈ s.live)
    (hl : s'.live = s.live) (hr : s.SameReads s' (· = id))
    (hb : List.Forall₂ Shows b (s'.rubber.read id)) : Refines s' (m.set id (some b)) := by
  refine h.set (fun k _ => by rw [hl]) ⟨fun _ => rfl, fun _ => by rwa [hl]⟩ hr ?_
  rintro _ ⟨⟩
  exact hb

private theorem step {c : Call} (h : Refines s m) (hn : s.live.Nodup) (ha : s.Allowed c)
    (he : s.Effect c s') : ∃ m', m.Step c m' ∧ Refines s' m' := by
  cases c with
  | add size =>
    obtain ⟨hl | ⟨id, h0, hw, hl, hsz⟩, hr⟩ := he
    · exact ⟨m, .addFail m size, h.of_sameReads hl hr⟩
    have hf : m id = none := by
      rw [← not_isSome_iff_eq_none, ← h.live_iff]
      exact hw
    refine ⟨_, .add m size id (alignSize size) hf h0 (le_alignSize size), h.set ?_ ?_ ?_ ?_⟩
    · intro k hk
      rw [hl, mem_cons, or_iff_right hk]
    · simp [hl]
    · exact fun k hk _ => hr k hk not_false
    · rintro _ ⟨⟩
      rw [← hsz, ← length_read]
      exact forall₂_replicate _
  | remove id =>
    refine ⟨_, .remove m id, h.set ?_ ?_ he.2 (by rintro _ ⟨⟩)⟩
    · intro k hk
      rw [he.1, hn.mem_erase_iff, and_iff_right hk]
    · simp [he.1, hn.mem_erase_iff]
  | shrink id newSize =>
    obtain ⟨hl, hb, hr⟩ := he
    obtain ⟨bytes, hm⟩ := isSome_iff_exists.mp ((h.live_iff id).mp ha.1)
    refine ⟨_, .shrink m id newSize _ bytes hm (le_alignSize newSize), h.set_live ha.1 hl hr ?_⟩
    rw [hb]
    exact forall₂_take _ (h.reads id bytes hm)
  | compress => exact ⟨m, .compress m, h.of_sameReads he.1 he.2⟩
  | write id position data =>
    obtain ⟨hl, hb, hr⟩ := he
    obtain ⟨bytes, hm⟩ := isSome_iff_exists.mp ((h.live_iff id).mp ha.1)
    refine ⟨_, .write m id position data bytes hm, h.set_live ha.1 hl hr ?_⟩
    rw [hb]
    exact forall₂_overwrite (h.reads id bytes hm) (forall₂_bytes data) position

end Refines

end BengProxy.Memory
