import BengProxy.Base.Text

/-!
# Header maps

Models `StringMap`, `src/strmap.cxx`: a multimap of strings. It is a hash trie in the source; which
one of several items with the same key is found by a lookup is up to the trie.
-/

namespace BengProxy

open Base List

/-- The lookup of the trie: one of the values of a key, if there is one. -/
structure Lookup where
  find : List Text → Option Text
  find_nil : find [] = none
  find_mem : ∀ {values}, values ≠ [] → ∃ v ∈ values, find values = some v

/-- The trie that returns the value that was added first. -/
def Lookup.first : Lookup where
  find := List.head?
  find_nil := rfl
  find_mem {values} h := by
    cases values with
    | nil => exact absurd rfl h
    | cons v values => exact ⟨v, mem_cons_self, rfl⟩

/-- `StringMap`, `src/strmap.hxx:31-104`: the items in the order in which they were added. -/
abbrev StringMap := List (Text × Text)

namespace StringMap

/-- All values of a key, `StringMap::EqualRange` in `src/strmap.cxx`. -/
def values (m : StringMap) (key : Text) : List Text := (m.filter (·.1 = key)).map (·.2)

/-- `StringMap::Add`, `strmap.cxx:59-65`. -/
def add (m : StringMap) (key value : Text) : StringMap := m ++ [(key, value)]

/-- `StringMap::Get` in `src/strmap.cxx`. -/
def get (l : Lookup) (m : StringMap) (key : Text) : Option Text := l.find (m.values key)

/-- `StringMap::Contains`, `src/strmap.hxx:190-193`. -/
def contains (l : Lookup) (m : StringMap) (key : Text) : Bool := (m.get l key).isSome

/-- Change the value of the first item with this key and value. -/
def replace (key old value : Text) : StringMap → StringMap
  | [] => []
  | i :: m => if i = (key, old) then (key, value) :: m else i :: replace key old value m

/-- `StringMap::Set`, `strmap.cxx:67-79`: the value of the item that is found is changed. -/
def set (l : Lookup) (m : StringMap) (key value : Text) : StringMap :=
  match m.get l key with
  | none => m.add key value
  | some old => replace key old value m

/-- `StringMap::Remove`, `strmap.cxx:81-91`: the value of the item that is found, and the map
without it. -/
def remove (l : Lookup) (m : StringMap) (key : Text) : Option Text × StringMap :=
  match m.get l key with
  | none => (none, m)
  | some value => (some value, m.erase (key, value))

/-- `StringMap::SecureSet` with a value, `strmap.cxx:104-124`. -/
def secureSet (m : StringMap) (key value : Text) : StringMap :=
  add (m.filter (·.1 ≠ key)) key value

/-- A key has no value in the map if nothing is found. -/
theorem get_eq_none_iff {l : Lookup} {m : StringMap} {key : Text} :
    m.get l key = none ↔ m.values key = [] := by
  unfold get
  constructor
  · intro h
    by_contra hne
    obtain ⟨v, -, hv⟩ := l.find_mem hne
    rw [h] at hv
    cases hv
  · intro h
    rw [h, l.find_nil]

theorem mem_of_get {l : Lookup} {m : StringMap} {key value : Text} (h : m.get l key = some value) :
    (key, value) ∈ m := by
  have hne : m.values key ≠ [] := by
    intro hni
    rw [get_eq_none_iff.mpr hni] at h
    cases h
  obtain ⟨v, hv, hfi⟩ := l.find_mem hne
  rw [get, hfi] at h
  cases h
  obtain ⟨i, hi, rfl⟩ := mem_map.mp hv
  obtain ⟨hme, hke⟩ := mem_filter.mp hi
  have he : i.1 = key := of_decide_eq_true hke
  rw [← he]
  exact hme

theorem replace_self (key value : Text) (m : StringMap) : replace key value value m = m := by
  induction m with
  | nil => rfl
  | cons i m ih =>
    rw [replace]
    split
    next h => rw [h]
    · rw [ih]

theorem values_secureSet {m : StringMap} {key key' : Text} (h : key' ≠ key) (value : Text) :
    (m.secureSet key value).values key' = m.values key' := by
  have hn : [(key, value)].filter (fun i : Text × Text => decide (i.1 = key')) = [] :=
    filter_cons_of_neg (by simpa using fun hx => h hx.symm)
  unfold secureSet add values
  rw [filter_append, filter_filter, hn, append_nil]
  congr 1
  apply filter_congr
  intro i _
  by_cases hi : i.1 = key'
  · simp [hi, h]
  · simp [hi]

theorem values_add {m : StringMap} {key key' : Text} (h : key' ≠ key) (value : Text) :
    (m.add key value).values key' = m.values key' := by
  have hn : [(key, value)].filter (fun i : Text × Text => decide (i.1 = key')) = [] :=
    filter_cons_of_neg (by simpa using fun hx => h hx.symm)
  unfold add values
  rw [filter_append, hn, append_nil]

end StringMap
end BengProxy
