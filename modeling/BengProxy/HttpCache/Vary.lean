import BengProxy.HttpCache.Rfc

/-!
# Variants of a response

A stored response remembers the values of the request headers that its `Vary` headers list, and it
fits a request that has the same values. The list is cut off after 64 items, and a `"*"` that is
not the whole header is taken for a name.
-/

namespace BengProxy.HttpCaching

open Base Text List StringMap

variable (lib : CacheLib)

/-- The names that are copied from a joined list. -/
def varyNames : Option Text → List Text
  | none => []
  | some vary => httpListSplit lib vary

/-- The request headers that a stored response remembers, `src/http/cache/Document.cxx:17-19`. -/
def storedVary (vary : Option Text) (requestHeaders : StringMap) : StringMap :=
  match vary with
  | none => []
  | some vary => httpCacheCopyVary lib vary requestHeaders

/-- The field names that the `Vary` headers of a response list. -/
def varyMembers (headers : StringMap) : List Text :=
  (headers.values (ascii "vary")).flatMap fun value =>
    ((members lib value).map (·.map lower)).filter (· ≠ [])

/-- The two requests have the same values of all fields that the response depends on, and the
response does not depend on more than that. -/
def SameVariant (response r r' : StringMap) : Prop :=
  ∀ name ∈ varyMembers lib response,
    name ≠ ascii "*" ∧ fieldValue lib r name = fieldValue lib r' name
  deriving Decidable

/-- All field names are among those that are copied, and none of them is `"*"`. -/
def VaryComplete (response : StringMap) (vary : Option Text) : Prop :=
  ∀ name ∈ varyMembers lib response, name ≠ ascii "*" ∧ name ∈ varyNames lib vary
  deriving Decidable

variable {lib}

private theorem mem_foldl_set {r : StringMap} {n : List Text} :
    ∀ {dest : StringMap}, (∀ i ∈ dest, i.2 = fieldValue lib r i.1) → ∀ i : Text × Text,
      i ∈ n.foldl
          (fun dest name => set lib.toLookup dest name (fieldValue lib r name)) dest ↔
        i ∈ dest ∨ i.1 ∈ n ∧ i.2 = fieldValue lib r i.1 := by
  induction n with
  | nil =>
    intro dest _ i
    simp
  | cons name n ih =>
    intro dest hd i
    rw [foldl_cons]
    cases hg : get lib.toLookup dest name with
    | none =>
      have hse : set lib.toLookup dest name (fieldValue lib r name) =
          dest ++ [(name, fieldValue lib r name)] := by
        rw [StringMap.set, hg]
        rfl
      have hd' : ∀ i ∈ dest ++ [(name, fieldValue lib r name)], i.2 = fieldValue lib r i.1 := by
        intro i hi
        rcases mem_append.mp hi with hi | hi
        · exact hd i hi
        · rw [mem_singleton.mp hi]
      rw [hse, ih hd' i, mem_append, mem_singleton, mem_cons]
      constructor
      · rintro ((h | rfl) | ⟨hme, he⟩)
        · exact .inl h
        · exact .inr ⟨.inl rfl, rfl⟩
        · exact .inr ⟨.inr hme, he⟩
      · rintro (h | ⟨hna | hme, he⟩)
        · exact .inl (.inl h)
        · refine .inl (.inr ?_)
          rw [← hna, ← he]
        · exact .inr ⟨hme, he⟩
    | some old =>
      -- the same name again: the value is the same, too
      have ho : (name, old) ∈ dest := mem_of_get hg
      have hse : set lib.toLookup dest name (fieldValue lib r name) = dest := by
        rw [StringMap.set, hg, ← hd (name, old) ho]
        exact replace_self name old dest
      rw [hse, ih hd i, mem_cons]
      constructor
      · rintro (h | ⟨hme, he⟩)
        · exact .inl h
        · exact .inr ⟨.inr hme, he⟩
      · rintro (h | ⟨hna | hme, he⟩)
        · exact .inl h
        · refine .inl ?_
          have hi : i = (name, old) :=
            Prod.ext hna (he.trans (by rw [hna]; exact (hd (name, old) ho).symm))
          rw [hi]
          exact ho
        · exact .inr ⟨hme, he⟩

private theorem httpCacheVaryFits_storedVary {vary : Option Text} {r r' : StringMap} :
    httpCacheVaryFits lib (storedVary lib vary r) r' = true ↔
      ∀ name ∈ varyNames lib vary, fieldValue lib r name = fieldValue lib r' name := by
  cases vary with
  | none => simp [storedVary, varyNames, httpCacheVaryFits]
  | some vary =>
    have hme : ∀ i, i ∈ httpCacheCopyVary lib vary r ↔
        i ∈ [] ∨ i.1 ∈ httpListSplit lib vary ∧ i.2 = fieldValue lib r i.1 :=
      mem_foldl_set fun i hi => absurd hi not_mem_nil
    rw [httpCacheVaryFits, all_eq_true]
    constructor
    · intro h name hna
      have hi := h (name, fieldValue lib r name) ((hme _).mpr (.inr ⟨hna, rfl⟩))
      exact beq_iff_eq.mp hi
    · intro h i hi
      rcases (hme i).mp hi with hi | ⟨hna, he⟩
      · exact absurd hi not_mem_nil
      · rw [he, h i.1 hna]
        exact beq_self_eq_true _

private theorem exists_other_value (lib : CacheLib) (r : StringMap) (name : Text) :
    ∃ r' : StringMap, fieldValue lib r name ≠ fieldValue lib r' name ∧
      ∀ name', name' ≠ name → fieldValue lib r name' = fieldValue lib r' name' := by
  refine ⟨r.secureSet name (0 :: fieldValue lib r name), ?_, fun name' hne => ?_⟩
  · have hva : (r.secureSet name (0 :: fieldValue lib r name)).values name =
        [0 :: fieldValue lib r name] := by
      unfold secureSet add values
      simp
    obtain ⟨v, hv, hfi⟩ := lib.find_mem (cons_ne_nil (0 :: fieldValue lib r name) [])
    rw [mem_singleton.mp hv] at hfi
    have hg : (r.secureSet name (0 :: fieldValue lib r name)).get lib.toLookup name =
        some (0 :: fieldValue lib r name) := by
      rw [StringMap.get, hva, hfi]
    have hvl : fieldValue lib (r.secureSet name (0 :: fieldValue lib r name)) name =
        0 :: fieldValue lib r name := by
      rw [fieldValue, hg, Option.getD_some]
    intro he
    rw [hvl] at he
    exact cons_ne_self 0 _ he.symm
  · rw [fieldValue, fieldValue, StringMap.get, StringMap.get, StringMap.values_secureSet hne]

/-- The requests that a stored response fits are the same variant exactly if no field name was
lost. -/
theorem varyComplete_iff {response r : StringMap} {vary : Option Text} :
    (∀ r', httpCacheVaryFits lib (storedVary lib vary r) r' = true →
      SameVariant lib response r r') ↔ VaryComplete lib response vary := by
  simp only [httpCacheVaryFits_storedVary]
  constructor
  · intro h name hna
    refine ⟨(h r (fun _ _ => rfl) name hna).1, ?_⟩
    by_contra hlo
    obtain ⟨r', hne, hsa⟩ := exists_other_value lib r name
    refine hne (h r' (fun name' hn' => hsa name' ?_) name hna).2
    exact fun he => hlo (he ▸ hn')
  · intro h r' hfi name hna
    exact ⟨(h name hna).1, hfi name (h name hna).2⟩

end BengProxy.HttpCaching
