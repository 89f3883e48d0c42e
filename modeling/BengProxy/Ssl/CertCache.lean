import BengProxy.Base.Run
import BengProxy.Base.Text
import Mathlib.Data.List.Dedup

/-!
# The cache of certificates

Models the lookups of `src/ssl/Cache.cxx` in a database that does not change. The cache is asked
for the wildcard of a host before the database is asked for the host.
-/

namespace BengProxy.Ssl

open Base Text List

/-- What the cache reads of a certificate. -/
structure Certificate where
  commonName : Text
  altNames : List Text
  deriving DecidableEq

/-- All names of a certificate. -/
def Certificate.names (c : Certificate) : List Text := c.commonName :: c.altNames

/-- `CoGetServerCertificateKey` finds a certificate by one of its names, which is one that
`CertNameCache::Lookup` knows. -/
structure CertDatabase where
  get : Text → Text → Option Certificate
  lookup : Text → Bool
  mem_names : ∀ special name c, get special name = some c → name ∈ c.names
  lookup_eq : ∀ special name c, get special name = some c → lookup name = true

/-- `MakeCommonNameWildcard`, `src/certdb/Wildcard.cxx:9-27`; missing if it is empty. -/
def makeCommonNameWildcard (s : Text) : Option Text :=
  let (start, p) := splitWhile s fun ch => ch == 0x2e || ch == 0x2a
  if start ≠ [] ∧ start.getLast? ≠ some 0x2e then none
  else (cut 0x2e p).map fun (_, rest) => start ++ 0x2a :: 0x2e :: rest

/-- Look for a name, and then for its wildcard, `Cache.cxx:112-129, 475-482`. -/
def maybeWildcard (get : Text → Option Certificate) (name : Text) : Option Certificate :=
  (get name).or ((makeCommonNameWildcard name).bind get)

/-- `CertCache::Item`, without the time. -/
structure Item where
  cert : Certificate
  special : Text

/-- `CertCache::map`. -/
abbrev CertMap := List (Text × Item)

/-- `Add`, `Cache.cxx:291-321`. -/
def CertMap.add (m : CertMap) (cert : Certificate) (special : Text) : CertMap :=
  m ++ (cert.commonName :: cert.altNames.dedup.filter (· ≠ cert.commonName)).map
    fun name => (name, ⟨cert, special⟩)

/-- `GetNoWildCardCached`, `Cache.cxx:324-341`. -/
def CertMap.getNoWildCardCached (m : CertMap) (special host : Text) : Option Certificate :=
  (m.find? fun e => e.1 = host ∧ e.2.special = special).map (·.2.cert)

variable (db : CertDatabase) (special : Text)

/-- The certificate that `Apply`, `Cache.cxx:444-493`, or the query it schedules selects. -/
def apply (m : CertMap) (host : Text) : Option Certificate :=
  (maybeWildcard (m.getNoWildCardCached special) host).or <|
    if db.lookup host || (makeCommonNameWildcard host).any db.lookup then
      maybeWildcard (db.get special) host
    else none

/-- What changes the map: the end of a query, and time. -/
inductive Event where
  | query (special host : Text)
  | expire

/-- Items with the same name are in no particular order. -/
def Step (m : CertMap) : Event → CertMap → Prop
  | .query special host, m' =>
    ∃ cert, maybeWildcard (db.get special) host = some cert ∧ m'.Perm (m.add cert special)
  | .expire, m' => m'.Sublist m

variable {db special} {m : CertMap} {host : Text} {events : List Event} {c : Certificate}

private theorem mem_names_of_run (h : Run (Step db) [] events m) :
    ∀ e ∈ m, e.1 ∈ e.2.cert.names := by
  apply h.invariant
  · exact forall_mem_nil _
  · rintro m (⟨special, host⟩ | _) m' hm hst e he
    · obtain ⟨cert, -, hp⟩ := hst
      rcases mem_append.mp (hp.subset he) with he | he
      · exact hm e he
      · obtain ⟨name, hna, rfl⟩ := mem_map.mp he
        rcases mem_cons.mp hna with rfl | hna
        · exact mem_cons_self
        · exact mem_cons_of_mem _ (mem_dedup.mp (mem_of_mem_filter hna))
    · exact hm e (hst.subset he)

private theorem mem_names_of_cached (hru : Run (Step db) [] events m)
    (hc : m.getNoWildCardCached special host = some c) : host ∈ c.names := by
  obtain ⟨e, he, rfl⟩ := Option.map_eq_some_iff.mp hc
  have hho : e.1 = host ∧ e.2.special = special := by simpa using find?_some he
  rw [← hho.1]
  exact mem_names_of_run hru e (mem_of_find?_eq_some he)

/-- A certificate for `a.b`, and one for all names below `b`. -/
def exampleDatabase : CertDatabase where
  get _ name := [⟨ascii "a.b", []⟩, ⟨ascii "*.b", []⟩].find? (·.names.contains name)
  lookup _ := true
  mem_names _ _ _ h := by simpa using find?_some h
  lookup_eq _ _ _ _ := rfl

end BengProxy.Ssl
