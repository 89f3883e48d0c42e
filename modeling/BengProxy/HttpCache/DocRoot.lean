import BengProxy.Address.Resource
import BengProxy.HttpCache.Freshness

/-!
# Document roots in cache keys

For Local HTTP, the key of a request contains the hash of its document root and not the document
root itself, and what is put before the id of the address is not escaped.
-/

namespace BengProxy.HttpCaching

open Base Text Address List HttpCache Option

/-- The part of a key for the document root, `src/http/cache/Public.cxx:1189-1192`. -/
def docrootMark (format : UInt64 → Text) (docrootHash : Option UInt64) : Text :=
  docrootHash.elim [] fun docrootHash => format docrootHash ++ ascii "=dr;"

/-- The document root of a request. -/
def StartParams.docroot (lib : CacheLib) (p : StartParams) : Option Text :=
  p.request.headers.get lib.toLookup (ascii "x-cm4all-docroot")

/-- The id does not begin like a part that `Start()` puts before it. -/
structure Unmarked (format : UInt64 → Text) (id : Text) : Prop where
  https : ¬ ascii "https;" <+: id
  docroot : ∀ n, ¬ format n ++ ascii "=dr;" <+: id

section

variable {lib : CacheLib} {format : UInt64 → Text} {p q : StartParams} {id id' : Text}

private theorem requestKey_eq
    (hfo : ∀ docroot, lib.docrootBase32 docroot = format (djbHash.hash docroot))
    (hp : p.lhttp = true) :
    requestKey lib p id = (if isHttps lib p.request.headers then ascii "https;" else []) ++
      (docrootMark format ((p.docroot lib).map djbHash.hash) ++ id) := by
  rw [requestKey, if_pos hp, docrootMark, StartParams.docroot, ← append_assoc]
  cases p.request.headers.get lib.toLookup (ascii "x-cm4all-docroot") with
  | none => rfl
  | some docroot => simp [hfo]

private theorem cut_docroot {n : UInt64} (hse : 0x3b ∉ format n) (rest : Text) :
    cut 0x3b (format n ++ ascii "=dr;" ++ rest) = some (format n ++ ascii "=dr", rest) := by
  have hno : (0x3b : UInt8) ∉ format n ++ ascii "=dr" := by simp [hse, ascii]
  rw [← cut_append hno rest]
  simp [ascii]

private theorem https_ne_docroot (hse : ∀ n, 0x3b ∉ format n) (hid : Unmarked format id)
    (hash : Option UInt64) (rest : Text) :
    ascii "https;" ++ rest ≠ docrootMark format hash ++ id := by
  intro h
  cases hash with
  | none => exact hid.https ⟨rest, h⟩
  | some n =>
    have hcu := congrArg (cut 0x3b) h
    have hl : ascii "https;" ++ rest = ascii "https" ++ 0x3b :: rest := rfl
    rw [hl, cut_append (by decide), docrootMark, elim_some, cut_docroot (hse n)] at hcu
    have hla : some (0x73 : UInt8) = some 0x72 := by
      simpa [ascii] using congrArg List.getLast? (Prod.mk.inj (some.inj hcu)).1
    exact absurd hla (by decide)

private theorem docrootMark_inj (hin : Function.Injective format) (hse : ∀ n, 0x3b ∉ format n)
    (hid : Unmarked format id) (hid' : Unmarked format id') {hash hash' : Option UInt64}
    (h : docrootMark format hash ++ id = docrootMark format hash' ++ id') :
    hash = hash' ∧ id = id' := by
  cases hash with
  | none =>
    cases hash' with
    | none => exact ⟨rfl, h⟩
    | some n => exact absurd ⟨id', h.symm⟩ (hid.docroot n)
  | some n =>
    cases hash' with
    | none => exact absurd ⟨id, h⟩ (hid'.docroot n)
    | some n' =>
      have hcu := congrArg (cut 0x3b) h
      rw [docrootMark, docrootMark, elim_some, elim_some, cut_docroot (hse n),
        cut_docroot (hse n')] at hcu
      obtain ⟨hf, hi⟩ := Prod.mk.inj (some.inj hcu)
      exact ⟨congrArg some (hin (append_cancel_right hf)), hi⟩

/-- Two requests with the same key and with ids that do not begin like a mark agree in the document
root, in HTTPS and in the id of the address if and only if document roots with the same hash are the
same. -/
theorem requestKey_agree_iff (hin : Function.Injective format) (hse : ∀ n, 0x3b ∉ format n)
    (hfo : ∀ docroot, lib.docrootBase32 docroot = format (djbHash.hash docroot))
    (hp : p.lhttp = true) (hq : q.lhttp = true)
    (hid : Unmarked format id) (hid' : Unmarked format id')
    (hk : requestKey lib p id = requestKey lib q id') :
    (p.docroot lib = q.docroot lib ∧
      isHttps lib p.request.headers = isHttps lib q.request.headers ∧ id = id') ↔
    ∀ d d', p.docroot lib = some d → q.docroot lib = some d' →
      djbHash.hash d = djbHash.hash d' → d = d' := by
  constructor
  · rintro ⟨hd, -, -⟩ d d' hpd hqd _
    rw [hpd, hqd] at hd
    exact some.inj hd
  intro hco
  rw [requestKey_eq hfo hp, requestKey_eq hfo hq] at hk
  have hht : isHttps lib p.request.headers = isHttps lib q.request.headers := by
    cases hph : isHttps lib p.request.headers <;> cases hqh : isHttps lib q.request.headers
    · rfl
    · rw [hph, hqh] at hk
      exact absurd hk.symm (https_ne_docroot hse hid _ _)
    · rw [hph, hqh] at hk
      exact absurd hk (https_ne_docroot hse hid' _ _)
    · rfl
  rw [hht] at hk
  obtain ⟨hha, hi⟩ := docrootMark_inj hin hse hid hid' (append_cancel_left hk)
  refine ⟨?_, hht, hi⟩
  cases hpd : p.docroot lib with
  | none =>
    rw [hpd] at hha
    exact (map_eq_none_iff.mp hha.symm).symm
  | some d =>
    rw [hpd] at hha
    obtain ⟨d', hqd, he⟩ := map_eq_some_iff.mp hha.symm
    rw [hqd, hco d d' hpd hqd he.symm]

end

/-- A library that writes the hash as so many zeros. -/
def unaryLib : CacheLib :=
  { plainLib with docrootBase32 := fun docroot => replicate (djbHash.hash docroot).toNat 0x30 }

/-- A request for Local HTTP. -/
def lhttpGet (docroot : String) : StartParams :=
  { plainGet [(ascii "x-cm4all-docroot", ascii docroot)] with lhttp := true }

private theorem injective_zeros :
    Function.Injective fun n : UInt64 => replicate n.toNat (0x30 : UInt8) := by
  intro n n' h
  exact UInt64.toNat_inj.mp (by simpa using congrArg List.length h)

/-- Two requests for one document root, one of which has another header and another tag. -/
theorem requestKey_agree_header :
    let p := lhttpGet "/Az"
    let q : StartParams :=
      { plainGet [(ascii "accept", ascii "*"), (ascii "x-cm4all-docroot", ascii "/Az")] with
        lhttp := true, tag := some (ascii "t") }
    p ≠ q ∧ p.docroot unaryLib = q.docroot unaryLib ∧
      isHttps unaryLib p.request.headers = isHttps unaryLib q.request.headers := by
  intro p q
  have hid : Unmarked (fun n => replicate n.toNat 0x30) (ascii "k") := by
    refine ⟨by decide, fun n hn => ?_⟩
    have hle := hn.length_le
    simp [ascii] at hle
  have hk : requestKey unaryLib p (ascii "k") = requestKey unaryLib q (ascii "k") := rfl
  obtain ⟨hd, hht, -⟩ := (requestKey_agree_iff injective_zeros
    (fun n hm => absurd (eq_of_mem_replicate hm) (by decide)) (fun _ => rfl) rfl rfl hid hid hk).mpr
    fun d d' hpd hqd _ => some.inj (hpd.symm.trans hqd)
  exact ⟨by decide, hd, hht⟩

/-- The document roots `/Az` and `/BY` have the same hash, and so the same keys. -/
theorem requestKey_confuses :
    requestKey unaryLib (lhttpGet "/Az") (ascii "k") =
        requestKey unaryLib (lhttpGet "/BY") (ascii "k") ∧
      (lhttpGet "/Az").docroot unaryLib ≠ (lhttpGet "/BY").docroot unaryLib := by
  have hke (docroot : String) : requestKey unaryLib (lhttpGet docroot) (ascii "k") =
      replicate (djbHash.hash (ascii docroot)).toNat 0x30 ++ ascii "=dr;" ++ ascii "k" := rfl
  have hha : djbHash.hash (ascii "/Az") = djbHash.hash (ascii "/BY") := by decide
  refine ⟨?_, by decide⟩
  rw [hke, hke, hha]

end BengProxy.HttpCaching
