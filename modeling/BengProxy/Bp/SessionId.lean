import BengProxy.Bp.SessionFile
import BengProxy.Http.CookieServer
import BengProxy.StringMap

/-!
# Session ids and cluster nodes

Models `src/bp/session/Id.cxx` and `src/lb/Session.cxx`. A session id is adjusted such that the load
balancer finds the node from the last eight digits of the cookie. Only the lower half of the last
word is passed to the adjustment, and all of the word is replaced by its result.
-/

namespace BengProxy.Bp

open Base Text Http List Option

/-- The hexadecimal functions of the common library: a word is written with 16 digits, and the last
eight of them are read as its lower half. -/
structure HexLib where
  hexFormatUint64Fixed : UInt64 → Text
  parseLowerHexFixed : Text → Option UInt32
  length_format : ∀ n, (hexFormatUint64Fixed n).length = 16
  parse_format : ∀ n, parseLowerHexFixed ((hexFormatUint64Fixed n).drop 8) = some n.toUInt32

/-- `ToClusterNode`, `Id.cxx:12-24`. -/
def toClusterNode (id : UInt64) (clusterSize clusterNode : UInt32) : UInt64 :=
  let remainder := id.toUInt32 % clusterSize
  id - remainder.toUInt64 + clusterNode.toUInt64

namespace SessionId

/-- `SessionId::GetClusterHash`, `Id.hxx:69-74`. -/
def getClusterHash (s : SessionId) : UInt32 := s.second.toUInt32

/-- `SessionId::SetClusterNode`, `Id.cxx:26-36`. -/
def setClusterNode (s : SessionId) (clusterSize clusterNode : UInt32) : SessionId :=
  { s with second := toClusterNode s.getClusterHash.toUInt64 clusterSize clusterNode }

/-- `SessionId::Format`, `Id.cxx:44-55`. -/
def format (hex : HexLib) (s : SessionId) : Text :=
  hex.hexFormatUint64Fixed s.first ++ hex.hexFormatUint64Fixed s.second

end SessionId

section

variable (hex : HexLib) (u : Util) (l : Lookup) (requestHeaders : StringMap) (cookieName : Text)

/-- `lb_session_get`, `Session.cxx:12-35`. -/
def lbSessionGet : UInt32 :=
  match requestHeaders.get l (ascii "cookie") with
  | none => 0
  | some cookie =>
    let session := (((extractCookieRaw u cookie cookieName).getD []).split 0x2f).1
    if session.length < 8 then 0
    else (hex.parseLowerHexFixed (session.drop (session.length - 8))).getD 0

/-- The headers have a cookie with this session id, perhaps with something behind a slash. -/
def CarriesId (s : SessionId) : Prop :=
  ∃ cookie value, requestHeaders.get l (ascii "cookie") = some cookie ∧
    extractCookieRaw u cookie cookieName = some value ∧ (value.split 0x2f).1 = s.format hex

end

variable {hex : HexLib} {u : Util} {l : Lookup} {requestHeaders : StringMap} {cookieName : Text}
  {s : SessionId}

private theorem lbSessionGet_of_carries (h : CarriesId hex u l requestHeaders cookieName s) :
    lbSessionGet hex u l requestHeaders cookieName = s.getClusterHash := by
  obtain ⟨cookie, value, hge, hex', hsp⟩ := h
  have hle : (s.format hex).length = 32 := by
    rw [SessionId.format, length_append, hex.length_format, hex.length_format]
  have hdr : (s.format hex).drop 24 = (hex.hexFormatUint64Fixed s.second).drop 8 := by
    rw [SessionId.format, drop_append, hex.length_format, drop_eq_nil_of_le, nil_append]
    rw [hex.length_format]
    decide
  simp [lbSessionGet, hge, hex', hsp, hle, hdr, hex.parse_format, SessionId.getClusterHash]

private theorem toNat_setClusterNode (s : SessionId) (size node : UInt32) :
    (s.setClusterNode size node).second.toNat =
      size.toNat * (s.getClusterHash.toNat / size.toNat) + node.toNat := by
  have hlt := s.getClusterHash.toNat_lt
  have hnl := node.toNat_lt
  have hdm := Nat.div_add_mod s.getClusterHash.toNat size.toNat
  rw [SessionId.setClusterNode, toClusterNode]
  simp only [UInt32.toUInt32_toUInt64]
  have hle : (s.getClusterHash % size).toUInt64 ≤ s.getClusterHash.toUInt64 := by
    rw [UInt64.le_iff_toNat_le, UInt32.toNat_toUInt64, UInt32.toNat_toUInt64, UInt32.toNat_mod]
    exact Nat.mod_le _ _
  rw [UInt64.toNat_add, UInt64.toNat_sub_of_le _ _ hle, UInt32.toNat_toUInt64,
    UInt32.toNat_toUInt64, UInt32.toNat_toUInt64, UInt32.toNat_mod]
  omega

/-- The load balancer finds the node, and the rest of the id is not changed, if and only if the
upper half of the last word was zero, and the sum does not exceed 32 bits. -/
theorem setClusterNode_iff (s : SessionId) (size node : UInt32) (hno : node < size) :
    ((s.setClusterNode size node).getClusterHash % size = node ∧
      (∀ hex u l headers name, CarriesId hex u l headers name (s.setClusterNode size node) →
        lbSessionGet hex u l headers name % size = node) ∧
      (s.setClusterNode size node).first = s.first ∧
      (s.setClusterNode size node).second.toNat / 2 ^ 32 = s.second.toNat / 2 ^ 32) ↔
    s.second.toNat / 2 ^ 32 = 0 ∧
      s.getClusterHash.toNat - s.getClusterHash.toNat % size.toNat + node.toNat < 2 ^ 32 := by
  have hba := toNat_setClusterNode s size node
  have hha : (s.setClusterNode size node).getClusterHash.toNat =
      (s.setClusterNode size node).second.toNat % 2 ^ 32 := UInt64.toNat_toUInt32 _
  have hlt := s.getClusterHash.toNat_lt
  have hdm := Nat.div_add_mod s.getClusterHash.toNat size.toNat
  have hnl : node.toNat < size.toNat := UInt32.lt_iff_toNat_lt.mp hno
  have hsl := size.toNat_lt
  generalize s.getClusterHash.toNat / size.toNat = q at hba hdm
  constructor
  · rintro ⟨hre, -, -, hup⟩
    have hre' := congrArg UInt32.toNat hre
    rw [UInt32.toNat_mod, hha, hba] at hre'
    by_cases hfi : size.toNat * q + node.toNat < 2 ^ 32
    · rw [hba, Nat.div_eq_of_lt hfi] at hup
      exact ⟨hup.symm, by omega⟩
    -- the hash is smaller than the node then
    exfalso
    have hmo : (size.toNat * q + node.toNat) % 2 ^ 32 = size.toNat * q + node.toNat - 2 ^ 32 := by
      omega
    rw [hmo, Nat.mod_eq_of_lt (by omega)] at hre'
    omega
  · rintro ⟨hup, hfi⟩
    have hfi' : size.toNat * q + node.toNat < 2 ^ 32 := by omega
    have hre : (s.setClusterNode size node).getClusterHash % size = node := by
      apply UInt32.toNat_inj.mp
      rw [UInt32.toNat_mod, hha, hba, Nat.mod_eq_of_lt hfi', Nat.mul_add_mod, Nat.mod_eq_of_lt hnl]
    refine ⟨hre, fun hex u l headers name hca => ?_, rfl, ?_⟩
    · rw [lbSessionGet_of_carries hca]
      exact hre
    · rw [hba, hup]
      exact Nat.div_eq_of_lt hfi'

/-- A digit, for the example. -/
def lowerHexDigit (n : Nat) : UInt8 := UInt8.ofNat (if n < 10 then 0x30 + n else 0x57 + n)

/-- The value of a digit. -/
def parseLowerHexDigit (ch : UInt8) : Option Nat :=
  if isDigitASCII ch then some (ch.toNat - 0x30)
  else if 0x61 ≤ ch && ch ≤ 0x66 then some (ch.toNat - 0x57)
  else none

/-- The last digits of a number. -/
def hexFormatFixed : Nat → Nat → Text
  | 0, _ => []
  | digits + 1, n => hexFormatFixed digits (n / 0x10) ++ [lowerHexDigit (n % 0x10)]

/-- The number that has these digits. -/
def parseLowerHexFixed (s : Text) : Option Nat :=
  s.foldlM (fun n ch => (parseLowerHexDigit ch).map (n * 0x10 + ·)) 0

private theorem parseLowerHexDigit_lowerHexDigit {n : Nat} (h : n < 0x10) :
    parseLowerHexDigit (lowerHexDigit n) = some n := by
  have hal : ∀ k : Fin 16, parseLowerHexDigit (lowerHexDigit k) = some k.val := by decide
  exact hal ⟨n, h⟩

private theorem length_hexFormatFixed (digits : Nat) :
    ∀ n, (hexFormatFixed digits n).length = digits := by
  induction digits with
  | zero => exact fun n => rfl
  | succ digits ih =>
    intro n
    rw [hexFormatFixed, length_append, ih]
    rfl

private theorem parseLowerHexFixed_hexFormatFixed (d : Nat) :
    ∀ n, parseLowerHexFixed (hexFormatFixed d n) = some (n % 0x10 ^ d) := by
  induction d with
  | zero => exact fun n => congrArg some (Nat.mod_one n).symm
  | succ d ih =>
    intro n
    have hst := ih (n / 0x10)
    rw [parseLowerHexFixed] at hst
    rw [parseLowerHexFixed, hexFormatFixed, foldlM_append, hst]
    simp only [bind_eq_bind, bind_some, foldlM_cons, foldlM_nil,
      parseLowerHexDigit_lowerHexDigit (Nat.mod_lt n (by decide : 0 < 0x10)), map_some]
    -- the digits in front are those of the quotient
    rw [Nat.pow_succ', Nat.mod_mul, mul_comm, add_comm]
    rfl

/-- Formatting and parsing of digits. -/
def plainHex : HexLib where
  hexFormatUint64Fixed n := hexFormatFixed 8 (n.toNat / 2 ^ 32) ++ hexFormatFixed 8 n.toNat
  parseLowerHexFixed s := (parseLowerHexFixed s).map UInt32.ofNat
  length_format n := by rw [length_append, length_hexFormatFixed, length_hexFormatFixed]
  parse_format n := by
    rw [drop_left' (length_hexFormatFixed 8 _), parseLowerHexFixed_hexFormatFixed, map_some,
      some.injEq]
    apply UInt32.toNat_inj.mp
    rw [UInt64.toNat_toUInt32]
    exact Nat.mod_mod _ _

/-- An id that has only 32 bits, a node that it can be changed to, and a request with this id. -/
theorem setClusterNode_small :
    let s := SessionId.setClusterNode ⟨1, 7⟩ 4 2
    s.getClusterHash % 4 = 2 ∧ lbSessionGet plainHex plainUtil .first
      [(ascii "cookie", ascii "a=b;s=" ++ s.format plainHex)] (ascii "s") % 4 = 2 := by
  intro s
  obtain ⟨hre, hca, -⟩ := (setClusterNode_iff ⟨1, 7⟩ 4 2 (by decide)).mpr ⟨by decide, by decide⟩
  exact ⟨hre, hca _ _ _ _ _ ⟨ascii "a=b;s=" ++ s.format plainHex, s.format plainHex,
    by decide +kernel, by decide +kernel, by decide +kernel⟩⟩

/-- The upper half of the last word is lost; and the sum may have 33 bits, which leads to another
node. -/
theorem setClusterNode_loses :
    (SessionId.setClusterNode ⟨1, 0x123456789abcdef0⟩ 4 2).second = 0x9abcdef2 ∧
      (SessionId.setClusterNode ⟨1, 0xffffffff⟩ 3 1).getClusterHash % 3 = 0 := by
  decide

end BengProxy.Bp
