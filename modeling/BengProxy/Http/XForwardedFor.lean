import BengProxy.Base.Separated
import BengProxy.Base.Text

/-!
# The address of the client

Models `src/http/XForwardedFor.cxx`: the list of addresses in the header `X-Forwarded-For` is walked
from the right, as long as the address is the one of a trusted proxy. A view that may be null is
empty: only this is ever checked.
-/

namespace BengProxy.Http

open Base Text Separated List

/-- White space, `inet_pton()` for both address families and `MaskedSocketAddress::Matches()`. -/
structure XffLib (Address Network : Type) where
  isWhitespace : UInt8 → Bool
  inetPton4 : Text → Option Address
  inetPton6 : Text → Option Address
  networkMatches : Network → Address → Bool

/-- `XForwardedForConfig`, `src/http/XForwardedFor.hxx:16-33`. -/
structure XForwardedForConfig (Network : Type) where
  trust : List Text := []
  trustNetworks : List Network := []
  trustInterfaces : List Text := []

variable {Address Network : Type} (lib : XffLib Address Network)
  (config : XForwardedForConfig Network)

/-- `XForwardedForConfig::IsTrustedHost`, `XForwardedFor.cxx:16-28`. -/
def isTrustedHost (host : Text) : Bool :=
  config.trust.contains host || match cut 0x25 host with
    | some (address, interface) =>
      address ≠ [] && interface ≠ [] && config.trustInterfaces.contains interface
    | none => false

/-- `XForwardedForConfig::IsTrustedAddress`, `XForwardedFor.cxx:30-36`. -/
def isTrustedAddress (address : Address) : Bool :=
  config.trustNetworks.any (lib.networkMatches · address)

/-- `ParseIpAddress`, `XForwardedFor.cxx:38-70`: an address in brackets, or what is before
the only colon. -/
def parseIpAddress (s : Text) : Option Address := do
  let s ←
    if s.head? = some 0x5b then (cut 0x5d (s.drop 1)).map (·.1)
    else
      match cut 0x3a s with
      | some (t, rest) => some (if 0x3a ∈ rest then s else t)
      | none => some s
  if s.length < 64 then
    -- the buffer is passed as a C string
    let buffer := s.takeWhile (· ≠ 0)
    lib.inetPton4 buffer <|> lib.inetPton6 buffer
  else none

/-- `XForwardedForConfig::IsTrustedHostOrAddress`, `XForwardedFor.cxx:72-85`. -/
def isTrustedHostOrAddress (host : Text) : Bool :=
  isTrustedHost config host || !config.trustNetworks.isEmpty &&
    (parseIpAddress lib host).any (isTrustedAddress lib config)

/-- `Strip()` of the library. -/
def XffLib.strip (s : Text) : Text :=
  ((stripLeft lib.isWhitespace s).reverse.dropWhile lib.isWhitespace).reverse

/-- `LastListItem`, `XForwardedFor.cxx:87-108`. -/
def lastListItem (list : Text) : Text × Text :=
  match findLast 0x2c list with
  | none => ([], lib.strip list)
  | some (a, b) => (a, lib.strip b)

private theorem length_lastListItem_lt {list : Text} (h : (lastListItem lib list).2 ≠ []) :
    (lastListItem lib list).1.length < list.length := by
  rw [lastListItem] at h ⊢
  split at h
  next hla =>
    apply length_pos_of_ne_nil
    rintro rfl
    exact h rfl
  next a b hla => simp [eq_of_findLast hla]

/-- The loop of `GetRealRemoteHost`, `XForwardedFor.cxx:115-128`. -/
def getRealRemoteHostLoop (result list : Text) : Text :=
  let l := lastListItem lib list
  -- list finished: the last good address, even if it is a trusted proxy
  if l.2 = [] then result
  else if isTrustedHostOrAddress lib config l.2 then getRealRemoteHostLoop l.2 l.1
  else l.2
termination_by list.length
decreasing_by exact length_lastListItem_lt lib ‹_›

/-- `XForwardedForConfig::GetRealRemoteHost`, `XForwardedFor.cxx:110-129`. -/
def getRealRemoteHost (list : Text) : Text := getRealRemoteHostLoop lib config [] list

/-- The items of a list without the white space around them, from the right. -/
def itemsFromRight (list : Text) : List Text := ((split 0x2c list).map lib.strip).reverse

/-- Walk along the items until one is empty or not trusted. -/
def walk (trusted : Text → Bool) (result : Text) : List Text → Text
  | [] => result
  | item :: rest =>
    if item = [] then result else if trusted item then walk trusted item rest else item

private theorem getRealRemoteHostLoop_join {segs : List Text} (hne : segs ≠ [])
    (hse : ∀ x ∈ segs, 0x2c ∉ x) (result : Text) :
    getRealRemoteHostLoop lib config result (join 0x2c segs) =
      walk (isTrustedHostOrAddress lib config) result (segs.map lib.strip).reverse := by
  induction segs using List.reverseRecOn generalizing result with
  | nil => exact absurd rfl hne
  | append_singleton init last ih =>
    have hla : 0x2c ∉ last := hse last (by simp)
    rw [getRealRemoteHostLoop]
    by_cases hi : init = []
    · subst hi
      have hni (result : Text) : getRealRemoteHostLoop lib config result [] = result := by
        rw [getRealRemoteHostLoop]
        simp [lastListItem, findLast, XffLib.strip, stripLeft]
      simp [lastListItem, join, findLast_eq_none hla, walk, hni]
    · have hr := ih hi fun x hx => hse x (mem_append_left _ hx)
      simp [lastListItem, findLast_join hla hi, walk, hr]

private theorem getRealRemoteHost_eq (list : Text) :
    getRealRemoteHost lib config list =
      walk (isTrustedHostOrAddress lib config) [] (itemsFromRight lib list) := by
  conv_lhs => rw [← join_split 0x2c list]
  exact getRealRemoteHostLoop_join lib config (split_ne_nil _ _) (fun x => not_mem_of_mem_split) []

variable {trusted : Text → Bool}

-- the result is not the one so far, which is trusted or empty: there is an item that is returned
private theorem walk_append {result : Text} {items : List Text}
    (hne : walk trusted result items ≠ []) (h : trusted (walk trusted result items) = false)
    (hre : result ≠ [] → trusted result = true) (more : List Text) :
    walk trusted result (items ++ more) = walk trusted result items := by
  induction items generalizing result with
  | nil =>
    rw [walk] at h hne
    rw [hre hne] at h
    cases h
  | cons item items ih =>
    rw [cons_append, walk, walk]
    rw [walk] at h hne
    split at h
    next hni =>
      rw [if_pos hni] at hne
      rw [hre hne] at h
      cases h
    next hni =>
      rw [if_neg hni] at hne ⊢
      split at h
      next ht =>
        rw [if_pos ht] at hne ⊢
        rw [if_pos ht, if_neg hni]
        exact ih hne h fun _ => ht
      next ht => rw [if_neg ht, if_neg ht, if_neg hni]

private theorem walk_eq_find {i : List Text} (h : ∀ item ∈ i, item ≠ []) (result : Text) :
    walk trusted result i = (i.find? (!trusted ·)).getD (i.getLast?.getD result) := by
  induction i generalizing result with
  | nil => rfl
  | cons item i ih =>
    obtain ⟨he, hi⟩ := forall_mem_cons.mp h
    rw [walk, if_neg he, ih hi, find?_cons, getLast?_cons]
    cases trusted item <;> rfl

/-- What is prepended to the list does not change an address that is not trusted; and if no item is
empty, then the result is the last item that is not trusted, or the first one if all are. -/
theorem getRealRemoteHost_nearest :
    (∀ before list : Text, getRealRemoteHost lib config list ≠ [] →
      isTrustedHostOrAddress lib config (getRealRemoteHost lib config list) = false →
        getRealRemoteHost lib config (before ++ ascii "," ++ list) =
          getRealRemoteHost lib config list) ∧
    ∀ list : Text, let items := (split 0x2c list).map lib.strip
      (∀ item ∈ items, item ≠ []) →
        getRealRemoteHost lib config list =
          (items.reverse.find? (!isTrustedHostOrAddress lib config ·)).getD (items.headD []) := by
  constructor
  · intro before list hne h
    have hi : itemsFromRight lib (before ++ ascii "," ++ list) =
        itemsFromRight lib list ++ itemsFromRight lib before := by
      have hc : before ++ ascii "," ++ list = before ++ 0x2c :: list := by simp [ascii]
      rw [itemsFromRight, hc, split_append, map_append, reverse_append]
      rfl
    rw [getRealRemoteHost_eq] at hne h
    rw [getRealRemoteHost_eq, getRealRemoteHost_eq, hi]
    exact walk_append hne h (absurd rfl) _
  · intro list items h
    have hre : ∀ item ∈ items.reverse, item ≠ [] := fun item hite => h item (mem_reverse.mp hite)
    rw [getRealRemoteHost_eq, itemsFromRight, walk_eq_find hre, getLast?_reverse,
      headD_eq_head?_getD]

/-- The address that a proxy has added is not replaced by one that the client sends. -/
theorem getRealRemoteHost_forged :
    let lib : XffLib Unit Unit :=
      { isWhitespace := fun ch => ch ≤ 0x20, inetPton4 := fun _ => none,
        inetPton6 := fun _ => none, networkMatches := fun _ _ => false }
    getRealRemoteHost lib { trust := [ascii "localhost"] }
      (ascii "forged" ++ ascii "," ++ ascii " bar, localhost") = ascii "bar" := by
  intro lib
  have hli : getRealRemoteHost lib { trust := [ascii "localhost"] } (ascii " bar, localhost") =
      ascii "bar" := by decide +kernel
  rw [(getRealRemoteHost_nearest lib _).1 _ _ (by rw [hli]; decide) (by rw [hli]; decide), hli]

/-- `forward_xff`, `src/bp/ForwardHeaders.cxx:207-224`: the header that is forwarded. -/
def forwardXff (mangle : Bool) (p remoteHost : Option Text) : Option Text :=
  match p, remoteHost with
  | p, none => p
  | none, some host => if mangle then some host else none
  | some p, some host => some (if mangle then p ++ ascii ", " ++ host else p)

/-- `Request::GetRemoteAdress`, `src/bp/RAddress.cxx:15-44`, with a configuration. -/
def getRemoteAddress (parse : Text → Option Address) (xForwardedFor remoteHost : Option Text)
    (remoteAddress : Address) : Address :=
  match xForwardedFor with
  | none => remoteAddress
  | some list =>
    if remoteHost.any (isTrustedHost config) || isTrustedAddress lib config remoteAddress then
      let r := getRealRemoteHost lib config list
      if r = [] then remoteAddress else (parse r).getD remoteAddress
    else remoteAddress

/-- The header behind proxies that have seen these hosts. -/
def forwarded (p : Option Text) (hosts : List Text) : Option Text :=
  hosts.foldl (fun p host => forwardXff true p (some host)) p

/-- The items of the header, if there is one. -/
def xffItems (p : Option Text) : List Text := p.elim [] (itemsFromRight lib)

/-- A host as it is written to the header. -/
structure XffLib.Plain (host : Text) : Prop where
  ne : host ≠ []
  comma : 0x2c ∉ host
  strip : lib.strip host = host

variable {lib config}

private theorem split_singleton {t : Text} (h : 0x2c ∉ t) : split 0x2c t = [t] :=
  split_join (cons_ne_nil t []) (by simpa using h)

private theorem xffItems_forwardXff (hs : lib.isWhitespace 0x20 = true) {host : Text}
    (hh : lib.Plain host) (p : Option Text) :
    xffItems lib (forwardXff true p (some host)) = host :: xffItems lib p := by
  cases p with
  | none => simp [xffItems, forwardXff, itemsFromRight, split_singleton hh.comma, hh.strip]
  | some p =>
    have hw : lib.strip (0x20 :: host) = host := by
      simpa [XffLib.strip, stripLeft, hs] using hh.strip
    have hc : 0x2c ∉ 0x20 :: host := by simpa using hh.comma
    have he : p ++ ascii ", " ++ host = p ++ 0x2c :: 0x20 :: host := by simp [ascii]
    simp [xffItems, forwardXff, he, itemsFromRight, split_append, split_singleton hc, hw]

private theorem xffItems_forwarded (hs : lib.isWhitespace 0x20 = true) {hosts : List Text}
    (h : ∀ host ∈ hosts, lib.Plain host) (p : Option Text) :
    xffItems lib (forwarded p hosts) = hosts.reverse ++ xffItems lib p := by
  induction hosts generalizing p with
  | nil => rfl
  | cons host hosts ih =>
    obtain ⟨hh, h⟩ := forall_mem_cons.mp h
    rw [forwarded, foldl_cons, ← forwarded, ih h, xffItems_forwardXff hs hh]
    simp

private theorem walk_trusted {host : Text} (hh : host ≠ []) (hn : trusted host = false)
    {items rest : List Text} (h : ∀ item ∈ items, item ≠ [] ∧ trusted item = true)
    (result : Text) : walk trusted result (items ++ host :: rest) = host := by
  induction items generalizing result with
  | nil => simp [walk, hh, hn]
  | cons item items ih =>
    obtain ⟨hi, ht⟩ := forall_mem_cons.mp h
    simp [walk, hi, ih ht]

/-- Behind any number of trusted proxies, each of which appends the host of its peer, the address of
the client is found, whatever header the client has sent. -/
theorem getRemoteAddress_forwarded (hs : lib.isWhitespace 0x20 = true) {client : Text}
    (hc : lib.Plain client) (hn : isTrustedHostOrAddress lib config client = false)
    {proxies : List Text}
    (ht : ∀ host ∈ proxies, lib.Plain host ∧ isTrustedHostOrAddress lib config host = true)
    {remoteHost : Option Text} {remoteAddress : Address}
    (hr : (remoteHost.any (isTrustedHost config) ||
      isTrustedAddress lib config remoteAddress) = true)
    {parse : Text → Option Address} {address : Address} (hp : parse client = some address)
    (p : Option Text) :
    getRemoteAddress lib config parse (forwarded p (client :: proxies)) remoteHost remoteAddress =
      address := by
  have hpl : ∀ host ∈ client :: proxies, lib.Plain host :=
    forall_mem_cons.mpr ⟨hc, fun host hh => (ht host hh).1⟩
  have hi := xffItems_forwarded hs hpl p
  rw [reverse_cons, append_assoc] at hi
  cases hf : forwarded p (client :: proxies) with
  | none =>
    rw [hf] at hi
    simp [xffItems] at hi
  | some list =>
    rw [hf] at hi
    have hw : getRealRemoteHost lib config list = client := by
      rw [getRealRemoteHost_eq, show itemsFromRight lib list = _ from hi]
      exact walk_trusted hc.ne hn
        (fun host hh => (ht host (mem_reverse.mp hh)).imp_left XffLib.Plain.ne) []
    simp [getRemoteAddress, hr, hw, hc.ne, hp]

/-- A client who pretends to be another one, behind two proxies. -/
theorem getRemoteAddress_forwarded_two :
    getRemoteAddress ⟨(· ≤ 0x20), some, some, fun (_ : Unit) _ => false⟩ ⟨[ascii "a"], [], []⟩ some
      (some (ascii "x, c, a")) (some (ascii "a")) (ascii "a") = ascii "c" :=
  @getRemoteAddress_forwarded _ _ _ _ rfl (ascii "c") ⟨by decide, by decide, by decide⟩
    (by decide) [ascii "a"] (by simpa using ⟨⟨by decide, by decide, by decide⟩, by decide⟩)
    _ _ rfl _ _ rfl (some (ascii "x"))

end BengProxy.Http
