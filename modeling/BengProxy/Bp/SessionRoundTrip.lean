import BengProxy.Bp.SessionFile
import Mathlib.Data.List.TakeWhile

/-!
# Reading a session file

The reader takes exactly the bytes that were written, and rebuilds the session. It inserts every
cookie at the front of the jar, so the cookies of each realm come back in the opposite order.
-/

namespace BengProxy.Bp

open Base OrderedMap Reader List WidgetSession

/-- The string has no null byte, or is a null pointer. -/
def NulFree (s : Option Text) : Prop := ∀ t ∈ s, 0 ∉ t

/-- The keys of the widgets are in order, and no string has a null byte. -/
inductive WidgetSession.Wf : WidgetSession → Prop where
  | mk {children : List (Text × WidgetSession)} {pathInfo queryString : Option Text}
      (increasing : Increasing children) (keys : ∀ entry ∈ children, 0 ∉ entry.1)
      (sessions : ∀ entry ∈ children, Wf entry.2) (pathInfo_nul : NulFree pathInfo)
      (queryString_nul : NulFree queryString) : Wf (.mk children pathInfo queryString)

/-- The strings of a cookie have no null byte. -/
structure Cookie.Wf {Expiry : Type} (cookie : Cookie Expiry) : Prop where
  name : NulFree cookie.name
  value : NulFree cookie.value
  domain : NulFree cookie.domain
  path : NulFree cookie.path

/-- The keys of a realm are in order, and no string has a null byte. -/
structure RealmSession.Wf {Expiry : Type} (session : RealmSession Expiry) : Prop where
  site : NulFree session.site
  user : NulFree session.user
  increasing : Increasing session.widgets
  keys : ∀ entry ∈ session.widgets, 0 ∉ entry.1
  widgets : ∀ entry ∈ session.widgets, entry.2.Wf
  cookies : ∀ cookie ∈ session.cookies, cookie.Wf

/-- The keys of a session are in order, and no string has a null byte. -/
structure Session.Wf {Expiry : Type} (session : Session Expiry) : Prop where
  language : NulFree session.language
  increasing : Increasing session.realms
  keys : ∀ entry ∈ session.realms, 0 ∉ entry.1
  realms : ∀ entry ∈ session.realms, entry.2.Wf

/-- The realm that is read: the cookies are in the opposite order. -/
def RealmSession.reversed {Expiry : Type} (session : RealmSession Expiry) :
    RealmSession Expiry :=
  { session with cookies := session.cookies.reverse }

/-- The session that is read: the cookies of each realm are in the opposite order. -/
def Session.reversed {Expiry : Type} (session : Session Expiry) : Session Expiry :=
  { session with realms := session.realms.map fun entry => (entry.1, entry.2.reversed) }

private theorem reversed_eq_iff {Expiry : Type} {se : Session Expiry} :
    se.reversed = se ↔
      ∀ entry ∈ se.realms, entry.2.cookies.reverse = entry.2.cookies := by
  have hre (entry : Text × RealmSession Expiry) :
      (entry.1, entry.2.reversed) = id entry ↔ entry.2.cookies.reverse = entry.2.cookies := by
    obtain ⟨name, realm⟩ := entry
    cases realm
    simp [RealmSession.reversed]
  have hse : se.reversed = se ↔
      se.realms.map (fun entry => (entry.1, entry.2.reversed)) = se.realms.map id := by
    cases se
    simp [Session.reversed]
  rw [hse, map_inj_left]
  exact forall₂_congr fun entry _ => hre entry

variable {Expiry : Type} [Pod Expiry]

/-- The reader takes what is written, and returns this value. -/
def Follows {α : Type} (output : Output) (r : FileReader α) (a : α) : Prop :=
  ∀ bytes, output = .ok bytes → Reads r bytes a

/-- The loop takes what is written. -/
def Repeats {σ : Type} (output : Output) (body : σ → FileReader (Bool × σ)) (s s' : σ) : Prop :=
  ∀ bytes, output = .ok bytes → Iterates .endOfFile body s bytes s'

private theorem concat_cons {output : Output} {rest : List Output} {b : List UInt8} :
    concat (output :: rest) = .ok b ↔
      ∃ xs ys, output = .ok xs ∧ concat rest = .ok ys ∧ b = xs ++ ys := by
  rw [concat]
  cases output with
  | error message => simp [bind, Except.bind]
  | ok xs =>
    cases concat rest with
    | error message => simp [bind, Except.bind]
    | ok ys => simp [bind, Except.bind, pure, Except.pure, eq_comm]

namespace Follows

variable {α β : Type} {output : Output} {rest : List Output}

private theorem pure (a : α) : Follows (concat []) (pure a) a := by
  rintro bytes ⟨⟩
  exact .pure a

private theorem bind {r : FileReader α} {f : α → FileReader β} {a : α} {b : β}
    (h : Follows output r a)
    (h' : Follows (concat rest) (f a) b) : Follows (concat (output :: rest)) (r >>= f) b := by
  intro bytes hb
  obtain ⟨xs, ys, hx, hy, rfl⟩ := concat_cons.mp hb
  exact (h xs hx).bind (h' ys hy)

private theorem map {r : FileReader α} {a : α} (h : Follows output r a) (f : α → β) :
    Follows output (r >>= fun a => Pure.pure (f a)) (f a) := fun bytes hb =>
  (h bytes hb).map f

private theorem writeT [Pod α] (value : α) : Follows (writeT value) (readT α) value := by
  rintro bytes ⟨⟩
  exact reads_readT _ value

private theorem write32 (value : UInt32) : Follows (write32 value) read32 value := writeT value

private theorem writeBool (value : Bool) : Follows (writeBool value) readBool value := by
  have hre := (writeT (if value then 1 else 0 : UInt8)).map fun byte => byte != 0
  cases value <;> exact hre

private theorem expect32 (m : UInt32) : Follows (Bp.write32 m) (expect32 m) () := by
  intro bytes hb
  rw [← append_nil bytes]
  apply (write32 m bytes hb).bind
  rw [if_neg (not_not_intro rfl)]
  exact .pure ()

private theorem readArray (buffer : Option (List UInt8)) : Follows
    (write buffer) readArray buffer := by
  intro bytes hb
  cases buffer with
  | none =>
    rw [← append_nil bytes]
    apply (writeT _ bytes hb).bind
    exact .pure none
  | some buffer =>
    rw [write] at hb
    split at hb
    · cases hb
    next hle =>
      have hs : (UInt16.ofNat buffer.length).toNat = buffer.length := by
        apply Nat.mod_eq_of_lt
        unfold uint16Max at hle
        omega
      have ht : Follows (.ok buffer) (takeFull .endOfFile buffer.length) buffer := by
        rintro bytes ⟨⟩
        exact reads_takeFull _ buffer
      refine Follows.bind (writeT _) ?_ bytes hb
      rw [hs, if_neg (by omega)]
      exact ht.bind (.pure _)

private theorem readString {s : Option Text} (hs : NulFree s) : Follows (write s) readString s := by
  have hre := (readArray s).map fun bytes => bytes.map fun bytes => bytes.takeWhile (· != 0)
  cases s with
  | none => exact hre
  | some t =>
    have hal : t.takeWhile (· != 0) = t := by
      apply takeWhile_eq_self_iff.mpr
      intro c hc
      have hne : c ≠ 0 := fun he => hs t rfl (he ▸ hc)
      simpa using hne
    rw [Option.map_some, hal] at hre
    exact hre

private theorem readKey {key : Text} (hke : 0 ∉ key) : Follows (write (some key)) readKey key := by
  have hs : NulFree (some key) := by
    rintro t ⟨⟩
    exact hke
  intro bytes hb
  rw [← append_nil bytes]
  exact (readString hs bytes hb).bind (.pure key)

end Follows

namespace Repeats

variable {σ : Type} {output : Output} {rest : List Output} {body : σ → FileReader (Bool × σ)}
  {s s' s'' : σ}

private theorem endOfList {f : UInt32 → FileReader (Bool × σ)}
    (h : body s = read32 >>= fun magic =>
      if magic = magicEndOfList then pure (false, s) else f magic) :
    Repeats (write32 magicEndOfList) body s s := by
  intro bytes hb
  apply Iterates.last
  rw [h, ← append_nil bytes]
  apply (Follows.write32 _ bytes hb).bind
  exact .pure _

private theorem next {m : UInt32} {p : List Output}
    (h : Follows (concat (write32 m :: p)) (body s) (true, s'))
    (h' : Repeats output body s' s'') :
    Repeats (concat [concat (write32 m :: p), output]) body s s'' := by
  intro bytes hb
  obtain ⟨xs, ys, hx, hy, rfl⟩ := concat_cons.mp hb
  obtain ⟨zs, _, hz, ⟨⟩, rfl⟩ := concat_cons.mp hy
  have hne : xs ≠ [] := by
    obtain ⟨_, _, ⟨⟩, -, rfl⟩ := concat_cons.mp hx
    exact cons_ne_nil _ _
  rw [append_nil]
  exact Iterates.next (h xs hx) hne (h' zs hz)

private theorem loop (h : Repeats output body s s') : Follows output (loop .endOfFile body s) s' :=
  fun bytes hb => (h bytes hb).loop

end Repeats

private theorem follows_readCookie {cookie : Cookie Expiry} (h : cookie.Wf) :
    Follows (writeCookie cookie) readCookie cookie := by
  apply (Follows.readString h.name).bind
  apply (Follows.readString h.value).bind
  apply (Follows.readString h.domain).bind
  apply (Follows.readString h.path).bind
  apply (Follows.writeT cookie.expires).bind
  exact (Follows.expect32 _).bind (.pure _)

private theorem repeats_readCookieEntry {c : List (Cookie Expiry)}
    (h : ∀ cookie ∈ c, cookie.Wf) (jar : List (Cookie Expiry)) :
    Repeats (writeCookieJar c) readCookieEntry jar (c.reverse ++ jar) := by
  induction c generalizing jar with
  | nil => exact .endOfList rfl
  | cons cookie c ih =>
    rw [forall_mem_cons] at h
    rw [reverse_cons, append_assoc]
    apply Repeats.next _ (ih h.2 (cookie :: jar))
    apply (Follows.write32 magicCookie).bind
    exact (follows_readCookie h.1).bind (.pure _)

private theorem follows_readCookieJar {c : List (Cookie Expiry)}
    (h : ∀ cookie ∈ c, cookie.Wf) :
    Follows (writeCookieJar c) readCookieJar c.reverse := by
  have hlo := (repeats_readCookieEntry h []).loop
  rwa [append_nil] at hlo

mutual
/-- The number of levels below a widget. -/
def WidgetSession.height : WidgetSession → Nat
  | .mk children _ _ => heightOf children
  termination_by structural session => session

/-- The number of levels of some widgets. -/
def heightOf : List (Text × WidgetSession) → Nat
  | [] => 0
  | entry :: widgets => max (entryHeight entry) (heightOf widgets)
  termination_by structural widgets => widgets

/-- The number of levels of one widget. -/
def entryHeight : Text × WidgetSession → Nat
  | (_, session) => session.height + 1
  termination_by structural entry => entry
end

-- every part of an output is shorter than all of it
private theorem length_concat_cons {output : Output} {rest : List Output} {b : List UInt8}
    (h : concat (output :: rest) = .ok b) :
    ∃ xs ys, output = .ok xs ∧ concat rest = .ok ys ∧ b.length = xs.length + ys.length := by
  obtain ⟨xs, ys, hx, hy, rfl⟩ := concat_cons.mp h
  exact ⟨xs, ys, hx, hy, length_append⟩

private theorem length_write32 {m : UInt32} {b : List UInt8}
    (h : write32 m = .ok b) : b.length = 4 := by
  cases h
  exact Pod.length_toBytes m

mutual
private theorem height_lt_of_write : ∀ {se : WidgetSession} {b : List UInt8},
    writeWidgetSession se = .ok b → se.height < b.length
  | .mk children pathInfo queryString, b, h => by
    rw [writeWidgetSession] at h
    obtain ⟨xs, ys, hx, -, hle⟩ := length_concat_cons h
    have hc := heightOf_lt_of_write hx
    rw [height]
    omega

private theorem heightOf_lt_of_write :
    ∀ {w : List (Text × WidgetSession)} {b : List UInt8},
    writeWidgetSessions w = .ok b → heightOf w < b.length
  | [], b, h => by
    rw [writeWidgetSessions] at h
    have hle := length_write32 h
    rw [heightOf]
    omega
  | entry :: w, b, h => by
    rw [writeWidgetSessions] at h
    obtain ⟨xs, _, hx, h, hle⟩ := length_concat_cons h
    obtain ⟨ys, _, hy, -, hl'⟩ := length_concat_cons h
    have he := entryHeight_lt_of_write hx
    have hw := heightOf_lt_of_write hy
    rw [heightOf]
    omega

private theorem entryHeight_lt_of_write : ∀ {e : Text × WidgetSession} {b : List UInt8},
    writeWidgetEntry e = .ok b → entryHeight e < b.length
  | (id, session), b, h => by
    rw [writeWidgetEntry] at h
    obtain ⟨magic, _, hma, h, hle⟩ := length_concat_cons h
    obtain ⟨key, _, -, h, hl'⟩ := length_concat_cons h
    obtain ⟨record, _, hre, -, hl''⟩ := length_concat_cons h
    have hfo := length_write32 hma
    have hse := height_lt_of_write hre
    rw [entryHeight]
    omega
end

mutual
private theorem follows_readWidgetSession : ∀ {se : WidgetSession} {d : Nat}, se.Wf →
    se.height < d →
    Follows (writeWidgetSession se) (readWidgetSession (readWidgetSessionsIn d)) se
  | .mk children pathInfo queryString, d, hw, hd => by
    cases hw with
    | mk increasing keys sessions pathInfo_nul queryString_nul =>
      rw [height] at hd
      rw [writeWidgetSession]
      have hc : Follows (writeWidgetSessions children) (readWidgetSessionsIn d)
          children := by
        cases d with
        | zero => omega
        | succ d =>
          have hlo := (repeats_readWidgetEntry keys sessions (Nat.le_of_lt_succ hd) []).loop
          rwa [foldl_emplace increasing] at hlo
      apply hc.bind
      apply (Follows.readString pathInfo_nul).bind
      apply (Follows.readString queryString_nul).bind
      exact (Follows.expect32 _).bind (.pure _)

private theorem repeats_readWidgetEntry : ∀ {w : List (Text × WidgetSession)} {d : Nat},
    (∀ entry ∈ w, 0 ∉ entry.1) → (∀ entry ∈ w, entry.2.Wf) →
    heightOf w ≤ d → ∀ acc : List (Text × WidgetSession),
    Repeats (writeWidgetSessions w)
      (readWidgetEntry (readWidgetSession (readWidgetSessionsIn d))) acc
      (w.foldl (fun acc entry => emplace acc entry.1 entry.2) acc)
  | [], d, _, _, _, acc => by
    rw [writeWidgetSessions]
    exact .endOfList rfl
  | (id, session) :: w, d, hke, hw, hd, acc => by
    rw [forall_mem_cons] at hke hw
    rw [heightOf, entryHeight] at hd
    rw [writeWidgetSessions, writeWidgetEntry]
    apply Repeats.next _ (repeats_readWidgetEntry hke.2 hw.2 (by omega) _)
    apply (Follows.write32 magicWidgetSession).bind
    rw [if_neg (by decide), if_neg (not_not_intro rfl)]
    apply (Follows.readKey hke.1).bind
    have hse : session.Wf := hw.1
    exact (follows_readWidgetSession hse (by omega)).bind (.pure _)
end

private theorem follows_readWidgetSessions {widgets : List (Text × WidgetSession)}
    (i : Increasing widgets) (keys : ∀ entry ∈ widgets, 0 ∉ entry.1)
    (se : ∀ entry ∈ widgets, entry.2.Wf) :
    Follows (writeWidgetSessions widgets) readWidgetSessions widgets := by
  intro bytes hb rest
  have hh := heightOf_lt_of_write hb
  have hd : heightOf widgets ≤ (bytes ++ rest).length := by
    rw [length_append]
    omega
  have hlo := (repeats_readWidgetEntry keys se hd []).loop
  rw [foldl_emplace i] at hlo
  exact hlo bytes hb rest

private theorem follows_readRealmSession {se : RealmSession Expiry} (h : se.Wf) :
    Follows (writeRealmSession se) (readRealmSession magicRealmSession) se.reversed := by
  rw [readRealmSession, pure_bind]
  apply (Follows.readString h.site).bind
  apply (Follows.readArray se.translate).bind
  apply (Follows.readString h.user).bind
  apply (Follows.writeT se.userExpires).bind
  apply (follows_readWidgetSessions h.increasing h.keys h.widgets).bind
  apply (follows_readCookieJar h.cookies).bind
  apply (Follows.writeT se.sessionCookieSameSite).bind
  exact (Follows.expect32 _).bind (.pure _)

private theorem repeats_readRealmEntry {r : List (Text × RealmSession Expiry)}
    (keys : ∀ entry ∈ r, 0 ∉ entry.1) (hw : ∀ entry ∈ r, entry.2.Wf)
    (acc : List (Text × RealmSession Expiry)) :
    Repeats (writeRealms r) readRealmEntry acc
      ((r.map fun entry => (entry.1, entry.2.reversed)).foldl
        (fun acc entry => emplace acc entry.1 entry.2) acc) := by
  induction r generalizing acc with
  | nil => exact .endOfList rfl
  | cons entry r ih =>
    rw [forall_mem_cons] at keys hw
    apply Repeats.next _ (ih keys.2 hw.2 _)
    apply (Follows.write32 magicRealmSession).bind
    apply (Follows.readKey keys.1).bind
    exact (follows_readRealmSession hw.1).bind (.pure _)

private theorem follows_sessionRead {se : Session Expiry} (h : se.Wf) :
    Follows (sessionWrite se) sessionRead se.reversed := by
  have hi : Increasing se.reversed.realms := by
    unfold Increasing Session.reversed
    rw [pairwise_map]
    exact h.increasing
  have hre : Follows (writeRealms se.realms) (loop .endOfFile readRealmEntry [])
      se.reversed.realms := by
    rw [← foldl_emplace hi]
    exact (repeats_readRealmEntry h.keys h.realms []).loop
  apply (Follows.writeT se.id).bind
  apply (Follows.writeT se.expires).bind
  apply (Follows.writeT se.counter).bind
  apply (Follows.writeBool se.cookieReceived).bind
  apply (Follows.readArray se.translate).bind
  apply (Follows.readString h.language).bind
  apply hre.bind
  exact (Follows.expect32 _).bind (.pure _)

/-- Reading a session file gives the session, with the cookies of each realm in the opposite order.
So it gives the session that was written if and only if these orders are the same. -/
theorem sessionRead_sessionWrite_iff {session : Session Expiry} {bytes : List UInt8}
    (hwf : session.Wf) (hw : sessionWrite session = .ok bytes) (rest : List UInt8) :
    sessionRead.run (bytes ++ rest) = .ok (session.reversed, rest) ∧
      (sessionRead.run (bytes ++ rest) = .ok (session, rest) ↔
        ∀ entry ∈ session.realms, entry.2.cookies.reverse = entry.2.cookies) := by
  have hre := follows_sessionRead hwf bytes hw rest
  refine ⟨hre, ?_⟩
  rw [hre, ← reversed_eq_iff, Except.ok.injEq, Prod.mk.injEq, and_iff_left rfl]

/-- A session with one realm, which has these cookies. -/
def sampleSession (cookies : List (Cookie UInt64)) : Session UInt64 where
  id := ⟨1, 2⟩
  expires := 3
  counter := 1
  cookieReceived := true
  translate := none
  language := some []
  realms := [(Text.ascii "realm", {
    site := none
    translate := some [0]
    user := none
    userExpires := 4
    widgets := [(Text.ascii "a", .mk [(Text.ascii "b", .mk [] none none)] (some []) none)]
    cookies
    sessionCookieSameSite := ⟨0⟩ })]

/-- A cookie with this name and value. -/
def sampleCookie (name value : String) : Cookie UInt64 :=
  ⟨some (Text.ascii name), some (Text.ascii value), some (Text.ascii "example.com"), none, 5⟩

-- nothing is wrong with the samples
private theorem wf_sampleCookie {name value : String} (hna : 0 ∉ Text.ascii name)
    (hv : 0 ∉ Text.ascii value) : (sampleCookie name value).Wf where
  name := by simpa [NulFree, sampleCookie] using hna
  value := by simpa [NulFree, sampleCookie] using hv
  domain := by
    rintro domain ⟨⟩
    decide
  path := by simp [NulFree, sampleCookie]

private theorem wf_sampleSession {c : List (Cookie UInt64)}
    (h : ∀ cookie ∈ c, cookie.Wf) : (sampleSession c).Wf := by
  have hb : (mk [] none none).Wf := ⟨.nil, by simp, by simp, by simp [NulFree], by simp [NulFree]⟩
  have ha : (mk [(Text.ascii "b", .mk [] none none)] (some []) none).Wf := by
    refine ⟨pairwise_singleton _ _, ?_, ?_, by simp [NulFree], by simp [NulFree]⟩
    · rw [forall_mem_singleton]
      exact (by decide : (0 : UInt8) ∉ Text.ascii "b")
    · rw [forall_mem_singleton]
      exact hb
  refine ⟨by simp [NulFree, sampleSession], pairwise_singleton _ _, ?_, ?_⟩
  · rw [sampleSession, forall_mem_singleton]
    exact (by decide : (0 : UInt8) ∉ Text.ascii "realm")
  · rw [sampleSession, forall_mem_singleton]
    refine ⟨by simp [NulFree], by simp [NulFree], pairwise_singleton _ _, ?_, ?_, h⟩
    · rw [forall_mem_singleton]
      exact (by decide : (0 : UInt8) ∉ Text.ascii "a")
    · rw [forall_mem_singleton]
      exact ha

/-- With one cookie, the session is read as it was written. -/
theorem sessionRead_sessionWrite_one :
    ∃ bytes, sessionWrite (sampleSession [sampleCookie "a" "1"]) = .ok bytes ∧
      sessionRead.run (bytes ++ []) = .ok (sampleSession [sampleCookie "a" "1"], []) := by
  have hw : (sampleSession [sampleCookie "a" "1"]).Wf := by
    apply wf_sampleSession
    rw [forall_mem_singleton]
    exact wf_sampleCookie (by decide) (by decide)
  refine ⟨_, rfl, ?_⟩
  apply (sessionRead_sessionWrite_iff hw rfl []).2.mpr
  rw [sampleSession, forall_mem_singleton]
  rfl

/-- With two cookies, the second one comes first. -/
theorem sessionRead_reverses :
    ∃ bytes, sessionWrite (sampleSession [sampleCookie "a" "1", sampleCookie "a" "2"]) = .ok bytes ∧
      sessionRead.run (bytes ++ []) =
        .ok (sampleSession [sampleCookie "a" "2", sampleCookie "a" "1"], []) ∧
      sessionRead.run (bytes ++ []) ≠
        .ok (sampleSession [sampleCookie "a" "1", sampleCookie "a" "2"], []) := by
  have hw : (sampleSession [sampleCookie "a" "1", sampleCookie "a" "2"]).Wf := by
    apply wf_sampleSession
    rw [forall_mem_cons, forall_mem_singleton]
    exact ⟨wf_sampleCookie (by decide) (by decide), wf_sampleCookie (by decide) (by decide)⟩
  have hre := follows_sessionRead hw _ rfl []
  refine ⟨_, rfl, hre, ?_⟩
  rw [hre]
  intro he
  have hrea := congrArg Session.realms (Prod.mk.inj (Except.ok.inj he)).1
  have hc := congrArg (List.map fun entry => entry.2.cookies) hrea
  exact absurd hc (by decide)

end BengProxy.Bp
