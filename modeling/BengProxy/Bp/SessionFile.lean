import BengProxy.Base.OrderedMap
import BengProxy.Base.Reader
import BengProxy.Base.Text

/-!
# The session file

Models `session_write()`, `src/bp/session/Write.cxx`, and `session_read()`,
`src/bp/session/Read.cxx`. A session has the fields that are written; strings and arrays may be null
pointers. A `std::map` is the list of its entries in the order of their keys. `Expiry` belongs to
the library; it is any type that can be copied byte by byte.
-/

namespace BengProxy.Bp

open Base OrderedMap Pod Reader

/-- `SessionId`, `src/bp/session/Id.hxx:21-22`. -/
structure SessionId where
  first : UInt64
  second : UInt64
  deriving DecidableEq, Repr

instance : Pod SessionId where
  size := 16
  toBytes a := toBytes a.first ++ toBytes a.second
  ofBytes bytes := ⟨ofBytes (bytes.take 8), ofBytes (bytes.drop 8)⟩
  length_toBytes a := by
    rw [List.length_append, length_toBytes, length_toBytes]
    rfl
  ofBytes_toBytes a := by
    have hle : (toBytes a.first).length = 8 := length_toBytes a.first
    rw [List.take_left' hle, List.drop_left' hle, ofBytes_toBytes, ofBytes_toBytes]

/-- `CookieSameSite`, `src/http/CookieSameSite.hxx:10-15`: an enumeration of bytes, which are read
without a check. -/
structure CookieSameSite where
  value : UInt8
  deriving DecidableEq, Repr

instance : Pod CookieSameSite where
  size := 1
  toBytes a := [a.value]
  ofBytes bytes := ⟨bytes.headD 0⟩
  length_toBytes _ := rfl
  ofBytes_toBytes _ := rfl

/-- `WidgetSession`, `src/bp/session/Session.hxx:30-39`. -/
inductive WidgetSession where
  | mk (children : List (Text × WidgetSession)) (pathInfo queryString : Option Text)

/-- `CookieData`, `src/http/CookieJar.hxx:11-15`. -/
structure Cookie (Expiry : Type) where
  name : Option Text
  value : Option Text
  domain : Option Text
  path : Option Text
  expires : Expiry
  deriving DecidableEq

/-- `RealmSession`, `src/bp/session/Session.hxx:60-93`. -/
structure RealmSession (Expiry : Type) where
  site : Option Text
  translate : Option (List UInt8)
  user : Option Text
  userExpires : Expiry
  widgets : List (Text × WidgetSession)
  cookies : List (Cookie Expiry)
  sessionCookieSameSite : CookieSameSite

/-- `Session`, `src/bp/session/Session.hxx:144-197`. -/
structure Session (Expiry : Type) where
  id : SessionId
  expires : Expiry
  counter : UInt32
  cookieReceived : Bool
  translate : Option (List UInt8)
  language : Option Text
  realms : List (Text × RealmSession Expiry)

variable {Expiry : Type} [Pod Expiry]

/-- `MAGIC_REALM_SESSION`, `src/bp/session/File.hxx:15`. -/
def magicRealmSession : UInt32 := 983957474

/-- `MAGIC_REALM_SESSION_OLD`, `src/bp/session/File.hxx:16`. -/
def magicRealmSessionOld : UInt32 := 983957473

/-- `MAGIC_WIDGET_SESSION`, `src/bp/session/File.hxx:17`. -/
def magicWidgetSession : UInt32 := 983957472

/-- `MAGIC_COOKIE`, `src/bp/session/File.hxx:18`. -/
def magicCookie : UInt32 := 860919820

/-- `MAGIC_END_OF_RECORD`, `src/bp/session/File.hxx:19`. -/
def magicEndOfRecord : UInt32 := 1588449078

/-- `MAGIC_END_OF_LIST`, `src/bp/session/File.hxx:20`. -/
def magicEndOfList : UInt32 := 1556616445

/-- `UINT16_MAX`: the length of a null pointer. -/
def uint16Max : Nat := 0xffff

/-- What is written, or the message of `SessionSerializerError`. -/
abbrev Output := Except String (List UInt8)

/-- One output after the other. -/
def concat : List Output → Output
  | [] => .ok []
  | output :: rest => do
    let bytes ← output
    let rest ← concat rest
    pure (bytes ++ rest)

/-- `FileWriter::WriteT`, `Write.cxx:32-55`. -/
def writeT {α : Type} [Pod α] (value : α) : Output := .ok (toBytes value)

/-- `FileWriter::WriteBool`, `Write.cxx:37-39`. -/
def writeBool (value : Bool) : Output := writeT (if value then 1 else 0 : UInt8)

/-- `FileWriter::Write32`, `Write.cxx:45-47`. -/
def write32 (value : UInt32) : Output := writeT value

/-- `FileWriter::Write` of a buffer, `Write.cxx:71-82`, and of a string,
`Write.cxx:84-86`. -/
def write : Option (List UInt8) → Output
  | none => writeT (UInt16.ofNat uint16Max)
  | some buffer =>
    if buffer.length ≥ uint16Max then .error "Buffer is too long"
    else concat [writeT (UInt16.ofNat buffer.length), .ok buffer]

mutual
/-- `WriteWidgetSession()`, `Write.cxx:115-122`. -/
def writeWidgetSession : WidgetSession → Output
  | .mk children pathInfo queryString =>
    concat [writeWidgetSessions children, write pathInfo, write queryString,
      write32 magicEndOfRecord]
  termination_by structural session => session

/-- `WriteWidgetSessions()`, `Write.cxx:124-134`. -/
def writeWidgetSessions : List (Text × WidgetSession) → Output
  | [] => write32 magicEndOfList
  | entry :: widgets => concat [writeWidgetEntry entry, writeWidgetSessions widgets]
  termination_by structural widgets => widgets

/-- The body of the loop, `Write.cxx:128-130`. -/
def writeWidgetEntry : Text × WidgetSession → Output
  | (id, session) =>
    concat [write32 magicWidgetSession, write (some id), writeWidgetSession session]
  termination_by structural entry => entry
end

/-- `WriteCookie()`, `Write.cxx:136-145`. -/
def writeCookie (cookie : Cookie Expiry) : Output :=
  concat [write cookie.name, write cookie.value, write cookie.domain, write cookie.path,
    writeT cookie.expires, write32 magicEndOfRecord]

/-- `WriteCookieJar()`, `Write.cxx:147-156`. -/
def writeCookieJar : List (Cookie Expiry) → Output
  | [] => write32 magicEndOfList
  | cookie :: jar => concat [concat [write32 magicCookie, writeCookie cookie], writeCookieJar jar]

/-- `WriteRealmSession()`, `Write.cxx:158-169`. -/
def writeRealmSession (session : RealmSession Expiry) : Output :=
  concat [write session.site, write session.translate, write session.user,
    writeT session.userExpires, writeWidgetSessions session.widgets,
    writeCookieJar session.cookies, writeT session.sessionCookieSameSite,
    write32 magicEndOfRecord]

/-- The loop in `session_write()`, `Write.cxx:183-189`. -/
def writeRealms : List (Text × RealmSession Expiry) → Output
  | [] => write32 magicEndOfList
  | (name, realm) :: realms =>
    concat [concat [write32 magicRealmSession, write (some name), writeRealmSession realm],
      writeRealms realms]

/-- `session_write()`, `Write.cxx:171-191`. -/
def sessionWrite (session : Session Expiry) : Output :=
  concat [writeT session.id, writeT session.expires, writeT session.counter,
    writeBool session.cookieReceived, write session.translate, write session.language,
    writeRealms session.realms, write32 magicEndOfRecord]

/-- Why reading fails: `SessionDeserializerError`, the end of the file, or a null pointer that is
used as a key. -/
inductive ReadError where
  | corrupt
  | endOfFile
  | nullPointer
  deriving DecidableEq, Repr

/-- A reader of bytes. -/
abbrev FileReader := Reader ReadError UInt8

/-- `FileReader::ReadT`, `Read.cxx:22-52`. -/
def readT (α : Type) [Pod α] : FileReader α := Reader.readT .endOfFile α

/-- `FileReader::ReadBool`, `Read.cxx:38-40`. -/
def readBool : FileReader Bool := do
  let byte ← readT UInt8
  pure (byte != 0)

/-- `FileReader::Read32`, `Read.cxx:42-44`. -/
def read32 : FileReader UInt32 := readT UInt32

/-- `FileReader::ReadArray`, `Read.cxx:68-78`. -/
def readArray : FileReader (Option (List UInt8)) := do
  let size ← readT UInt16
  if size.toNat = uint16Max then pure none
  else do
    let bytes ← takeFull .endOfFile size.toNat
    pure (some bytes)

/-- `FileReader::ReadString`, `Read.cxx:54-66`: the string ends at its first null
byte. -/
def readString : FileReader (Option Text) := do
  let bytes ← readArray
  pure (bytes.map fun bytes => bytes.takeWhile (· != 0))

/-- A string that is used as a key, `Read.cxx:136,217`. -/
def readKey : FileReader Text := do
  match ← readString with
  | none => throw .nullPointer
  | some key => pure key

/-- `Expect32()`, `Read.cxx:83-88`. -/
def expect32 (expected : UInt32) : FileReader Unit := do
  let value ← read32
  if value ≠ expected then throw .corrupt

/-- `ReadWidgetSession()`, `Read.cxx:107-122`, with the reader for the children. -/
def readWidgetSession (readChildren : FileReader (List (Text × WidgetSession))) :
    FileReader WidgetSession := do
  let children ← readChildren
  let pathInfo ← readString
  let queryString ← readString
  expect32 magicEndOfRecord
  pure (.mk children pathInfo queryString)

/-- The body of the loop in `ReadWidgetSessions()`, `Read.cxx:128-136`. -/
def readWidgetEntry (readSession : FileReader WidgetSession)
    (widgets : List (Text × WidgetSession)) : FileReader (Bool × List (Text × WidgetSession)) := do
  let magic ← read32
  if magic = magicEndOfList then pure (false, widgets)
  else if magic ≠ magicWidgetSession then throw .corrupt
  else do
    let id ← readKey
    let session ← readSession
    pure (true, emplace widgets id session)

/-- `ReadWidgetSessions()`, `Read.cxx:124-138`, at most `depth` levels deep. -/
def readWidgetSessionsIn : Nat → FileReader (List (Text × WidgetSession))
  | 0 => throw .endOfFile
  | depth + 1 =>
    loop .endOfFile (readWidgetEntry (readWidgetSession (readWidgetSessionsIn depth))) []

/-- `ReadWidgetSessions()`, `Read.cxx:124-138`; the bytes of the file limit the
number of levels. -/
def readWidgetSessions : FileReader (List (Text × WidgetSession)) := fun input =>
  readWidgetSessionsIn (input.length + 1) input

/-- `ReadCookie()`, `Read.cxx:140-153`. -/
def readCookie : FileReader (Cookie Expiry) := do
  let name ← readString
  let value ← readString
  let domain ← readString
  let path ← readString
  let expires ← readT Expiry
  expect32 magicEndOfRecord
  pure { name, value, domain, path, expires }

/-- The body of the loop in `ReadCookieJar()`, `Read.cxx:159-166`;
`CookieJar::Add`, `src/http/CookieJar.hxx:57-59`, inserts at the front. -/
def readCookieEntry (jar : List (Cookie Expiry)) : FileReader (Bool × List (Cookie Expiry)) := do
  let magic ← read32
  if magic = magicEndOfList then pure (false, jar)
  else if magic ≠ magicCookie then throw .corrupt
  else do
    let cookie ← readCookie
    pure (true, cookie :: jar)

/-- `ReadCookieJar()`, `Read.cxx:155-168`. -/
def readCookieJar : FileReader (List (Cookie Expiry)) := loop .endOfFile readCookieEntry []

/-- `ReadRealmSession()`, `Read.cxx:170-199`. -/
def readRealmSession (magic : UInt32) : FileReader (RealmSession Expiry) := do
  let haveTranslate ←
    if magic = magicRealmSession then pure true
    else if magic = magicRealmSessionOld then pure false
    else throw .corrupt
  let site ← readString
  let translate ← if haveTranslate then readArray else pure none
  let user ← readString
  let userExpires ← readT Expiry
  let widgets ← readWidgetSessions
  let cookies ← readCookieJar
  let sessionCookieSameSite ← readT CookieSameSite
  expect32 magicEndOfRecord
  pure { site, translate, user, userExpires, widgets, cookies, sessionCookieSameSite }

/-- The body of the loop in `DoReadSession()`, `Read.cxx:211-218`. -/
def readRealmEntry (realms : List (Text × RealmSession Expiry)) :
    FileReader (Bool × List (Text × RealmSession Expiry)) := do
  let magic ← read32
  if magic = magicEndOfList then pure (false, realms)
  else do
    let name ← readKey
    let realm ← readRealmSession magic
    pure (true, emplace realms name realm)

/-- `session_read()`, `Read.cxx:201-237`. -/
def sessionRead : FileReader (Session Expiry) := do
  let id ← readT SessionId
  let expires ← readT Expiry
  let counter ← readT UInt32
  let cookieReceived ← readBool
  let translate ← readArray
  let language ← readString
  let realms ← loop .endOfFile readRealmEntry []
  expect32 magicEndOfRecord
  pure { id, expires, counter, cookieReceived, translate, language, realms }

end BengProxy.Bp
