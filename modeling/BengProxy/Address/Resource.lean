import BengProxy.Base.Text

/-!
# Resource addresses

Models `ResourceAddress`, `src/ResourceAddress.{cxx,hxx}`, with the kinds of addresses it can hold,
and the ids that are generated from them for use as a key. A string that may be a null pointer is
an option. Copying an address to another allocator is the identity.

What the library provides is a parameter: the hash functions, and what is asked of the options of a
child process.
-/

namespace BengProxy.Address

open Base Text List

/-- `StringWithHash`: a string with a hash that was calculated before. -/
structure StringWithHash where
  value : Text
  hash : UInt64
  deriving DecidableEq, Repr

/-- `djb_hash()` without and with an initial value. -/
structure HashLibrary where
  hash : Text → UInt64
  update : Text → UInt64 → UInt64

/-- The usual hash: times 33, plus the next character. -/
def djbHash : HashLibrary where
  hash s := s.foldl (fun hash c => hash * 33 + c.toUInt64) 5381
  update s := s.foldl fun hash c => hash * 33 + c.toUInt64

/-- The constructor of `StringWithHash` that calculates the hash. -/
def StringWithHash.of (lib : HashLibrary) (value : Text) : StringWithHash := ⟨value, lib.hash value⟩

/-- `resource_tag_concat`, `src/resource_tag.cxx:16-24`. -/
def resourceTagConcat (a : StringWithHash) (separator : Text) (b : StringWithHash) :
    StringWithHash :=
  ⟨a.value ++ separator ++ b.value, a.hash ^^^ b.hash⟩

/-- `ChildOptions`: the results of `MakeId()`, `GetHash()` and `IsExpandable()`, and the
environment. -/
structure ChildOptions where
  id : Text := []
  hash : UInt64 := 0
  isExpandable : Bool := false
  env : List Text := []
  deriving DecidableEq, Repr

/-- `ExpandableStringList`. -/
structure ExpandableStringList where
  strings : List Text := []
  isExpandable : Bool := false
  deriving DecidableEq, Repr

/-- `FileAddress`, `src/file/Address.hxx:17-44`. -/
structure FileAddress where
  path : Text
  gzipped : Option Text := none
  beneath : Option Text := none
  base : Option Text := none
  contentType : Option Text := none
  contentTypeLookup : Text := []
  autoGzipped : Bool := false
  autoBrotliPath : Bool := false
  expandPath : Bool := false
  deriving DecidableEq, Repr

/-- `HttpAddress`, `src/http/Address.hxx:17-44`. -/
structure HttpAddress where
  ssl : Bool := false
  http2 : Bool := false
  expandPath : Bool := false
  certificate : Option Text := none
  hostAndPort : Option Text := none
  path : Text
  addresses : List Text := []
  deriving DecidableEq, Repr

/-- `LhttpAddress`, `src/http/local/Address.hxx:20-55`. -/
structure LhttpAddress where
  path : Text
  args : ExpandableStringList := { }
  options : ChildOptions := { }
  hostAndPort : Option Text := none
  uri : Text
  parallelism : Nat := 0
  concurrency : Nat := 1
  blocking : Bool := true
  expandUri : Bool := false
  deriving DecidableEq, Repr

/-- `CgiAddress`, `src/cgi/Address.hxx:23-85`. -/
structure CgiAddress where
  path : Text
  args : ExpandableStringList := { }
  params : ExpandableStringList := { }
  options : ChildOptions := { }
  interpreter : Option Text := none
  action : Option Text := none
  uri : Option Text := none
  scriptName : Option Text := none
  pathInfo : Option Text := none
  queryString : Option Text := none
  documentRoot : Option Text := none
  addressList : List Text := []
  cachedChildId : Option StringWithHash := none
  parallelism : Nat := 0
  concurrency : Nat := 0
  disposable : Bool := false
  requestUriVerbatim : Bool := false
  expandPath : Bool := false
  expandUri : Bool := false
  expandScriptName : Bool := false
  expandPathInfo : Bool := false
  expandDocumentRoot : Bool := false
  deriving DecidableEq, Repr

/-- The types that use a `CgiAddress` and support base addresses. -/
inductive CgiType where
  | cgi
  | fastcgi
  | was
  deriving DecidableEq, Repr

/-- `ResourceAddress`, `ResourceAddress.hxx:25-55`. -/
inductive ResourceAddress where
  | none
  | file (address : FileAddress)
  | http (address : HttpAddress)
  | lhttp (address : LhttpAddress)
  | pipe (address : CgiAddress)
  | cgi (type : CgiType) (address : CgiAddress)
  deriving DecidableEq, Repr

section Ids

variable (lib : HashLibrary) (id : StringWithHash)

/-- A part of an id that is not in its hash. -/
def StringWithHash.append (part : Text) : StringWithHash :=
  { id with value := id.value ++ part }

/-- A part of an id after a mark, and its hash. -/
def StringWithHash.push (mark part : Text) : StringWithHash :=
  ⟨id.value ++ mark ++ part, lib.update part id.hash⟩

/-- A part of an id after a mark, if there is one. -/
def StringWithHash.pushOption (mark : Text) (part : Option Text) : StringWithHash :=
  part.elim id (id.push lib mark)

/-- Parts of an id, each one after a mark. -/
def StringWithHash.pushAll (mark : Text) (parts : List Text) : StringWithHash :=
  parts.foldl (fun id part => id.push lib mark part) id

/-- `HttpAddress::GetAbsoluteURI`, `src/http/Address.cxx:136-159`. -/
def HttpAddress.getAbsoluteUri (a : HttpAddress) : Text :=
  match a.hostAndPort with
  | some host => ascii "http://" ++ host ++ a.path
  | .none => ascii "unix:" ++ a.path

/-- `LhttpAddress::GetServerId`, `src/http/local/Address.cxx:44-60`. -/
def LhttpAddress.getServerId (a : LhttpAddress) : StringWithHash :=
  .of lib (a.path ++ a.options.id ++ a.args.strings.flatMap (ascii "!" ++ ·))

/-- `LhttpAddress::GetId`, `src/http/local/Address.cxx:62-74`.
The address has been checked, so that there is a URI. -/
def LhttpAddress.getId (a : LhttpAddress) : StringWithHash :=
  let id := a.getServerId lib
  let id := a.hostAndPort.elim id fun host => resourceTagConcat id (ascii ";h=") (.of lib host)
  resourceTagConcat id (ascii ";u=") (.of lib a.uri)

/-- `CgiAddress::BuildChildId`, `src/cgi/Address.cxx:104-132`. -/
def CgiAddress.buildChildId (a : CgiAddress) : StringWithHash :=
  let id := StringWithHash.push lib ⟨[], a.options.hash⟩ [] (a.action.getD a.path)
  let id := id.pushAll lib (ascii "!") a.args.strings
  let id := id.pushAll lib (ascii "$") a.options.env
  id.append a.options.id

/-- `CgiAddress::GetChildId`, `src/cgi/Address.cxx:134-146`. -/
def CgiAddress.getChildId (a : CgiAddress) : StringWithHash :=
  a.cachedChildId.getD (a.buildChildId lib)

/-- `CgiAddress::GetId`, `src/cgi/Address.cxx:148-220`. The document root is not in the hash, and
the path info is in the value twice. -/
def CgiAddress.getId (a : CgiAddress) : StringWithHash :=
  let id := a.getChildId lib
  let id := a.action.elim id fun _ => id.push lib (ascii ";p=") a.path
  let id := a.documentRoot.elim id fun root => id.append (ascii ";d=" ++ root)
  let id := id.pushOption lib (ascii ";i=") a.interpreter
  let id := id.pushAll lib (ascii "!") a.params.strings
  let id := match a.uri with
    | some uri => id.push lib (ascii ";u=") uri
    | .none => id.pushOption lib (ascii ";s=") a.scriptName
  let id := a.pathInfo.elim id fun info => id.push lib (ascii ";p=" ++ info) info
  id.pushOption lib (ascii "?") a.queryString

/-- `ResourceAddress::GetId`, `ResourceAddress.cxx:463-487`. -/
def ResourceAddress.getId : ResourceAddress → StringWithHash
  | .none => ⟨[], 0⟩
  | .file a => .of lib a.path
  | .http a => .of lib a.getAbsoluteUri
  | .lhttp a => a.getId lib
  | .pipe a => a.getId lib
  | .cgi _ a => a.getId lib

end Ids

/-- What the child process and the request depend on. -/
def CgiAddress.SameResource (a b : CgiAddress) : Prop :=
  a.path = b.path ∧ a.action = b.action ∧ a.args.strings = b.args.strings ∧
    a.options.env = b.options.env ∧ a.interpreter = b.interpreter ∧
    a.documentRoot = b.documentRoot ∧ a.params.strings = b.params.strings ∧ a.uri = b.uri ∧
    a.scriptName = b.scriptName ∧ a.pathInfo = b.pathInfo ∧ a.queryString = b.queryString

/-- Two addresses denote the same resource. -/
def ResourceAddress.SameResource : ResourceAddress → ResourceAddress → Prop
  | .none, .none => True
  | .file a, .file b => a.path = b.path
  | .http a, .http b => a.hostAndPort = b.hostAndPort ∧ a.path = b.path
  | .lhttp a, .lhttp b =>
    a.path = b.path ∧ a.args.strings = b.args.strings ∧ a.hostAndPort = b.hostAndPort ∧
      a.uri = b.uri
  | .pipe a, .pipe b => a.SameResource b
  | .cgi type a, .cgi type' b => type = type' ∧ a.SameResource b
  | _, _ => False

end BengProxy.Address
