import BengProxy.Address.Apply

/-!
# Widgets and their URIs

Models a widget with the fields that its URIs depend on, `src/widget/Widget.hxx`, its class and its
views, the end of the lookup of the class, `src/widget/Resolver.cxx`, the session,
`src/widget/FromSession.cxx`, and the URIs, `src/widget/Uri.cxx`.

A string that may be a null pointer is an option. The address that a widget caches is calculated
each time; what it depends on does not change after the session has been loaded.
-/

namespace BengProxy.Widgets

open Base Text Uri Address List

/-- `WidgetView`, `src/widget/View.hxx:14-47`, with the result of `HasProcessor()`. -/
structure WidgetView where
  name : Option Text := none
  address : ResourceAddress
  hasProcessor : Bool := false
  deriving DecidableEq, Repr

/-- `WidgetClass`, `src/widget/Class.hxx:13-99`; `isRoot` if it is `root_widget_class`. -/
structure WidgetClass where
  views : List WidgetView := []
  localUri : Option Text := none
  untrustedHost : Option Text := none
  untrustedPrefix : Option Text := none
  untrustedSiteSuffix : Option Text := none
  untrustedRawSiteSuffix : Option Text := none
  directAddressing : Bool := false
  stateful : Bool := false
  anchorAbsolute : Bool := false
  isRoot : Bool := false
  deriving DecidableEq, Repr

/-- `FindByName`, `src/widget/VList.cxx:28-49`: the first view is the default and has no name. -/
def WidgetClass.findViewByName (cls : WidgetClass) (name : Option Text) : Option WidgetView :=
  if name.getD [] = [] then cls.views.head?
  else cls.views.tail.find? fun view => view.name = name

/-- `Widget::FromTemplate`, `Widget.hxx:136-156`. -/
structure FromTemplate where
  pathInfo : Text := []
  queryString : Option Text := none
  viewName : Option Text := none
  view : Option WidgetView := none
  deriving DecidableEq, Repr

/-- `Widget::from_request`, `Widget.hxx:162-207`; `hasBody` if there is a request
body. -/
structure FromRequest where
  pathInfo : Option Text := none
  queryString : Option Text := none
  view : Option WidgetView := none
  hasBody : Bool := false
  deriving DecidableEq, Repr

/-- `Widget`, `Widget.hxx:32-528`, with the result of `HasFocus()`. -/
structure Widget where
  cls : Option WidgetClass := none
  id : Option Text := none
  idPath : Option Text := none
  hasFocus : Bool := false
  sessionSyncPending : Bool := false
  sessionSavePending : Bool := false
  fromTemplate : FromTemplate := { }
  fromRequest : FromRequest := { }
  deriving DecidableEq, Repr

/-- `WidgetSession`, `src/bp/session/Session.hxx:30-53`. -/
structure WidgetSession where
  pathInfo : Option Text := none
  queryString : Option Text := none
  deriving DecidableEq, Repr

namespace Widget

/-- What `WidgetResolver::RegistryCallback` does to the widget,
`Resolver.cxx:189-197`. -/
def registryCallback (w : Widget) (cls : Option WidgetClass) : Widget :=
  let view := cls.bind (·.findViewByName w.fromTemplate.viewName)
  { w with
    cls := cls
    fromTemplate := { w.fromTemplate with view := view }
    fromRequest := { w.fromRequest with view := view }
    sessionSyncPending := cls.any (·.stateful) && view.isSome }

/-- `Widget::ShouldSyncSession`, `Widget.hxx:488-500`. -/
def shouldSyncSession (w : Widget) : Bool :=
  !w.fromRequest.hasBody && w.fromRequest.view.any (·.hasProcessor)

/-- `Widget::LoadFromSession`, `FromSession.cxx:25-67`, with the session of the widget,
if there is one. -/
def loadFromSession (w : Widget) (session : Option WidgetSession) : Widget :=
  let w := { w with sessionSyncPending := false }
  if w.shouldSyncSession = false then w
  else if w.hasFocus then { w with sessionSavePending := true }
  else
    match session with
    | none => w
    | some session =>
      { w with fromRequest := { w.fromRequest with
          pathInfo := session.pathInfo, queryString := session.queryString } }

variable (lib : UriLib) (w : Widget)

/-- `Widget::GetPathInfo`, `Widget.hxx:324-339`. -/
def getPathInfo (stateful : Bool) : Text :=
  if stateful then w.fromRequest.pathInfo.getD w.fromTemplate.pathInfo else w.fromTemplate.pathInfo

/-- The URI of an HTTP or LHTTP address with path info and query strings,
`Uri.cxx:100-121`. -/
def determineUri (stateful : Bool) (uri : Text) : Text :=
  let pathInfo := w.getPathInfo stateful
  -- avoid a double slash
  let pathInfo :=
    if (ascii "/").isPrefixOf pathInfo ∧ uri.getLast? = some 0x2f then pathInfo.drop 1
    else pathInfo
  let uri := uri ++ pathInfo
  let uri := w.fromTemplate.queryString.elim uri (uriInsertQueryString uri)
  if stateful then w.fromRequest.queryString.elim uri (uriAppendQueryString uri) else uri

/-- The CGI address with path info and query strings, `Uri.cxx:150-169`. -/
def determineCgi (stateful : Bool) (cgi : CgiAddress) : CgiAddress :=
  let pathInfo := w.getPathInfo stateful
  let request := w.fromRequest.queryString.getD []
  { cgi with
    pathInfo :=
      if pathInfo = [] then cgi.pathInfo
      else some (cgi.pathInfo.elim pathInfo fun info => uriAbsolute lib info pathInfo)
    queryString :=
      if stateful = false ∨ request = [] then w.fromTemplate.queryString
      else
        match w.fromTemplate.queryString with
        | none => some request
        | some query => some (request ++ ascii "&" ++ query) }

/-- `Widget::DetermineAddress`, `Uri.cxx:73-173`, with the view of the widget. -/
def determineAddress (view : WidgetView) (stateful : Bool) : ResourceAddress :=
  if (stateful = false ∨ w.fromRequest.queryString.getD [] = []) ∧
      w.getPathInfo stateful = [] ∧ w.fromTemplate.queryString = none then view.address
  else
    match view.address with
    | .http a => (ResourceAddress.http a).withPath (w.determineUri stateful a.path)
    | .lhttp a => (ResourceAddress.lhttp a).withPath (w.determineUri stateful a.uri)
    | .cgi type a => .cgi type (w.determineCgi lib stateful a)
    | address => address

/-- `Widget::GetBaseAddress`, `Uri.cxx:27-51`: the query string of the request is deleted
from the path of the address, not from what the first deletion has left. -/
def getBaseAddress (view : WidgetView) (stateful : Bool) : ResourceAddress :=
  match w.determineAddress lib view stateful, w.fromTemplate.queryString with
  | .http src, some query =>
    let request := w.fromRequest.queryString.getD []
    let uri := uriDeleteQueryString src.path (if request = [] then query else request)
    if uri = src.path then .http src else (ResourceAddress.http src).withPath uri
  | src, _ => src

/-- The widget without the query strings of the template and of the request. -/
def withoutQueryStrings : Widget :=
  { w with
    fromTemplate := { w.fromTemplate with queryString := none }
    fromRequest := { w.fromRequest with queryString := none } }

section

variable {lib : UriLib} {w : Widget} {view : WidgetView} {a : HttpAddress}

private theorem determineAddress_http (ha : view.address = .http a)
    (hr : w.fromRequest.queryString ≠ some []) :
    ∃ b, w.determineAddress lib view true = .http b ∧ b.path = w.determineUri true a.path := by
  rw [determineAddress, ha]
  split
  next hn =>
    refine ⟨a, rfl, ?_⟩
    have hq : w.fromRequest.queryString = none := by
      cases hc : w.fromRequest.queryString with
      | none => rfl
      | some query => simp_all
    simp [determineUri, hn.2.1, hn.2.2, hq]
  · exact ⟨_, rfl, rfl⟩

private theorem hasEmptyQuery_determineUri :
    hasEmptyQuery (w.withoutQueryStrings.determineUri true a.path) =
      hasEmptyQuery (a.path ++ w.getPathInfo true) := by
  change hasEmptyQuery (a.path ++
    if (ascii "/").isPrefixOf (w.getPathInfo true) ∧ a.path.getLast? = some 0x2f then
      (w.getPathInfo true).drop 1
    else w.getPathInfo true) = _
  split
  next hs =>
    obtain ⟨p, hp⟩ := getLast?_eq_some_iff.mp hs.2
    obtain ⟨info, hi⟩ := isPrefixOf_iff_prefix.mp hs.1
    rw [hp, ← hi, hasEmptyQuery, hasEmptyQuery]
    simp [ascii, getLast?_append]
  · rfl

private theorem determineUri_eq (path : Text) :
    w.determineUri true path = let uri := w.withoutQueryStrings.determineUri true path
      let uri := w.fromTemplate.queryString.elim uri (uriInsertQueryString uri)
      w.fromRequest.queryString.elim uri (uriAppendQueryString uri) := rfl

private theorem getBaseAddress_http {b : HttpAddress}
    (hb : w.determineAddress lib view true = .http b) :
    ∃ d, w.getBaseAddress lib view true = .http d ∧
      d.path = w.fromTemplate.queryString.elim b.path fun query =>
        let request := w.fromRequest.queryString.getD []
        uriDeleteQueryString b.path (if request = [] then query else request) := by
  rw [getBaseAddress, hb]
  cases w.fromTemplate.queryString with
  | none => exact ⟨b, rfl, rfl⟩
  | some query =>
    dsimp only [Option.elim]
    generalize (if w.fromRequest.queryString.getD [] = [] then query else _) = needle
    split
    next hu => exact ⟨b, rfl, hu.symm⟩
    · exact ⟨_, rfl, rfl⟩

/-- The base address of an HTTP address has the path of the address without the two query strings
exactly if the request has no query string, and the template has none either or it has not been
inserted into an empty one: the query string of the request is never deleted, and an empty query
string is deleted with the one of the template. -/
theorem getBaseAddress_path_iff (ha : view.address = .http a)
    (ht : w.fromTemplate.queryString ≠ some []) (hr : w.fromRequest.queryString ≠ some []) :
    (∃ b c, w.getBaseAddress lib view true = .http b ∧
        w.withoutQueryStrings.determineAddress lib view true = .http c ∧ b.path = c.path) ↔
      w.fromRequest.queryString = none ∧
        (w.fromTemplate.queryString = none ∨
          hasEmptyQuery (a.path ++ w.getPathInfo true) = false) := by
  obtain ⟨b, hb, hp⟩ := @determineAddress_http lib _ _ _ ha hr
  obtain ⟨c, hc, hq⟩ := @determineAddress_http lib w.withoutQueryStrings _ _ ha
    (Option.some_ne_none _).symm
  obtain ⟨d, hd, hu⟩ := getBaseAddress_http hb
  rw [determineUri_eq, ← hq] at hp
  rw [← hasEmptyQuery_determineUri, ← hq, hd, hc]
  simp only [ResourceAddress.http.injEq, exists_and_left, exists_eq_left', hu]
  cases hrq : w.fromRequest.queryString with
  | none =>
    cases htq : w.fromTemplate.queryString with
    | none => simp_all
    | some query =>
      have hn : query ≠ [] := by simpa [htq] using ht
      simp only [htq, hrq, Option.elim, Option.getD_none, if_true] at hp ⊢
      rw [hp, uriDeleteQueryString_insert _ hn]
      simp
  | some request =>
    -- what is left is longer than the path without the query strings
    have hn : request ≠ [] := by simpa [hrq] using hr
    have hl := congrArg length hp
    rw [hrq, Option.elim, length_uriAppendQueryString] at hl
    simp only [reduceCtorEq, false_and, iff_false]
    intro he
    cases htq : w.fromTemplate.queryString with
    | none =>
      simp only [htq, Option.elim] at he hl
      rw [he] at hl
      omega
    | some query =>
      have hm : 0 < query.length := length_pos_iff.mpr (by simpa [htq] using ht)
      have hx := length_le_uriDeleteQueryString b.path request
      simp only [htq, Option.elim, Option.getD_some, if_neg hn] at he hl
      rw [length_uriInsertQueryString] at hl
      rw [he] at hx
      omega

/-- A view with an HTTP address. -/
def pathView : WidgetView := { address := .http { path := ascii "/p" } }

/-- A widget with a query string of its template, and maybe one of the request. -/
def queryWidget (request : Option Text) : Widget :=
  { fromTemplate := { queryString := some (ascii "t=1") }
    fromRequest := { queryString := request } }

/-- The query string of the template is deleted. -/
theorem getBaseAddress_template :
    ∃ b c, getBaseAddress pathLib (queryWidget none) pathView true = .http b ∧
      determineAddress pathLib (queryWidget none).withoutQueryStrings pathView true = .http c ∧
      b.path = c.path :=
  (getBaseAddress_path_iff rfl (by decide) (by decide)).mpr ⟨rfl, Or.inr (by decide)⟩

/-- With a query string of the request as well, neither of them is deleted. -/
theorem getBaseAddress_keeps_query :
    getBaseAddress pathLib (queryWidget (some (ascii "r=2"))) pathView true =
        .http { path := ascii "/p?t=1&r=2" } ∧
      determineAddress pathLib (queryWidget (some (ascii "r=2"))).withoutQueryStrings pathView
        true = .http { path := ascii "/p" } := by
  decide

end

variable (cls : WidgetClass)

/-- The relative URI is relative to the base URI of the class: the rest of it,
`Uri.cxx:181-187,215-221`. -/
def skipAnchor (relative : Text) : Option Text :=
  if (ascii "~/").isPrefixOf relative then some (relative.drop 2)
  else if (ascii "/").isPrefixOf relative ∧ cls.anchorAbsolute then some (relative.drop 1)
  else none

/-- `Widget::AbsoluteUri`, `Uri.cxx:175-207`. It must be called for HTTP addresses
only. -/
def absoluteUri (view : WidgetView) (stateful : Bool) (relative : Option Text) : Option Text :=
  let anchored := relative.bind (skipAnchor cls)
  let relative := anchored.or relative
  match w.determineAddress lib view (stateful && anchored.isNone) with
  | .http uwa =>
    match relative with
    | none => some uwa.getAbsoluteUri
    | some relative =>
      let uri := uriAbsolute lib uwa.path relative
      let uri :=
        if relative = [] then uri
        else w.fromTemplate.queryString.elim uri (uriInsertQueryString uri)
      some { uwa with path := uri }.getAbsoluteUri
  | _ => none

/-- `Widget::RelativeUri`, `Uri.cxx:210-226`. -/
def relativeUri (view : WidgetView) (stateful : Bool) (relative : Text) : Option Text :=
  match skipAnchor cls relative with
  | some rest => view.address.relativeToApplied lib view.address rest
  | none => view.address.relativeToApplied lib (w.getBaseAddress lib view stateful) relative

/-- `Widget::ExternalUri`, `Uri.cxx:250-314`. -/
def externalUri (template : WidgetView)
    (externalBaseUri : Option Text) (args : Option StringMap) (stateful : Bool)
    (relative : Option Text) (frame view : Option Text) : Option Text := do
  let path ← w.idPath
  let externalBaseUri ← externalBaseUri
  if cls.isRoot then none
  let p ← match relative with
    | none => some none
    | some relative => (w.relativeUri lib cls template stateful relative).map some
  -- no query string in the relative URI: remove the configured parameters
  let p :=
    match p, w.fromTemplate.queryString with
    | some uri, some query =>
      some (if 0x3f ∈ relative.getD [] then uri else uriDeleteQueryString uri query)
    | p, _ => p
  let queryString := (p.getD []).dropWhile (· ≠ 0x3f)
  let p := p.map (·.takeWhile (· ≠ 0x3f))
  -- new-style direct URI addressing
  let direct := p.isSome ∧ cls.directAddressing ∧ frame = some path
  let suffix := if direct then p.getD [] else []
  let p := if direct then none else p
  let args := argsFormatN lib args ((ascii "focus", path) ::
    ((p.map fun p => (ascii "path", p)).toList ++ (frame.map fun f => (ascii "frame", f)).toList))
  return externalBaseUri ++ ascii ";" ++ args ++ view.elim [] (ascii "&view=" ++ ·) ++
    (if suffix = [] then [] else ascii "/" ++ suffix) ++ queryString

end Widget

end BengProxy.Widgets
