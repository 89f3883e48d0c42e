import BengProxy.Escape.Exchange
import BengProxy.Widget.Widget

/-!
# Rewriting URIs to a widget

Models `rewrite_widget_uri()`, `src/widget/RewriteUri.cxx`, which replaces a URI in an attribute or
a style sheet by one that leads to a widget. If the class of the widget is known, then the URI is
rewritten at once; if not, then an object waits for the class and rewrites it then.

A string that was unescaped to the temporary pool is gone when the lease of this pool ends. The
delayed stream reads it later, which is an outcome of its own.
-/

namespace BengProxy.Widgets

open Base Text Uri Address Escape

/-- The functions of the library. -/
structure RewriteLib where
  uri : UriLib
  utf8 : Utf8Lib
  args : Lookup

/-- `RewriteUriMode`, `src/widget/RewriteUri.hxx:21-31`. -/
inductive RewriteUriMode where
  | direct
  | focus
  | partialMode
  | response
  deriving DecidableEq, Repr

/-- `WidgetContext`, `src/widget/Context.hxx:25-82`. -/
structure WidgetContext where
  siteName : Option Text := none
  untrustedHost : Option Text := none
  absoluteUri : Option Text := none
  externalBaseUri : Option Text := none
  args : Option StringMap := none
  deriving DecidableEq, Repr

/-- `uri_replace_hostname`, `RewriteUri.cxx:63-82`. -/
def uriReplaceHostname (lib : UriLib) (uri hostname : Text) : Option Text :=
  match lib.hostAndPort uri with
  | none => if uri.head? = some 0x2f then some (ascii "//" ++ hostname ++ uri) else none
  | some (before, oldHost, after) =>
    some (before ++ hostname ++ oldHost.dropWhile (· ≠ 0x3a) ++ after)

/-- `uri_add_prefix`, `RewriteUri.cxx:84-118`: if the URI has a host, then what follows
the host is dropped. -/
def uriAddPrefix (lib : UriLib) (uri : Text) (absoluteUri untrustedHost : Option Text)
    (untrustedPrefix : Text) : Text :=
  if untrustedHost.isSome then uri
  else if uri.head? = some 0x2f then
    match absoluteUri.bind lib.hostAndPort with
    | none => uri
    | some (before, host, _) => before ++ untrustedPrefix ++ ascii "." ++ host ++ uri
  else
    match lib.hostAndPort uri with
    | none => uri
    | some (before, host, _) => before ++ untrustedPrefix ++ ascii "." ++ host

/-- `uri_add_site_suffix` and `uri_add_raw_site_suffix`, `RewriteUri.cxx:120-174`, with
what is added to the name of the site. -/
def uriAddSuffix (lib : UriLib) (uri : Text) (siteName untrustedHost : Option Text)
    (suffix : Text) : Text :=
  if untrustedHost.isSome then uri
  else
    match siteName, lib.pathQueryFragment uri with
    | some site, some (_, path) => ascii "//" ++ site ++ suffix ++ path
    | _, _ => uri

/-- The URI of an untrusted widget, `RewriteUri.cxx:232-246`. -/
def uriUntrusted (lib : UriLib) (ctx : WidgetContext) (cls : WidgetClass) (uri : Text) :
    Option Text :=
  if cls.untrustedHost.isSome ∧ cls.untrustedHost ≠ ctx.untrustedHost then
    uriReplaceHostname lib uri (cls.untrustedHost.getD [])
  else
    match cls.untrustedPrefix, cls.untrustedSiteSuffix, cls.untrustedRawSiteSuffix with
    | some untrustedPrefix, _, _ =>
      some (uriAddPrefix lib uri ctx.absoluteUri ctx.untrustedHost untrustedPrefix)
    | none, some suffix, _ =>
      some (uriAddSuffix lib uri ctx.siteName ctx.untrustedHost (ascii "." ++ suffix))
    | none, none, some suffix => some (uriAddSuffix lib uri ctx.siteName ctx.untrustedHost suffix)
    | none, none, none => some uri

/-- The parameters of `rewrite_widget_uri()`, which `UriRewriter` keeps,
`RewriteUri.cxx:257-273`. -/
structure UriRewriter where
  value : Option Text
  mode : RewriteUriMode
  stateful : Bool
  view : Option Text
  escape : Option EscapeName
  deriving DecidableEq, Repr

/-- `do_rewrite_widget_uri`, `RewriteUri.cxx:176-249`, with the class and the view of the
widget. It must not be called for the mode `RESPONSE`. -/
def doRewriteWidgetUri (lib : RewriteLib) (ctx : WidgetContext) (w : Widget) (cls : WidgetClass)
    (template : WidgetView) (r : UriRewriter) (value : Option Text) : Option Text :=
  match cls.localUri, (ascii "@/").isPrefixOf (value.getD []) with
  -- relative to the "local URI" of the widget
  | some localUri, true => some (localUri ++ (value.getD []).drop 2)
  | _, _ =>
    let external (frame : Option Text) : Option Text :=
      (w.externalUri lib.uri cls template ctx.externalBaseUri ctx.args r.stateful value frame
        r.view).bind (uriUntrusted lib.uri ctx cls)
    match r.mode with
    | .direct =>
      if template.address.isHttp then w.absoluteUri lib.uri cls template r.stateful value else none
    | .focus => external (ctx.args.bind fun args => args.get lib.args (ascii "frame"))
    | .partialMode => w.idPath.bind fun path => external (some path)
    | .response => none

/-- What is in the output in the place of the value: the bytes of a stream, the response of the
widget, bytes that were read from memory that had been released before, or nothing, because the
escape class was used while there is none. -/
inductive Outcome where
  | text (bytes : Text)
  | response
  | released (bytes : Text)
  | nullPointer
  deriving DecidableEq, Repr

/-- What `rewrite_widget_uri()` returns: nothing, if the value is to be left as it is, the stream of
the response of the widget, the stream of a URI, or a delayed stream. -/
inductive Rewritten where
  | unchanged
  | response
  | uri (uri : Text)
  | delayed
  deriving DecidableEq, Repr

namespace UriRewriter

variable (lib : RewriteLib)

/-- What a stream of a URI emits, `RewriteUri.cxx:359-362,419-421`: the stream of
`istream_escape_new()` emits the escaped string. -/
def escaped (r : UriRewriter) (uri : Text) : Text :=
  r.escape.elim uri fun name => (name.cls lib.utf8).escape uri

/-- The value that the synchronous branch rewrites, `RewriteUri.cxx:408-411`. -/
def unescaped (r : UriRewriter) : Option Text :=
  match r.escape, r.value with
  | some name, some value =>
    if ((name.cls lib.utf8).unescapeFind value).isSome then
      some ((name.cls lib.utf8).unescape value)
    else some value
  | _, value => value

variable (ctx : WidgetContext)

/-- `rewrite_widget_uri`, `RewriteUri.cxx:376-433`. -/
def rewriteWidgetUri (w : Widget) (r : UriRewriter) : Rewritten :=
  if lib.uri.hasAuthority (r.value.getD []) then .unchanged
  else if r.mode = .response then .response
  else
    match w.cls, w.fromTemplate.view with
    | none, _ => .delayed
    -- refuse to rewrite when an invalid view name was specified
    | some _, none => .unchanged
    | some cls, some template =>
      match doRewriteWidgetUri lib ctx w cls template r (r.unescaped lib) with
      | none => .unchanged
      | some uri => .uri uri

variable (session : Option (Option WidgetSession))

/-- The session is loaded when the class is known, `RewriteUri.cxx:333-339`, with the
session, if there is one, and what it has on the widget. -/
def syncSession (w : Widget) : Widget :=
  if w.sessionSyncPending then
    match session with
    | some session => w.loadFromSession session
    | none => { w with sessionSyncPending := false }
  else w

/-- `UriRewriter::ResolverCallback`, `RewriteUri.cxx:326-369`. The value is unescaped if
it has an ampersand, whatever the escape class is, and what was unescaped is in the temporary
pool. -/
def resolverCallback (w : Widget) (r : UriRewriter) : Widget × Outcome :=
  match w.cls, w.fromTemplate.view with
  | some cls, some template =>
    let w := syncSession session w
    if 0x26 ∈ r.value.getD [] then
      match r.escape with
      | none => (w, .nullPointer)
      | some name =>
        let value := (name.cls lib.utf8).unescape (r.value.getD [])
        match doRewriteWidgetUri lib ctx w cls template r (some value) with
        | some uri => (w, .text (r.escaped lib uri))
        | none => (w, if value = [] then .text [] else .released value)
    else
      match doRewriteWidgetUri lib ctx w cls template r r.value with
      | some uri => (w, .text (r.escaped lib uri))
      | none => (w, .text (r.value.getD []))
  | _, _ => (w, .text (r.value.getD []))

/-- What is in the output at last, if the class of the widget is known or could not be found by
then. -/
def output (w : Widget) (r : UriRewriter) : Rewritten → Outcome
  | .unchanged => .text (r.value.getD [])
  | .response => .response
  | .uri uri => .text (r.escaped lib uri)
  | .delayed => (r.resolverCallback lib ctx session w).2

end UriRewriter

end BengProxy.Widgets
