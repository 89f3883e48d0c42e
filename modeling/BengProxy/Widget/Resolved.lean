import BengProxy.Widget.RewriteUri

/-!
# A class that is known and one that is looked up

Whether the class of a widget is known or has to be looked up first, the output should be the same,
and the value should be left as it is if there is no URI. The two branches differ in three ways: the
callback unescapes a value with an ampersand even if there is no escape class; it unescapes CSS by
the ampersand and not by the backslash; and if there is no URI, then it emits what it has unescaped,
from a pool that has been cleared.
-/

namespace BengProxy.Widgets

open Base Text Uri Address Escape List

namespace UriRewriter

variable {lib : RewriteLib} {ctx : WidgetContext} {session : Option (Option WidgetSession)}
  {w w1 : Widget} {r : UriRewriter}

/-- What is in the place of the value, with a URI or without one. -/
def replacement (lib : RewriteLib) (r : UriRewriter) (uri : Option Text) : Text :=
  uri.elim (r.value.getD []) (r.escaped lib)

/-- The value gives no URI: the class is not known, the widget has no view, or nothing is
returned by `do_rewrite_widget_uri()`. -/
def NoUri (lib : RewriteLib) (ctx : WidgetContext) (w : Widget) (r : UriRewriter) : Prop :=
  ∀ cls template, w.cls = some cls → w.fromTemplate.view = some template →
    doRewriteWidgetUri lib ctx w cls template r (r.unescaped lib) = none

/-- The condition on the value. If it has an ampersand, then there are an escape class and a URI. In
CSS without an ampersand, there is nothing to unescape. -/
def Agrees (lib : RewriteLib) (ctx : WidgetContext) (w : Widget) (r : UriRewriter) : Prop :=
  ∀ cls template, w.cls = some cls → w.fromTemplate.view = some template →
    lib.uri.hasAuthority (r.value.getD []) = false → r.mode ≠ .response →
    (0x26 ∈ r.value.getD [] → ∃ name, r.escape = some name ∧
      doRewriteWidgetUri lib ctx w cls template r
        (some ((name.cls lib.utf8).unescape (r.value.getD []))) ≠ none) ∧
    (r.escape = some .css → 0x26 ∉ r.value.getD [] →
      cssUnescape (r.value.getD []) = r.value.getD [])

private theorem cssUnescape_plain {p : Text} (h : 0x5c ∉ p) : cssUnescape p = p := by
  rw [cssUnescape, cut_eq_none h]

private theorem isSome_cssUnescapeFind {p : Text} :
    (cssUnescapeFind p).isSome = true ↔ 0x5c ∈ p := by
  rw [cssUnescapeFind, findIdx?_isSome, any_beq', contains_iff_mem]

private theorem isSome_htmlUnescapeFind {p : Text} :
    (htmlUnescapeFind p).isSome = true ↔ 0x26 ∈ p := by
  rw [htmlUnescapeFind, findIdx?_isSome, any_beq', contains_iff_mem]

private theorem unescaped_css (h : r.escape = some .css) :
    r.unescaped lib = r.value.map cssUnescape := by
  rw [unescaped, h]
  cases r.value with
  | none => rfl
  | some value =>
    change (if (cssUnescapeFind value).isSome = true then some (cssUnescape value)
      else some value) = some (cssUnescape value)
    by_cases hme : 0x5c ∈ value
    · rw [if_pos (isSome_cssUnescapeFind.mpr hme)]
    · rw [if_neg (isSome_cssUnescapeFind.not.mpr hme), cssUnescape_plain hme]

private theorem unescaped_html (h : r.escape = some .html) :
    r.unescaped lib = if 0x26 ∈ r.value.getD [] then
      some (htmlUnescape lib.utf8 (r.value.getD [])) else r.value := by
  rw [unescaped, h]
  cases r.value with
  | none => rw [if_neg (show (0x26 : UInt8) ∉ (none : Option Text).getD [] from not_mem_nil)]
  | some value =>
    change (if (htmlUnescapeFind value).isSome = true then some (htmlUnescape lib.utf8 value)
      else some value) = _
    rw [Option.getD_some]
    by_cases hme : 0x26 ∈ value
    · rw [if_pos (isSome_htmlUnescapeFind.mpr hme), if_pos hme]
    · rw [if_neg (isSome_htmlUnescapeFind.not.mpr hme), if_neg hme]

private theorem unescaped_of_ampersand {name : EscapeName} (h : r.escape = some name)
    (hme : 0x26 ∈ r.value.getD []) :
    r.unescaped lib = some ((name.cls lib.utf8).unescape (r.value.getD [])) := by
  cases name with
  | css =>
    rw [unescaped_css h]
    cases hv : r.value with
    | none =>
      rw [hv] at hme
      exact absurd hme not_mem_nil
    | some value => rfl
  | html => rw [unescaped_html h, if_pos hme]; rfl

private theorem unescaped_of_plain (h : r.escape ≠ some .css) (hme : 0x26 ∉ r.value.getD []) :
    r.unescaped lib = r.value := by
  cases hna : r.escape with
  | none => rw [unescaped, hna]
  | some name =>
    cases name with
    | css => exact absurd hna h
    | html => rw [unescaped_html hna, if_neg hme]

private theorem syncSession_keeps (session : Option (Option WidgetSession)) (w : Widget) :
    (syncSession session w).cls = w.cls ∧
      (syncSession session w).fromTemplate = w.fromTemplate := by
  unfold syncSession Widget.loadFromSession
  simp only
  split
  · split
    · split
      · exact ⟨rfl, rfl⟩
      split
      · exact ⟨rfl, rfl⟩
      · split
        all_goals exact ⟨rfl, rfl⟩
    · exact ⟨rfl, rfl⟩
  · exact ⟨rfl, rfl⟩

private theorem resolverCallback_of_unusable (h : w.cls = none ∨ w.fromTemplate.view = none) :
    r.resolverCallback lib ctx session w = (w, .text (r.value.getD [])) := by
  unfold resolverCallback
  split
  next cls template hcls hview =>
    rw [hcls, hview] at h
    rcases h with h | h
    · cases h
    · cases h
  · rfl

variable {cls : WidgetClass} {template : WidgetView}

section

variable (hcls : w.cls = some cls)
include hcls

variable (hview : w.fromTemplate.view = some template)
include hview

private theorem resolverCallback_fst :
    (r.resolverCallback lib ctx session w).1 = syncSession session w := by
  rw [resolverCallback, hcls, hview]
  simp only
  split
  · split
    · rfl
    · split
      · rfl
      · rfl
  · split
    · rfl
    · rfl

private theorem resolverCallback_of_plain (hme : 0x26 ∉ r.value.getD []) :
    (r.resolverCallback lib ctx session w).2 = .text (r.replacement lib
      (doRewriteWidgetUri lib ctx (syncSession session w) cls template r r.value)) := by
  rw [resolverCallback, hcls, hview]
  simp only [if_neg hme]
  cases doRewriteWidgetUri lib ctx (syncSession session w) cls template r r.value with
  | none | some uri => rfl

private theorem resolverCallback_of_ampersand (hme : 0x26 ∈ r.value.getD []) :
    (r.resolverCallback lib ctx session w).2 = .text (r.replacement lib
      (doRewriteWidgetUri lib ctx (syncSession session w) cls template r (r.unescaped lib))) ↔
    ∃ name, r.escape = some name ∧
      doRewriteWidgetUri lib ctx (syncSession session w) cls template r
        (some ((name.cls lib.utf8).unescape (r.value.getD []))) ≠ none := by
  rw [resolverCallback, hcls, hview]
  simp only [if_pos hme]
  cases he : r.escape with
  | none =>
    constructor
    · intro h
      cases h
    · rintro ⟨name, h, -⟩
      cases h
  | some name =>
    rw [unescaped_of_ampersand he hme]
    simp only [Option.some.injEq, exists_eq_left']
    generalize (name.cls lib.utf8).unescape (r.value.getD []) = value
    cases doRewriteWidgetUri lib ctx (syncSession session w) cls template r (some value) with
    | none =>
      simp only [ne_eq, not_true_eq_false, iff_false]
      intro h
      split at h
      · have hni : [] = r.value.getD [] := Outcome.text.inj h
        rw [← hni] at hme
        exact absurd hme not_mem_nil
      · cases h
    | some uri =>
      simp only [ne_eq, reduceCtorEq, not_false_eq_true, iff_true]
      rfl

private theorem output_of_usable (hau : lib.uri.hasAuthority (r.value.getD []) = false)
    (hmo : r.mode ≠ .response) :
    r.output lib ctx session w1 (r.rewriteWidgetUri lib ctx w) = .text (r.replacement lib
      (doRewriteWidgetUri lib ctx w cls template r (r.unescaped lib))) := by
  rw [rewriteWidgetUri, hcls, hview, hau, if_neg hmo]
  simp only
  cases doRewriteWidgetUri lib ctx w cls template r (r.unescaped lib) with
  | none | some uri => rfl

variable (ctx session) in
private theorem output_delayed (hau : lib.uri.hasAuthority (r.value.getD []) = false)
    (hmo : r.mode ≠ .response) :
    (r.Agrees lib ctx (syncSession session w) →
      (r.resolverCallback lib ctx session w).2 = .text (r.replacement lib
        (doRewriteWidgetUri lib ctx (syncSession session w) cls template r (r.unescaped lib)))) ∧
    ((r.escape = some .css → 0x26 ∈ r.value.getD []) →
      (r.resolverCallback lib ctx session w).2 = .text (r.replacement lib
        (doRewriteWidgetUri lib ctx (syncSession session w) cls template r (r.unescaped lib))) →
      r.Agrees lib ctx (syncSession session w)) := by
  obtain ⟨hc', ht⟩ := syncSession_keeps session w
  have hv' := ht ▸ hview
  rw [hcls] at hc'
  constructor
  · intro h
    obtain ⟨ham, hcs⟩ := h cls template hc' hv' hau hmo
    by_cases hme : 0x26 ∈ r.value.getD []
    · exact (resolverCallback_of_ampersand hcls hview hme).mpr (ham hme)
    have hun : r.unescaped lib = r.value := by
      by_cases hc : r.escape = some .css
      · have hle := hcs hc hme
        rw [unescaped_css hc]
        cases hv : r.value with
        | none => rfl
        | some value =>
          rw [hv] at hle
          exact congrArg some hle
      · exact unescaped_of_plain hc hme
    rw [resolverCallback_of_plain hcls hview hme, hun]
  · intro hcs h cls1 template1 hc1 hv1 _ _
    rw [hc'] at hc1
    rw [hv'] at hv1
    cases hc1
    cases hv1
    exact ⟨fun hme => (resolverCallback_of_ampersand hcls hview hme).mp h,
      fun hc hme => absurd (hcs hc) hme⟩

end

/-- A widget whose class is not known is rewritten later. At that time it may have any class, or
none, and the callback may load a session. The output is the one for the widget with its class, and
it is the value as it is if there is no URI, if the value meets the condition, and only then unless
it is CSS without an ampersand. -/
theorem rewriteWidgetUri_resolved (lib : RewriteLib) (ctx : WidgetContext)
    (session : Option (Option WidgetSession)) (w0 w : Widget) (r : UriRewriter)
    (h0 : w0.cls = none) :
    let w' := (r.resolverCallback lib ctx session w).1
    let output := r.output lib ctx session w (r.rewriteWidgetUri lib ctx w0)
    let same : Prop :=
      (w'.cls ≠ none → output = r.output lib ctx session w (r.rewriteWidgetUri lib ctx w')) ∧
        (r.NoUri lib ctx w' → r.mode ≠ .response → output = .text (r.value.getD []))
    (r.Agrees lib ctx w' → same) ∧
      ((r.escape = some .css → 0x26 ∈ r.value.getD []) → same → r.Agrees lib ctx w') := by
  intro w' out same
  unfold same out w'
  clear same out w'
  cases hau : lib.uri.hasAuthority (r.value.getD []) with
  | true =>
    -- the value is left as it is before the class is looked at
    have hre (w : Widget) : r.rewriteWidgetUri lib ctx w = .unchanged := by
      rw [rewriteWidgetUri, if_pos hau]
    rw [hre w0, hre]
    refine ⟨fun _ => ⟨fun _ => rfl, fun _ _ => rfl⟩, fun _ _ cls template _ _ hno => ?_⟩
    rw [hau] at hno
    cases hno
  | false =>
    by_cases hmo : r.mode = .response
    · have hre (w : Widget) : r.rewriteWidgetUri lib ctx w = .response := by
        rw [rewriteWidgetUri, hau, if_neg Bool.false_ne_true, if_pos hmo]
      rw [hre w0, hre]
      exact ⟨fun _ => ⟨fun _ => rfl, fun _ hno => absurd hmo hno⟩,
        fun _ _ cls template _ _ _ hno => absurd hmo hno⟩
    have hd : r.rewriteWidgetUri lib ctx w0 = .delayed := by
      rw [rewriteWidgetUri, hau, if_neg Bool.false_ne_true, if_neg hmo, h0]
    rw [hd, output]
    cases hcls : w.cls with
    | none =>
      rw [resolverCallback_of_unusable (.inl hcls)]
      refine ⟨fun _ => ⟨fun hne => absurd hcls hne, fun _ _ => rfl⟩, fun _ _ cls template hso => ?_⟩
      rw [hcls] at hso
      cases hso
    | some cls =>
      cases hview : w.fromTemplate.view with
      | none =>
        have hre : r.rewriteWidgetUri lib ctx w = .unchanged := by
          rw [rewriteWidgetUri, hau, if_neg Bool.false_ne_true, if_neg hmo, hcls, hview]
        rw [resolverCallback_of_unusable (.inr hview), hre]
        refine ⟨fun _ => ⟨fun _ => rfl, fun _ _ => rfl⟩, fun _ _ cls template _ hso => ?_⟩
        rw [hview] at hso
        cases hso
      | some template =>
        obtain ⟨hc', ht⟩ := syncSession_keeps session w
        have hv' := ht ▸ hview
        rw [hcls] at hc'
        rw [resolverCallback_fst hcls hview, hc', output_of_usable hc' hv' hau hmo]
        obtain ⟨hen, hne⟩ := output_delayed ctx session hcls hview hau hmo
        refine ⟨fun h => ⟨fun _ => hen h, fun hno _ => ?_⟩,
          fun hcs h => hne hcs (h.1 (Option.some_ne_none _))⟩
        rw [hen h, hno cls template hc' hv']
        rfl

/-- URIs without a scheme and without an authority. -/
def plainLib : RewriteLib where
  uri :=
    { hasScheme := fun _ => false
      hasAuthority := fun _ => false
      afterScheme := fun _ => none
      hostAndPort := fun _ => none
      pathQueryFragment := fun uri => some ([], uri)
      pathVerifyQuick := fun _ => true
      escape := id
      unescape := some }
  utf8 :=
    { unicodeToUTF8 := fun _ => []
      length_le := fun _ _ => Nat.zero_le 4 }
  args := .first

/-- A page that embeds widgets. -/
def page : WidgetContext where
  externalBaseUri := some (ascii "/index.html")

/-- A class at a path of a HTTP server. -/
def serverClass (path : Text) : WidgetClass where
  views := [{ address := .http { hostAndPort := some (ascii "server"), path := path } }]

/-- A widget before its class is looked up. -/
def child : Widget where
  id := some (ascii "1")
  idPath := some (ascii "1")

/-- A link to be rewritten. -/
def link (value : Text) (escape : Option EscapeName) : UriRewriter where
  value := some value
  mode := .focus
  stateful := true
  view := none
  escape := escape

/-- A link with an ampersand below the URI of the widget. -/
theorem rewriteWidgetUri_ampersand :
    (link (ascii "a?b&amp;c") (some .html)).output plainLib page none
        (child.registryCallback (some (serverClass (ascii "/1/"))))
        ((link (ascii "a?b&amp;c") (some .html)).rewriteWidgetUri plainLib page child) =
      .text (ascii "/index.html;focus=1&amp;path=a?b&amp;c") := by
  have hre := rewriteWidgetUri_resolved plainLib page none child
    (child.registryCallback (some (serverClass (ascii "/1/"))))
    (link (ascii "a?b&amp;c") (some .html)) rfl
  -- the widget has no session
  simp only [show (resolverCallback plainLib page none
      (child.registryCallback (some (serverClass (ascii "/1/"))))
      (link (ascii "a?b&amp;c") (some .html))).1 =
        child.registryCallback (some (serverClass (ascii "/1/"))) by decide +kernel] at hre
  have hag := hre.1 (by
    intro cls template hcls hview _ _
    cases hcls
    cases hview
    exact ⟨fun _ => ⟨.html, rfl, by decide +kernel⟩, nofun⟩)
  rw [hag.1 (by decide)]
  decide +kernel

/-- The condition is not necessary for CSS: if there is no URI, then both leave a quoted character
as it is. -/
example :
    let r := link (ascii "a\\\"b") (some .css)
    let w := child.registryCallback (some (serverClass (ascii "/2")))
    r.output plainLib page none w (r.rewriteWidgetUri plainLib page child) =
      r.output plainLib page none w (r.rewriteWidgetUri plainLib page w) := by
  decide +kernel

/-- Three links for which the two branches differ: one to another place on the server of the widget,
for which there is no URI; a quoted character in CSS; and an ampersand without an escape class. -/
theorem rewriteWidgetUri_differs :
    (let r := link (ascii "a&amp;b") (some .html)
      let w := child.registryCallback (some (serverClass (ascii "/2")))
      r.output plainLib page none w (r.rewriteWidgetUri plainLib page child) =
          .released (ascii "a&b") ∧
        r.output plainLib page none w (r.rewriteWidgetUri plainLib page w) =
          .text (ascii "a&amp;b")) ∧
    (let r := link (ascii "a\\\"b") (some .css)
      let w := child.registryCallback (some (serverClass (ascii "/1/")))
      r.output plainLib page none w (r.rewriteWidgetUri plainLib page child) =
          .text (ascii "/index.html;focus=1&path=a\\\\\\\"b") ∧
        r.output plainLib page none w (r.rewriteWidgetUri plainLib page w) =
          .text (ascii "/index.html;focus=1&path=a\\\"b")) ∧
    (let r := link (ascii "a?b&c") none
      let w := child.registryCallback (some (serverClass (ascii "/1/")))
      r.output plainLib page none w (r.rewriteWidgetUri plainLib page child) = .nullPointer ∧
        r.output plainLib page none w (r.rewriteWidgetUri plainLib page w) =
          .text (ascii "/index.html;focus=1&path=a?b&c")) := by
  decide +kernel

end UriRewriter

end BengProxy.Widgets
