import BengProxy.Escape.Istream

/-!
# The escaping istream and its neighbours

The input delivers a string in pieces of any size, the end of the input is reported, and the
consumer reads the rest of an escape sequence, in any order. Every run emits the escaped string: at
no time anything else, all of it when the end is reported, and a consumer that accepts something in
each call gets there.
-/

namespace BengProxy.Escape

open Base Text Istream List EscapeIstream Bool

/-- The stream, and what its input has not delivered. -/
structure Exchange where
  rest : Text
  stream : EscapeIstream

/-- What happens to the stream: the input delivers its next `n` bytes, or its end, or the consumer
reads. -/
inductive Event where
  | data (n : Nat)
  | eof
  | read
  deriving DecidableEq, Repr

namespace Exchange

/-- Neither has the consumer closed the stream nor has it ended. -/
def live (x : Exchange) : Bool := !x.stream.handler.destroyed && !x.stream.eof

/-- One event. `_Read()`, `src/escape/Istream.cxx:152-159`, sends the rest of an escape sequence,
and then the input may deliver something, which is another event. -/
def step (cls : EscapeClass) (x : Exchange) : Event → Option Exchange
  | .data n =>
    if x.live ∧ x.stream.hasInput ∧ 0 < n ∧ n ≤ x.rest.length then
      let (stream, consumed) := x.stream.onData cls (x.rest.take n)
      some { rest := x.rest.drop consumed, stream }
    else none
  | .eof =>
    if x.live ∧ x.stream.hasInput ∧ x.rest = [] then some { x with stream := x.stream.onEof }
    else none
  | .read =>
    if x.live ∧ x.stream.escaped ≠ [] then some { x with stream := x.stream.sendEscaped.1 }
    else none

/-- The events as a transition system. -/
def Step (cls : EscapeClass) (x : Exchange) (e : Event) (x' : Exchange) : Prop :=
  x.step cls e = some x'

/-- The beginning: a consumer with an acceptance pattern, and a string. -/
def start (accept : Nat → Option Nat) (source : Text) : Exchange where
  rest := source
  stream := { handler := { accept } }

/-- The invariant of a run. -/
structure Inv (cls : EscapeClass) (source : Text) (x : Exchange) : Prop where
  /-- Whatever has been emitted is the beginning of the escaped string. -/
  emitted : x.stream.handler.received <+: cls.escape source
  /-- An open stream has emitted what was consumed, but for the rest of an escape sequence. -/
  consumed : x.stream.handler.destroyed = false → ∃ done, source = done ++ x.rest ∧
    x.stream.handler.received ++ x.stream.escaped = cls.escape done
  ended : x.stream.hasInput = false → x.rest = []
  eof : x.stream.eof = true → x.stream.handler.destroyed = false ∧ x.stream.hasInput = false ∧
    x.stream.escaped = []
  waiting : x.stream.hasInput = false → x.stream.eof = false → x.stream.escaped ≠ []

variable {cls : EscapeClass} {special : UInt8 → Bool} {source : Text} {x x' : Exchange}

private theorem live_iff : x.live = true ↔
    x.stream.handler.destroyed = false ∧ x.stream.eof = false := by
  rw [live, and_eq_true, not_eq_true', not_eq_true']

/-- What is left to be emitted, and the end of the input. -/
def pending (cls : EscapeClass) (x : Exchange) : Nat :=
  (cls.escape x.rest).length + x.stream.escaped.length + if x.stream.hasInput then 1 else 0

/-- A step keeps the invariant; with a consumer that accepts something, it makes progress. -/
structure Advances (cls : EscapeClass) (source : Text) (x x' : Exchange) : Prop where
  inv : x'.Inv cls source
  accept_eq : x'.stream.handler.accept = x.stream.handler.accept
  progress : EscapeIstream.Accepting x.stream.handler →
    x'.stream.handler.destroyed = false ∧ x'.pending cls < x.pending cls

section

variable (hcls : EscapeIstream.Lawful cls special)
include hcls

private theorem advances_data (h : x.Inv cls source)
    {n : Nat} (hst : x.Step cls (.data n) x') : Advances cls source x x' := by
  rw [Step, step] at hst
  obtain ⟨hc, hst⟩ := Option.ite_none_right_eq_some.mp hst
  obtain ⟨hli, hi, hpo, hle⟩ := hc
  obtain ⟨hd, he⟩ := live_iff.mp hli
  have hne : x.rest.take n ≠ [] := by
    intro hni
    have hl := congrArg List.length hni
    rw [length_take, length_nil] at hl
    omega
  obtain ⟨s', k, out, hru, hk, hse, he', ho, hpr⟩ := onData_spec hcls hne hi hd
  obtain ⟨done, hso, hre⟩ := h.consumed hd
  have hr' := hse.continues.received_eq
  have hinput' : s'.hasInput = true := hse.hasInput_eq.trans hi
  rw [length_take] at hk
  have ht : (x.rest.take n).take k = x.rest.take k := by
    rw [take_take, min_eq_left (by omega)]
  rw [ht] at ho
  -- everything up to the first `k` bytes
  have hal : s'.handler.received ++ s'.escaped = cls.escape (done ++ x.rest.take k) := by
    rw [hr', append_assoc, ho, ← append_assoc, hre, ← hcls.append]
  have hs' : source = done ++ x.rest.take k ++ x.rest.drop k := by
    rw [append_assoc, take_append_drop]
    exact hso
  have hem : s'.handler.received <+: cls.escape source := by
    rw [hs', hcls.append, ← hal, append_assoc]
    exact prefix_append _ _
  rw [hru] at hst
  cases hst
  refine ⟨⟨hem, fun hn => ?_, fun hfa => ?_, fun htr => ?_, fun hfa => ?_⟩,
    hse.continues.accept_eq, fun ha => ?_⟩
  · simp only at hn
    simp only [hn, false_eq_true]
    exact ⟨_, hs', hal⟩
  · exact absurd (hfa.symm.trans hinput') false_ne_true
  · exact absurd (he.symm.trans (he'.symm.trans htr)) false_ne_true
  · exact absurd (hfa.symm.trans hinput') false_ne_true
  · obtain ⟨hn, hou⟩ := hpr ha
    refine ⟨hn, ?_⟩
    have hl := congrArg List.length ho
    have hr := congrArg (fun p => (cls.escape p).length) (take_append_drop k x.rest)
    have ho' := length_pos_iff.mpr hou
    simp only [hcls.append, length_append] at hl hr
    rw [pending, pending]
    simp only [hn, false_eq_true, if_false, hinput', hi]
    omega

omit hcls in
private theorem advances_eof (h : x.Inv cls source) (hst : x.Step cls .eof x') :
    Advances cls source x x' := by
  rw [Step, step] at hst
  split at hst
  next hc =>
    obtain ⟨hli, hi, hr⟩ := hc
    obtain ⟨hd, he⟩ := live_iff.mp hli
    cases hst
    refine ⟨⟨h.emitted, h.consumed, fun _ => hr, fun ht => ?_, fun _ hfa => ?_⟩, rfl,
      fun _ => ⟨hd, ?_⟩⟩
    · exact ⟨hd, rfl, beq_iff_eq.mp ht⟩
    · exact beq_eq_false_iff_ne.mp hfa
    · simp only [pending, onEof, hi]
      simp
  · cases hst

private theorem advances_read (h : x.Inv cls source)
    (hst : x.Step cls .read x') : Advances cls source x x' := by
  rw [Step, step] at hst
  obtain ⟨hco, hst⟩ := Option.ite_none_right_eq_some.mp hst
  obtain ⟨hli, hne⟩ := hco
  obtain ⟨hd, he⟩ := live_iff.mp hli
  obtain ⟨s', ok, n, hru, hse, hes, -, ho, hc, hde, hpr⟩ := sendEscaped_spec hd hne
  obtain ⟨done, hso, hre⟩ := h.consumed hd
  have hal : s'.handler.received ++ s'.escaped = cls.escape done := by
    rw [hse.continues.received_eq, hes, append_assoc, take_append_drop, hre]
  rw [hru] at hst
  cases hst
  refine ⟨⟨?_, fun _ => ⟨done, hso, hal⟩, fun hfa => ?_, fun ht => ?_,
    fun hfa hn => ?_⟩, hse.continues.accept_eq, fun ha => ?_⟩
  · rw [hso, hcls.append, ← hal, append_assoc]
    exact prefix_append _ _
  · exact h.ended (hse.hasInput_eq.symm.trans hfa)
  · simp only at ht
    have hi : x.stream.hasInput = false := by
      rw [← not_eq_true]
      intro hi
      rw [ho hi, he] at ht
      cases ht
    refine ⟨?_, hse.hasInput_eq.trans hi, (hc hi he).mp ht⟩
    rw [← not_eq_true]
    intro hg
    rw [hde hg, he] at ht
    cases ht
  · simp only at hfa hn
    intro hni
    rw [(hc (hse.hasInput_eq.symm.trans hfa) he).mpr hni] at hn
    cases hn
  · obtain ⟨hn, hou⟩ := hpr ha
    refine ⟨hn, ?_⟩
    have hle := congrArg List.length (take_append_drop n x.stream.escaped)
    have ho' := length_pos_iff.mpr hou
    rw [length_append] at hle
    rw [pending, pending]
    simp only [hes, hse.hasInput_eq]
    omega

private theorem advances_step (h : x.Inv cls source) {e : Event}
    (hst : x.Step cls e x') : Advances cls source x x' := by
  cases e with
  | data n => exact advances_data hcls h hst
  | eof => exact advances_eof h hst
  | read => exact advances_read hcls h hst

private theorem inv_start (a : Nat → Option Nat)
    (source : Text) : (start a source).Inv cls source where
  emitted := nil_prefix
  consumed _ := ⟨[], rfl, hcls.nil.symm⟩
  ended := nofun
  eof := nofun
  waiting := nofun

end

private theorem exists_step (h : x.Inv cls source) (hli : x.live = true) :
    ∃ e, (x.step cls e).isSome = true := by
  cases hi : x.stream.hasInput with
  | true =>
    by_cases hr : x.rest = []
    · exact ⟨.eof, by rw [step, if_pos ⟨hli, hi, hr⟩]; rfl⟩
    · refine ⟨.data x.rest.length, ?_⟩
      rw [step, if_pos ⟨hli, hi, length_pos_iff.mpr hr, le_rfl⟩]
      rfl
  | false =>
    refine ⟨.read, ?_⟩
    rw [step, if_pos ⟨hli, h.waiting hi (live_iff.mp hli).2⟩]
    rfl

/-- The stream emits the escaped string: never anything else, all of it when its end is reported.
If the consumer accepts something in each call, then there is always something that can happen
until the end is reported, and this is a bounded number of times. -/
def Emits (cls : EscapeClass) (source : Text) : Prop :=
  ∀ accept events x, Run (Step cls) (start accept source) events x →
    x.stream.handler.received <+: cls.escape source ∧
    (x.stream.eof = true → x.stream.handler.received = cls.escape source) ∧
    ((∀ k, ∃ n, accept k = some (n + 1)) → events.length ≤ (cls.escape source).length + 1 ∧
      (x.stream.eof = false → ∃ e, (x.step cls e).isSome = true))

private theorem bounded_of_run (hcls : EscapeIstream.Lawful cls special)
    {a : Nat → Option Nat} (ha : ∀ k, ∃ n, a k = some (n + 1)) {e : List Event}
    (hru : Run (Step cls) (start a source) e x) :
    x.Inv cls source ∧ EscapeIstream.Accepting x.stream.handler ∧
      x.stream.handler.destroyed = false ∧
      e.length + x.pending cls ≤ (cls.escape source).length + 1 := by
  induction hru with
  | nil => exact ⟨inv_start hcls a source, ha, rfl, by simp [pending, start]⟩
  | snoc _ hst ih =>
    obtain ⟨hi, hac, -, hle⟩ := ih
    have had := advances_step hcls hi hst
    obtain ⟨hn, hlt⟩ := had.progress hac
    refine ⟨had.inv, ?_, hn, ?_⟩
    · rw [EscapeIstream.Accepting, had.accept_eq]
      exact hac
    · rw [length_append, length_singleton]
      omega

private theorem emits_of_lawful (hcls : EscapeIstream.Lawful cls special) (source : Text) :
    Emits cls source := by
  intro accept events x hru
  have hi : x.Inv cls source := hru.invariant (inv_start hcls accept source)
    fun _ _ _ h hst => (advances_step hcls h hst).inv
  refine ⟨hi.emitted, fun he => ?_, fun ha => ?_⟩
  · obtain ⟨hn, hin, hni⟩ := hi.eof he
    obtain ⟨done, hso, hre⟩ := hi.consumed hn
    rw [hi.ended hin, append_nil] at hso
    rw [hni, append_nil] at hre
    rw [hre, hso]
  · obtain ⟨-, -, hn, hle⟩ := bounded_of_run hcls ha hru
    refine ⟨by omega, fun he => exists_step hi (live_iff.mpr ⟨hn, he⟩)⟩

end Exchange

/-- The escape classes. -/
inductive EscapeName where
  | css
  | html
  deriving DecidableEq, Repr

/-- The class with a name. -/
def EscapeName.cls (lib : Utf8Lib) : EscapeName → EscapeClass
  | .css => cssEscapeClass
  | .html => htmlEscapeClass lib

/-- What an escape class promises about a string. -/
structure Escapes (cls : EscapeClass) (s : Text) : Prop where
  unescape_escape : cls.unescape (cls.escape s) = s
  escapeSize : ∃ turns, cls.escapeSize turns s = some (cls.escape s).length
  length_unescape : (cls.unescape s).length ≤ s.length
  emits : Exchange.Emits cls s

/-- The HTML class keeps its promises, and so does the CSS class but for the size: the loop of
`css_escape_size()` does not end unless the string is empty. -/
theorem escapes_iff (lib : Utf8Lib) (name : EscapeName) (s : Text) :
    Escapes (name.cls lib) s ↔ (name = .css → s = []) := by
  cases name with
  | css =>
    constructor
    · intro h _
      obtain ⟨turns, hsize⟩ := h.escapeSize
      cases s with
      | nil => rfl
      | cons c s =>
        have hnon : (EscapeName.css.cls lib).escapeSize turns (c :: s) = none :=
          cssEscapeSize_cons turns c s
        rw [hnon] at hsize
        cases hsize
    · intro h
      rw [h rfl]
      exact ⟨cssUnescape_cssEscape [], ⟨1, rfl⟩, length_cssUnescape_le [],
        Exchange.emits_of_lawful lawful_css []⟩
  | html =>
    constructor
    · exact nofun
    · intro _
      refine ⟨htmlUnescape_htmlEscape lib s, ⟨0, ?_⟩, length_htmlUnescape_le lib s,
        Exchange.emits_of_lawful (lawful_html lib) s⟩
      exact congrArg some (htmlEscapeSize_eq s)

/-- The size of a single character in CSS. -/
theorem cssEscapeSize_never_returns :
    ¬∃ turns, (cssEscapeClass.escapeSize turns (ascii "a")).isSome = true := by
  rintro ⟨turns, hso⟩
  have hnon : cssEscapeClass.escapeSize turns (ascii "a") = none := cssEscapeSize_cons turns 0x61 []
  rw [hnon] at hso
  cases hso

end BengProxy.Escape
