import BengProxy.Base.Run
import BengProxy.Istream.ReplaceRead

/-!
# Replacing in any order of calls

The input, the parser, the streams of the substitutions and the consumer call a `ReplaceIstream`
in any order. It emits the source with each range replaced.
-/

namespace BengProxy.Istream

open Base Splice ReplaceIstream List Replacing

/-- A call: data or the end from the input, with the calls of the parser during it; a call of the
parser at any other time; a read; data or the end from the stream of a substitution. -/
inductive ReplaceCall where
  | onData (src : List UInt8) (ops : List Control)
  | onEof (ops : List Control)
  | control (op : Control)
  | read (events : Nat → List SubstitutionEvent) (pieces : Nat → Nat)
  | substitution (index : Nat) (event : SubstitutionEvent)

/-- A stream in use, with the document it is given and the error it was destroyed with. -/
structure Replacement where
  machine : Replacing
  document : Document := {}
  failed : Option String := none

namespace Replacement

section

variable (s : Replacement)

/-- A stream that was neither destroyed nor has ended. -/
def Alive : Prop :=
  s.machine.handler.destroyed = false ∧ s.machine.ended = false ∧ s.failed = none

/-- The state after a call. -/
def apply : ReplaceCall → Option Replacement
  | .onData src ops =>
    match s.machine.onData src ops with
    | .ok machine => some { s with machine, document := s.document.append src ops }
    | .error e => some { s with failed := some e }
  | .onEof ops =>
    some { s with machine := s.machine.onEof ops, document := s.document.controls ops }
  | .control op =>
    some { s with
      machine := { s.machine with stream := s.machine.stream.control op }
      document := s.document.control op }
  | .read events pieces =>
    (tryRead events pieces s.machine).map fun (_, machine) => { s with machine }
  | .substitution index (.data size) =>
    some { s with machine := s.machine.substitutionData index size }
  | .substitution index .eof => some { s with machine := s.machine.substitutionEof index }

/-- What the callers guarantee. The parser satisfies the assertions, with offsets in the source as
far as it was received, and calls `Finish` at the end of the input; the stream of a substitution
ends after it has delivered everything. -/
def Allowed : ReplaceCall → Prop
  | .onData src ops =>
    s.machine.stream.hasInput = true ∧ src ≠ [] ∧ (s.machine.stream.write src).Permits ops
  | .onEof ops =>
    s.machine.stream.hasInput = true ∧ { s.machine.stream with hasInput := false }.Permits ops ∧
      (s.machine.stream.endInput ops).finished = true
  | .control op => s.machine.stream.Asserts op ∧ s.machine.stream.Within op
  | .read _ _ => True
  | .substitution index event =>
    ∃ t, s.machine.stream.substitutions[index]? = some t ∧ t.defined = true ∧
      (event = .eof → t.content = [])

/-- An allowed call. -/
def Step (call : ReplaceCall) (s' : Replacement) : Prop :=
  s.Alive ∧ s.Allowed call ∧ s.apply call = some s'

/-- The call exceeds the limit for the input. -/
def Exceeds : ReplaceCall → Prop
  | .onData _ _ => maxSourceLength ≤ s.machine.stream.sourceLength
  | _ => False

end

/-- What holds in a run. -/
structure Inv (s : Replacement) : Prop where
  machine : s.machine.Inv s.document
  failed : ∀ e, s.failed = some e →
    e = "file too large for processor" ∧ maxSourceLength ≤ s.document.source.length

variable {s : Replacement}

theorem hasInput_controls (r : ReplaceIstream) (ops : List Control) :
    (r.controls ops).hasInput = r.hasInput := by
  induction ops generalizing r with
  | nil => rfl
  | cons op ops ih =>
    refine (ih (r.control op)).trans ?_
    cases op with
    | add start stop contents =>
      rw [ReplaceIstream.control]
      split <;> rfl
    | extend start stop | settle offset | finish => rfl

private theorem isEof_of_hasInput {r : ReplaceIstream} (h : r.hasInput = true) :
    r.isEof = false := by
  rw [isEof, h]
  rfl

private theorem apply_onData_of_le {src : List UInt8} {ops : List Control}
    (h : maxSourceLength ≤ s.machine.stream.sourceLength) :
    s.apply (.onData src ops) = some { s with failed := some "file too large for processor" } := by
  simp only [apply, onData, appendToBuffer, if_pos h]
  rfl

/-- Every allowed call returns and keeps the invariant; it fails only beyond the limit. -/
theorem Inv.step (h : Inv s) (ha : s.Alive) {call : ReplaceCall} (hal : s.Allowed call) :
    ∃ s', s.apply call = some s' ∧ Inv s' ∧ (s'.failed = none ↔ ¬ s.Exceeds call) := by
  obtain ⟨hd, he, hfa⟩ := ha
  cases call with
  | onData src ops =>
    obtain ⟨hi, -, ho⟩ := hal
    by_cases hli : maxSourceLength ≤ s.machine.stream.sourceLength
    · refine ⟨_, apply_onData_of_le hli, ⟨h.machine, ?_⟩, ?_⟩
      · intro e heq
        cases heq
        exact ⟨rfl, h.machine.splices.length_eq ▸ hli⟩
      · exact ⟨fun hn => (nomatch hn), fun hn => absurd hli hn⟩
    have hi' : ((s.machine.stream.write src).controls ops).hasInput = true := by
      rw [hasInput_controls]
      exact hi
    refine ⟨{ s with
      machine := { s.machine with stream := (s.machine.stream.write src).controls ops }
      document := s.document.append src ops }, ?_, ⟨⟨?_, ?_, ?_⟩, ?_⟩, ?_⟩
    · simp only [apply, onData, appendToBuffer, if_neg hli]
      rfl
    · exact (h.machine.splices.grow src).controls ho
    · exact he.trans (isEof_of_hasInput hi').symm
    · intro hf
      simp only [hi'] at hf
      cases hf
    · intro e heq
      simp only [hfa] at heq
      cases heq
    · exact ⟨fun _ => hli, fun _ => hfa⟩
  | onEof ops =>
    obtain ⟨hi, ho, hfi⟩ := hal
    refine ⟨_, rfl, ⟨⟨?_, rfl, fun _ => hfi⟩, ?_⟩, ⟨fun _ => id, fun _ => hfa⟩⟩
    · have hsp : Splices s.document s.machine.handler.received
          { s.machine.stream with hasInput := false } :=
        h.machine.splices.learn (le_rfl) h.machine.splices.known_le rfl rfl rfl rfl
      exact hsp.controls ho
    · intro e heq
      simp only [hfa] at heq
      cases heq
  | control op =>
    obtain ⟨hass, hw⟩ := hal
    have hf := hass.not_finished
    have hi : s.machine.stream.hasInput = true := by
      cases hx : s.machine.stream.hasInput with
      | true => rfl
      | false =>
        rw [h.machine.finished hx] at hf
        cases hf
    have hi' : (s.machine.stream.control op).hasInput = true :=
      (hasInput_controls s.machine.stream [op]).trans hi
    refine ⟨_, rfl, ⟨⟨h.machine.splices.control hass hw, ?_, ?_⟩, ?_⟩, ⟨fun _ => id, fun _ => hfa⟩⟩
    · exact he.trans (isEof_of_hasInput hi').symm
    · intro hx
      simp only [hi'] at hx
      cases hx
    · intro e heq
      simp only [hfa] at heq
      cases heq
  | read events pieces =>
    obtain ⟨b, m, hr, hm⟩ := h.machine.tryRead events pieces hd he
    exact ⟨{ s with machine := m }, by simp only [apply, hr]; rfl, ⟨hm, h.failed⟩,
      ⟨fun _ => id, fun _ => hfa⟩⟩
  | substitution index event =>
    obtain ⟨t, ht, -, heo⟩ := hal
    cases event with
    | data size =>
      exact ⟨_, rfl, ⟨h.machine.substitutionData index size, h.failed⟩, ⟨fun _ => id, fun _ => hfa⟩⟩
    | eof =>
      exact ⟨_, rfl, ⟨h.machine.substitutionEof index ht (heo rfl), h.failed⟩,
        ⟨fun _ => id, fun _ => hfa⟩⟩

private theorem Inv.of_run {accept : Nat → Option Nat} {c : List ReplaceCall}
    (h : Run Step { machine := { handler := { accept } } } c s) : Inv s := by
  apply h.invariant (P := Inv)
  · exact ⟨⟨Splices.new, rfl, nofun⟩, fun e he => nomatch he⟩
  · intro s call s' hi hst
    obtain ⟨hal, ha, hs⟩ := hst
    obtain ⟨s'', hs', hi', -⟩ := hi.step hal ha
    rw [hs] at hs'
    cases hs'
    exact hi'

private theorem Inv.ended_iff (h : Inv s) :
    s.machine.ended = true ↔ s.machine.stream.finished = true ∧
      s.machine.stream.hasInput = false ∧ s.machine.stream.substitutions = [] ∧
      s.machine.handler.received = s.document.output := by
  rw [h.machine.ended_eq, Replacing.isEof_iff]
  have hle := h.machine.splices.length_eq
  constructor
  · rintro ⟨hi, hfi, hs, hp⟩
    refine ⟨hfi, hi, hs, ?_⟩
    have ho := h.machine.splices.output_finished hfi
    rwa [remaining, edits, hs, map_nil, render, known, if_pos hfi, hp, slice_self, append_nil] at ho
  · rintro ⟨hfi, hi, hs, hre⟩
    refine ⟨hi, hfi, hs, ?_⟩
    have ho := h.machine.splices.output_finished hfi
    rw [hre, append_right_eq_self, remaining, edits, hs, map_nil, render, known,
      if_pos hfi, hle, slice_length, drop_eq_nil_iff] at ho
    have hpo := h.machine.splices.position_le
    omega

end Replacement

/-- The source is replaced by any order of calls. What was emitted, followed by what is pending, is
the source with each range replaced, up to the offset behind which more edits may come; with the
source finished, this is the whole output. The stream has ended exactly if the source is finished,
nothing is pending and the whole output was emitted; once it was emitted, reading leads there. A
read in which neither the handler nor a substitution blocks emits everything that is known. Every
call returns, and only data beyond the limit for the source makes the stream fail. -/
theorem replaced_output {accept : Nat → Option Nat} {calls : List ReplaceCall} {s : Replacement}
    (h : Run Replacement.Step { machine := { handler := { accept } } } calls s) :
    (s.machine.handler.received ++ s.machine.stream.remaining s.document =
        render s.document.source 0 s.document.edits s.machine.stream.known ∧
      (s.machine.stream.finished = true →
        s.machine.handler.received ++ s.machine.stream.remaining s.document = s.document.output)) ∧
    (s.machine.ended = true ↔ s.machine.stream.finished = true ∧
      s.machine.stream.hasInput = false ∧ s.machine.stream.substitutions = [] ∧
      s.machine.handler.received = s.document.output) ∧
    (∀ e, s.failed = some e →
      e = "file too large for processor" ∧ maxSourceLength ≤ s.document.source.length) ∧
    (s.Alive →
      (∀ call, s.Allowed call →
        ∃ s', Replacement.Step s call s' ∧ (s'.failed = none ↔ ¬ s.Exceeds call)) ∧
      (s.machine.stream.finished = true → s.machine.stream.hasInput = false →
        s.machine.handler.received = s.document.output →
        ∀ events pieces, (∀ k, SubstitutionEvent.eof ∈ events k) →
          ∃ s', Replacement.Step s (.read events pieces) s' ∧ s'.machine.ended = true) ∧
      ∀ n pieces, Replacing.Flows n s.machine →
        ∃ s', Replacement.Step s (.read (fun _ => [.data n, .eof]) pieces) s' ∧
          s'.machine.handler.received =
            render s.document.source 0 s.document.edits s.machine.stream.known) := by
  have hi := Replacement.Inv.of_run h
  refine ⟨⟨hi.machine.splices.output_eq, hi.machine.splices.output_finished⟩, hi.ended_iff,
    hi.failed, fun hal => ⟨fun call hall => ?_, ?_, ?_⟩⟩
  · obtain ⟨s', hs, -, hfa⟩ := hi.step hal hall
    exact ⟨s', ⟨hal, hall, hs⟩, hfa⟩
  · intro hfi hin hre events pieces he
    have ho := hi.machine.splices.output_finished hfi
    rw [hre, append_right_eq_self] at ho
    obtain ⟨m, hr, hen⟩ := hi.machine.tryRead_ends he pieces hal.1 hal.2.1 hin ho
    exact ⟨{ s with machine := m }, ⟨hal, trivial, by simp only [Replacement.apply, hr]; rfl⟩, hen⟩
  · intro n pieces hfl
    obtain ⟨b, m, hr, hm⟩ := hi.machine.tryRead (fun _ => [.data n, .eof]) pieces hal.1 hal.2.1
    obtain ⟨hkn, hrem⟩ := hi.machine.tryReadLoop_complete _ hal.2.1 hfl hr
    have ho := hm.splices.output_eq
    rw [hrem, append_nil, hkn] at ho
    refine ⟨{ s with machine := m }, ⟨hal, trivial, by simp only [Replacement.apply, hr]; rfl⟩, ho⟩

/-- The source `abc`, with `b` replaced by `X`. -/
theorem replaced_output_sample :
    ∃ s, Run Replacement.Step { machine := { handler := { accept := fun _ => some 9 } } }
        [.onData [97, 98, 99] [.add 1 2 (some [88])], .onEof [.finish],
          .read (fun _ => [.data 9, .eof]) (fun _ => 9)] s ∧
      s.machine.handler.received = s.document.output ∧ s.document.output = [97, 88, 99] := by
  apply Run.exists_of (p := fun s => s.machine.ended = true ∧ s.document.output = [97, 88, 99])
  · refine ⟨_, .cons ⟨⟨rfl, rfl, rfl⟩, ⟨rfl, by simp, ⟨rfl, ?_, ?_, ?_⟩, ?_, trivial⟩, rfl⟩
      (.cons ⟨⟨rfl, rfl, rfl⟩, ⟨rfl, ⟨rfl, trivial, trivial⟩, rfl⟩, rfl⟩
        (.cons ⟨⟨rfl, rfl, rfl⟩, trivial, rfl⟩ .nil)), rfl, rfl⟩
    all_goals exact Nat.le_of_ble_eq_true rfl
  · rintro s hr ⟨he, ho⟩
    exact ⟨((replaced_output hr).2.1.mp he).2.2.2, ho⟩

private theorem fails_beyond {src : List UInt8} (hne : src ≠ [])
    (hle : maxSourceLength ≤ 0 + src.length) :
    ∃ s, Run Replacement.Step { machine := { handler := { accept := fun _ => some 9 } } }
        [.onData src [], .onData [0] []] s ∧
      s.failed = some "file too large for processor" ∧ s.machine.handler.received = [] :=
  ⟨_, .cons ⟨⟨rfl, rfl, rfl⟩, ⟨rfl, hne, trivial⟩, rfl⟩
    (.cons ⟨⟨rfl, rfl, rfl⟩, ⟨rfl, by simp, trivial⟩, Replacement.apply_onData_of_le hle⟩ .nil),
    rfl, rfl⟩

/-- A source of more than 8 MiB is not replaced: after 8 MiB, the next byte destroys the stream
with an error. -/
theorem replace_fails_beyond_limit :
    ∃ s, Run Replacement.Step { machine := { handler := { accept := fun _ => some 9 } } }
        [.onData (List.replicate maxSourceLength 0) [], .onData [0] []] s ∧
      s.failed = some "file too large for processor" ∧ s.machine.handler.received = [] := by
  apply fails_beyond
  · rw [Ne, replicate_eq_nil_iff, maxSourceLength]
    omega
  · rw [Nat.zero_add, length_replicate]

end BengProxy.Istream
