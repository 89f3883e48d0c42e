import BengProxy.Fcgi.Protocol

/-!
# The parser of FastCGI records

Models `FcgiParser`, `src/fcgi/Parser.{cxx,hxx}`. It calls a handler for the header, the payload and
the end of each record, and tells it how many bytes have been consumed. Here a handler is a set of
functions on some state. One turn of the loop in `Feed()` has four parts, and each one either goes
on or returns.
-/

namespace BengProxy.Fcgi

universe u

/-- `FcgiFrameHandler::FrameResult`, `Parser.hxx:16-21`. -/
inductive FrameResult where
  | skip
  | continue
  | stop
  | closed
  deriving DecidableEq, Repr

/-- `FcgiFrameHandler`, `Parser.hxx:14-27`. An exception leaves `Feed()` in the same way as
`closed` does. -/
structure FcgiFrameHandler (σ : Type u) where
  onFrameConsumed : σ → Nat → σ
  onFrameHeader : σ → UInt8 → Nat → σ × FrameResult
  onFramePayload : σ → List UInt8 → σ × FrameResult × Nat
  onFrameEnd : σ → σ × FrameResult

/-- `FcgiParser::FeedResult`, `Parser.hxx:35-41`. -/
inductive FeedResult where
  | ok
  | blocking
  | more
  | stop
  | closed
  deriving DecidableEq, Repr

/-- `FcgiParser`, `Parser.hxx:29-32`. -/
structure FcgiParser where
  remaining : Nat := 0
  skip : Nat := 0
  inFrame : Bool := false
  deriving DecidableEq, Repr

/-- `SkipCurrent`, `Parser.hxx:49-52`. -/
def FcgiParser.skipCurrent (p : FcgiParser) : FcgiParser :=
  { p with skip := p.skip + p.remaining, remaining := 0 }

/-- The variables of `Feed()`: the parser, what has not been consumed, and the handler. -/
structure Feeding (σ : Type u) where
  parser : FcgiParser
  src : List UInt8
  state : σ

/-- A part of the loop goes on or returns. -/
inductive Flow (σ : Type u) where
  | next (f : Feeding σ)
  | done (f : Feeding σ) (result : FeedResult)

namespace Flow

variable {σ : Type u}

/-- The next part of the loop. -/
def andThen : Flow σ → (Feeding σ → Flow σ) → Flow σ
  | .next f, part => part f
  | .done f result, _ => .done f result

@[simp]
theorem next_andThen (f : Feeding σ) (part : Feeding σ → Flow σ) :
    (Flow.next f).andThen part = part f := rfl

end Flow

namespace FcgiFrameHandler

variable {σ : Type u} (h : FcgiFrameHandler σ)

section

variable (f : Feeding σ)

/-- Bytes have been consumed. -/
def consume (n : Nat) : Feeding σ :=
  { f with src := f.src.drop n, state := h.onFrameConsumed f.state n }

/-- After a payload of which something was consumed, `Parser.cxx:42-64`. -/
def afterPayload (payload : List UInt8) (consumed : Nat) : FrameResult → Flow σ
  | .skip => .next { f with parser := f.parser.skipCurrent }
  | .continue =>
    if 0 < f.parser.remaining then
      .done f (if consumed < payload.length then .blocking else .more)
    else .next f
  | .stop => .done f .stop
  | .closed => .done f .closed

/-- After a payload of which nothing was consumed, `Parser.cxx:25-40`. -/
def refusedPayload : FrameResult → Flow σ
  | .skip => .next { f with parser := f.parser.skipCurrent }
  | .continue => .done f .blocking
  | .stop => .done f .stop
  | .closed => .done f .closed

/-- The payload of a record, `Parser.cxx:14-65`. -/
def feedPayload : Flow σ :=
  if f.parser.remaining = 0 then .next f
  else if f.src = [] then .done f .more
  else
    let payload := f.src.take f.parser.remaining
    match h.onFramePayload f.state payload with
    | (state, result, consumed) =>
      if consumed = 0 then refusedPayload { f with state } result
      else
        let parser := { f.parser with remaining := f.parser.remaining - consumed }
        afterPayload { h.consume { f with state } consumed with parser } payload consumed result

/-- Bytes that are skipped, `Parser.cxx:67-81`. -/
def feedSkip : Flow σ :=
  if f.parser.skip = 0 then .next f
  else if f.src.length < f.parser.skip then
    .done
      { h.consume f f.src.length with
        parser := { f.parser with skip := f.parser.skip - f.src.length } } .more
  else .next { h.consume f f.parser.skip with parser := { f.parser with skip := 0 } }

/-- The end of a record, `Parser.cxx:83-97`. -/
def feedEnd : Flow σ :=
  if f.parser.inFrame then
    match h.onFrameEnd f.state with
    | (state, result) =>
      let f := { f with parser := { f.parser with inFrame := false }, state }
      match result with
      | .skip => .next f
      | .continue => .next f
      | .stop => .done f .stop
      | .closed => .done f .closed
  else .next f

/-- The header of a record, `Parser.cxx:99-127`. -/
def feedHeader : Flow σ :=
  match FcgiRecordHeader.parse f.src with
  | none => .done f .more
  | some (header, src) =>
    let parser : FcgiParser :=
      { remaining := header.contentLength, skip := header.paddingLength.toNat, inFrame := true }
    match h.onFrameHeader (h.onFrameConsumed f.state 8) header.type header.requestId with
    | (state, .skip) => .next { parser := parser.skipCurrent, src, state }
    | (state, .continue) => .next { parser, src, state }
    | (state, .stop) => .done { parser, src, state } .stop
    | (state, .closed) => .done { parser, src, state } .closed

/-- One turn of the loop. -/
def feedTurn : Flow σ :=
  (((h.feedPayload f).andThen h.feedSkip).andThen h.feedEnd).andThen h.feedHeader

end

private theorem length_feedPayload (hf : h.feedPayload f = .next f') :
    f'.src.length ≤ f.src.length := by
  rw [feedPayload] at hf
  split at hf
  · cases hf; exact Nat.le_refl _
  split at hf
  · cases hf
  simp only at hf
  split at hf
  · unfold refusedPayload at hf
    split at hf
    · cases hf; exact Nat.le_refl _
    · cases hf
    · cases hf
    · cases hf
  unfold afterPayload at hf
  split at hf
  · cases hf
    rw [consume, List.length_drop]
    exact Nat.sub_le _ _
  · split at hf
    · cases hf
    · cases hf
      rw [consume, List.length_drop]
      exact Nat.sub_le _ _
  · cases hf
  · cases hf

private theorem length_feedSkip (hf : h.feedSkip f = .next f') :
    f'.src.length ≤ f.src.length := by
  rw [feedSkip] at hf
  split at hf
  · cases hf; exact Nat.le_refl _
  split at hf
  · cases hf
  · cases hf
    rw [consume, List.length_drop]
    exact Nat.sub_le _ _

private theorem length_feedEnd (hf : h.feedEnd f = .next f') :
    f'.src.length ≤ f.src.length := by
  rw [feedEnd] at hf
  split at hf
  · simp only at hf
    split at hf
    · cases hf; exact Nat.le_refl _
    · cases hf; exact Nat.le_refl _
    · cases hf
    · cases hf
  · cases hf; exact Nat.le_refl _

private theorem length_feedHeader (hf : h.feedHeader f = .next f') :
    f'.src.length < f.src.length := by
  rw [feedHeader] at hf
  split at hf
  · cases hf
  next header src hpa =>
    have hle := FcgiRecordHeader.length_of_parse hpa
    split at hf
    · cases hf
      show src.length < f.src.length
      omega
    · cases hf
      show src.length < f.src.length
      omega
    · cases hf
    · cases hf

private theorem eq_next_of_andThen {m : Flow σ} {part : Feeding σ → Flow σ}
    (hm : m.andThen part = .next f') : ∃ f, m = .next f ∧ part f = .next f' := by
  cases m with
  | next f => exact ⟨f, rfl, hm⟩
  | done f result => cases hm

private theorem length_feedTurn (hf : h.feedTurn f = .next f') :
    f'.src.length < f.src.length := by
  obtain ⟨f3, hf3, hh⟩ := eq_next_of_andThen hf
  obtain ⟨f2, hf2, he⟩ := eq_next_of_andThen hf3
  obtain ⟨f1, hpa, hsk⟩ := eq_next_of_andThen hf2
  have h1 := length_feedPayload h hpa
  have h2 := length_feedSkip h hsk
  have h3 := length_feedEnd h he
  have h4 := length_feedHeader h hh
  omega

/-- The loop of `FcgiParser::Feed`. -/
def feedLoop (f : Feeding σ) : Feeding σ × FeedResult :=
  match _hf : h.feedTurn f with
  | .next f' => feedLoop f'
  | .done f' result => (f', result)
termination_by f.src.length
decreasing_by exact h.length_feedTurn _hf

/-- `FcgiParser::Feed`, `Parser.cxx:10-130`. -/
def feed (parser : FcgiParser) (src : List UInt8) (state : σ) : Feeding σ × FeedResult :=
  h.feedLoop { parser, src, state }

theorem feedLoop_of_next (hf : h.feedTurn f = .next f') :
    h.feedLoop f = h.feedLoop f' := by
  rw [feedLoop]
  split
  next he => rw [hf] at he; cases he; rfl
  next he => rw [hf] at he; cases he

theorem feedLoop_of_done {result : FeedResult}
    (hf : h.feedTurn f = .done f' result) : h.feedLoop f = (f', result) := by
  rw [feedLoop]
  split
  next he => rw [hf] at he; cases he
  next he => rw [hf] at he; cases he; rfl

end FcgiFrameHandler

end BengProxy.Fcgi
