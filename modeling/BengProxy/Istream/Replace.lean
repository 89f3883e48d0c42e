import BengProxy.Base.Splice
import BengProxy.Istream.Bucket
import BengProxy.Istream.Handler

/-!
# Replacing parts of a stream

Models `src/istream/ReplaceIstream.{hxx,cxx}`. The input is collected in a buffer. A parser adds
substitutions for ranges of it, and says up to which offset no more of them will come. The output
is the input with each range replaced by the data of the stream of its substitution.

The chunks of the `GrowingBuffer` may end anywhere: a function `pieces` gives the number of bytes
behind the first one in the chunk at each offset.
-/

namespace BengProxy.Istream

open Base.Splice

/-- `ReplaceIstream::Substitution`, `ReplaceIstream.hxx:20-73`. `content` is what its
stream still has to deliver, and `defined` says that the stream has not ended; the stream has
listed its next `listed` bytes, which are its last ones if `last`. -/
structure Substitution extends Edit UInt8 where
  defined : Bool
  listed : Nat := 0
  last : Bool := false
  deriving DecidableEq, Repr

/-- `ReplaceIstream`, `ReplaceIstream.hxx:75-103`. -/
structure ReplaceIstream where
  hasInput : Bool := true
  finished : Bool := false
  buffer : List UInt8 := []
  sourceLength : Nat := 0
  position : Nat := 0
  settledPosition : Nat := 0
  substitutions : List Substitution := []
  lastSubstitutionEnd : Nat := 0
  deriving DecidableEq, Repr

/-- A call of the parser: `Add`, `Extend`, `Settle` or `Finish`,
`ReplaceIstream.hxx:110-113`. -/
inductive Control where
  | add (start stop : Nat) (contents : Option (List UInt8))
  | extend (start stop : Nat)
  | settle (offset : Nat)
  | finish
  deriving DecidableEq, Repr

namespace ReplaceIstream

variable (r : ReplaceIstream)

/-- `ReplaceIstream::IsBufferAtEOF`, `ReplaceIstream.hxx:129-131`. -/
def isBufferAtEof : Bool := r.position == r.sourceLength

/-- `ReplaceIstream::IsEOF`, `ReplaceIstream.hxx:136-140`. -/
def isEof : Bool :=
  !r.hasInput && r.finished && r.substitutions.isEmpty && r.isBufferAtEof

/-- `ReplaceIstream::GetBufferEndOffsetUntil`, `ReplaceIstream.hxx:142-156`. -/
def getBufferEndOffsetUntil (position : Nat) : Option Substitution → Option Nat
  | some s => some (min s.start r.sourceLength)
  | none =>
    if r.finished then some r.sourceLength
    else if position < r.settledPosition then some r.settledPosition
    else none

/-- `ReplaceIstream::ToNextSubstitution`, `ReplaceIstream.cxx:38-58`. -/
def toNextSubstitution : ReplaceIstream :=
  match r.substitutions with
  | [] => r
  | s :: rest =>
    { r with
      buffer := r.buffer.drop (s.stop - s.start)
      position := s.stop
      substitutions := rest }

/-- `ReplaceIstream::Add`, `Extend`, `Settle` and `Finish`,
`ReplaceIstream.cxx:558-637`. -/
def control : Control → ReplaceIstream
  | .add start stop contents =>
    if contents.isNone && start == stop then r
    else
      { r with
        settledPosition := stop
        lastSubstitutionEnd := stop
        substitutions := r.substitutions ++
          [{ start, stop, content := contents.getD [], defined := contents.isSome }] }
  | .extend _ stop =>
    { r with
      settledPosition := stop
      lastSubstitutionEnd := stop
      substitutions := mapLast (fun s => { s with stop }) r.substitutions }
  | .settle offset => { r with settledPosition := offset }
  | .finish => { r with finished := true }

/-- The assertions of these functions. -/
def Asserts : Control → Prop
  | .add start stop _ =>
    r.finished = false ∧ start ≤ stop ∧ r.settledPosition ≤ start ∧ r.lastSubstitutionEnd ≤ start
  | .extend start stop =>
    r.finished = false ∧ ∃ s, r.substitutions.getLast? = some s ∧ s.start = start ∧
      s.stop = r.settledPosition ∧ s.stop = r.lastSubstitutionEnd ∧ s.stop ≤ stop
  | .settle offset => r.finished = false ∧ r.settledPosition ≤ offset
  | .finish => r.finished = false

/-- The offsets of the call are in the source as far as it was received. -/
def Within : Control → Prop
  | .add _ stop _ => stop ≤ r.sourceLength
  | .extend _ stop => stop ≤ r.sourceLength
  | .settle offset => offset ≤ r.sourceLength
  | .finish => True

/-- Several calls of the parser. -/
def controls (ops : List Control) : ReplaceIstream := ops.foldl control r

/-- Each of several calls is in order. -/
def Permits (r : ReplaceIstream) : List Control → Prop
  | [] => True
  | op :: ops => r.Asserts op ∧ r.Within op ∧ (r.control op).Permits ops

/-- The limit for the input, `ReplaceIstream.cxx:251`. -/
def maxSourceLength : Nat := 8 * 1024 * 1024

/-- The source grows, `ReplaceIstream.cxx:254-255`. -/
def write (src : List UInt8) : ReplaceIstream :=
  { r with buffer := r.buffer ++ src, sourceLength := r.sourceLength + src.length }

/-- `ReplaceIstream::AppendToBuffer`, `ReplaceIstream.cxx:248-258`; `ops` are the
calls made by `Parse`. -/
def appendToBuffer (src : List UInt8) (ops : List Control) : Except String ReplaceIstream :=
  if maxSourceLength ≤ r.sourceLength then .error "file too large for processor"
  else .ok ((r.write src).controls ops)

/-- The end of the input; `ops` are the calls made by `ParseEnd`. -/
def endInput (ops : List Control) : ReplaceIstream :=
  { r with hasInput := false }.controls ops

end ReplaceIstream

/-- What the stream of a substitution does when it is read: it presents its next bytes, or it
reports its end. -/
inductive SubstitutionEvent where
  | data (size : Nat)
  | eof
  deriving DecidableEq, Repr

/-- A stream with its handler, and whether `DestroyEof` was called. -/
structure Replacing where
  stream : ReplaceIstream := {}
  handler : Handler
  ended : Bool := false

namespace Replacing

open ReplaceIstream

variable (m : Replacing)

/-- The stream of the substitution at an index presents bytes: `Substitution::OnData`,
`ReplaceIstream.cxx:65-73`. Only the active substitution passes them on. -/
def substitutionData (index size : Nat) : Replacing :=
  match index, m.stream.substitutions with
  | 0, s :: rest =>
    let src := s.content.take size
    if m.stream.position = s.start ∧ src ≠ [] then
      let (n, handler) := m.handler.invokeData src
      { m with
        handler
        stream := { m.stream with
          substitutions := { s with content := s.content.drop n } :: rest } }
    else m
  | _, _ => m

/-- `Substitution::OnEof`, `ReplaceIstream.cxx:75-93`. -/
def substitutionEof (index : Nat) : Replacing :=
  let r := { m.stream with
    substitutions := m.stream.substitutions.modify index fun s => { s with defined := false } }
  match index, r.substitutions with
  | 0, s :: _ =>
    if r.position = s.start then
      { m with stream := r.toNextSubstitution, ended := r.toNextSubstitution.isEof }
    else { m with stream := r }
  | _, _ => { m with stream := r }

/-- `Substitution::Read` on the active substitution: its stream does what it can, until it has
ended. The flag is true if the substitution is still the first one. -/
def substitutionRead : List SubstitutionEvent → Replacing → Bool × Replacing
  | [], m => (true, m)
  | .data size :: events, m =>
    let m := m.substitutionData 0 size
    if m.handler.destroyed then (true, m) else substitutionRead events m
  | .eof :: events, m =>
    match m.stream.substitutions with
    | [] => (true, m)
    | s :: _ => if s.content = [] then (false, m.substitutionEof 0) else substitutionRead events m

/-- `ReplaceIstream::ReadSubstitution`, `ReplaceIstream.cxx:126-153`. `events` is what
the streams of the substitutions do; the argument is the number of later substitutions. -/
def readSubstitution (events : Nat → List SubstitutionEvent) :
    Nat → Replacing → Option (Bool × Replacing)
  | 0, _ => none
  | fuel + 1, m =>
    match m.stream.substitutions with
    | [] => some (true, m)
    | s :: rest =>
      if m.stream.position = s.start then
        if s.defined then
          let (first, m) := m.substitutionRead (events rest.length)
          if m.handler.destroyed || m.ended || first then some (false, m)
          else readSubstitution events fuel m
        else
          let m := { m with stream := m.stream.toNextSubstitution }
          if m.stream.isEof then some (false, { m with ended := true })
          else readSubstitution events fuel m
      else some (true, m)

/-- `ReplaceIstream::ReadFromBuffer`, `ReplaceIstream.cxx:156-181`. -/
def readFromBuffer (piece maxLength : Nat) : Nat × Replacing :=
  let src := (m.stream.buffer.take piece).take maxLength
  let (n, handler) := m.handler.invokeData src
  if n = 0 then (src.length, { m with handler })
  else
    (src.length - n,
      { m with
        handler
        stream := { m.stream with
          buffer := m.stream.buffer.drop n
          position := m.stream.position + n } })

/-- `ReplaceIstream::ReadFromBufferLoop`, `ReplaceIstream.cxx:183-199`. -/
def readFromBufferLoop (pieces : Nat → Nat) (stop : Nat) :
    Nat → Replacing → Option (Bool × Replacing)
  | fuel, m =>
    if m.stream.position < stop then
      match fuel with
      | 0 => none
      | fuel + 1 =>
        let (rest, m') := m.readFromBuffer (pieces m.stream.position + 1) (stop - m.stream.position)
        if 0 < rest then some (false, m') else readFromBufferLoop pieces stop fuel m'
    else some (true, m)

/-- `ReplaceIstream::TryReadFromBuffer`, `ReplaceIstream.cxx:201-226`. -/
def tryReadFromBuffer (pieces : Nat → Nat) (m : Replacing) : Option (Bool × Replacing) :=
  match m.stream.getBufferEndOffsetUntil m.stream.position m.stream.substitutions.head? with
  | none => some (true, m)
  | some stop =>
    match readFromBufferLoop pieces stop (stop - m.stream.position) m with
    | none => none
    | some (false, m) => some (false, m)
    | some (true, m) =>
      if m.stream.position = m.stream.sourceLength ∧ m.stream.substitutions = [] ∧
          m.stream.hasInput = false then
        some (false, { m with ended := true })
      else some (true, m)

/-- The loop of `ReplaceIstream::TryRead`, `ReplaceIstream.cxx:233-243`. -/
def tryReadLoop (events : Nat → List SubstitutionEvent) (pieces : Nat → Nat) :
    Nat → Replacing → Option (Bool × Replacing)
  | 0, _ => none
  | fuel + 1, m =>
    match readSubstitution events (m.stream.substitutions.length + 1) m with
    | none => none
    | some (false, m) => some (false, m)
    | some (true, m) =>
      match tryReadFromBuffer pieces m with
      | none => none
      | some (false, m) => some (false, m)
      | some (true, m) =>
        match m.stream.substitutions with
        | [] => some (true, m)
        | s :: _ =>
          if s.start ≤ m.stream.sourceLength then tryReadLoop events pieces fuel m
          else some (true, m)

/-- `ReplaceIstream::TryRead`, `ReplaceIstream.cxx:228-245`. -/
def tryRead (events : Nat → List SubstitutionEvent) (pieces : Nat → Nat) (m : Replacing) :
    Option (Bool × Replacing) :=
  tryReadLoop events pieces (m.stream.substitutions.length + 1) m

/-- `ReplaceIstream::OnData`, `ReplaceIstream.cxx:274-294`. -/
def onData (src : List UInt8) (ops : List Control) : Except String Replacing :=
  (m.stream.appendToBuffer src ops).map fun stream => { m with stream }

/-- `ReplaceIstream::OnEof`, `ReplaceIstream.cxx:296-314`. -/
def onEof (ops : List Control) : Replacing :=
  let stream := m.stream.endInput ops
  { m with stream, ended := stream.isEof }

end Replacing
end BengProxy.Istream
