import Mathlib.Data.List.Infix

/-!
# The tee

Models `TeeIstream`, `src/istream/TeeIstream.cxx`: one input, any number of outputs, each of which
takes as much of the input as it likes. An output that has taken more than the others remembers in
`skip` how much of the next window it has seen already.

An output is named by its `id`, and so is the iterator `next_output`. What an output's handler does
in a callback is a `Response`: it closes some outputs (itself, possibly) and accepts some bytes. The
bucket methods are disabled in the source, and so is the postponed error.
-/

namespace BengProxy.Istream.Tee

/-- `TeeIstream::Output`, `TeeIstream.cxx:21-57`, with all the data its handler has
accepted. -/
structure Output where
  id : Nat
  weak : Bool
  skip : Nat := 0
  received : List UInt8 := []
  deriving DecidableEq, Repr

/-- What the handler of an output does when it is called. -/
structure Response where
  closes : List Nat := []
  accepts : Nat := 0
  deriving DecidableEq, Repr

/-- `TeeIstream`, `TeeIstream.cxx:19,149-155`; `ended` is the outputs whose handler got
`OnEof()`. -/
structure TeeIstream where
  outputs : List Output := []
  nextOutput : Option Nat := none
  nStrong : Nat := 0
  hasInput : Bool := true
  destroyed : Bool := false
  nextId : Nat := 0
  ended : List Output := []
  deriving DecidableEq, Repr

/-- The iterator after the one for `id`. -/
def after (id : Nat) : List Output → Option Nat
  | [] => none
  | o :: outputs => if o.id = id then outputs.head?.map (·.id) else after id outputs

namespace Output

/-- The handler accepts the first `nbytes` of the data, `TeeIstream.cxx:275`. -/
def accept (o : Output) (src : List UInt8) (nbytes : Nat) : Output :=
  { o with skip := o.skip + nbytes, received := o.received ++ src.take nbytes }

/-- `TeeIstream::Output::Consumed`, `TeeIstream.cxx:61-64`; missing if the assertion
fails. -/
def consumed (nbytes : Nat) (o : Output) : Option Output :=
  if nbytes ≤ o.skip then some { o with skip := o.skip - nbytes } else none

end Output

namespace TeeIstream

variable (s : TeeIstream)

/-- `TeeIstream::CreateOutput`, `TeeIstream.cxx:186-194`. -/
def createOutput (weak : Bool) : TeeIstream :=
  { s with
    outputs := s.outputs ++ [{ id := s.nextId, weak }]
    nStrong := if weak then s.nStrong else s.nStrong + 1
    nextId := s.nextId + 1 }

/-- `TeeIstream::Remove`, `TeeIstream.cxx:285-327`. -/
def remove (id : Nat) : TeeIstream :=
  match s.outputs.find? (·.id = id) with
  | none => s
  | some o =>
    let s' : TeeIstream :=
      { s with
        outputs := s.outputs.filter (·.id ≠ id)
        nextOutput := if s.nextOutput = some id then after id s.outputs else s.nextOutput
        nStrong := if o.weak then s.nStrong else s.nStrong - 1 }
    if s'.hasInput = false then { s' with destroyed := s'.outputs.isEmpty }
    else if 0 < s'.nStrong then s'
    else
      -- no strong output is left: the others are destroyed, and the last one destroys the tee
      { s' with hasInput := false, outputs := [], destroyed := true }

/-- Closing outputs, one after the other. -/
def removeAll (ids : List Nat) : TeeIstream := ids.foldl remove s

/-- `TeeIstream::Output::Feed`, `TeeIstream.cxx:252-277`. -/
def feed (o : Output) (src : List UInt8) (r : Response) : TeeIstream × Nat :=
  if src.length ≤ o.skip then (s, src.length)
  else
    let src := src.drop o.skip
    let s := s.removeAll r.closes
    if s.destroyed then (s, 0)
    else if s.outputs.all (·.id ≠ o.id) then (s, src.length)
    else
      let nbytes := min r.accepts src.length
      ({ s with outputs := s.outputs.map fun x => if x.id = o.id then x.accept src nbytes else x },
        o.skip + nbytes)

/-- The loop of `TeeIstream::OnData`, `TeeIstream.cxx:339-352`, from the output that
the iterator points to. -/
def onDataLoop (r : Nat → Response) :
    Nat → TeeIstream → List UInt8 → Option Nat → Option (TeeIstream × Nat)
  | 0, _, _, _ => none
  | _ + 1, s, src, none => do
    let outputs ← s.outputs.mapM (·.consumed src.length)
    return ({ s with outputs }, src.length)
  | fuel + 1, s, src, some id => do
    let o ← s.outputs.find? (·.id = id)
    let (s, nbytes) := { s with nextOutput := after id s.outputs }.feed o src (r id)
    if nbytes = 0 then return (s, 0)
    onDataLoop r fuel s (src.take nbytes) s.nextOutput

/-- `TeeIstream::OnData`, `TeeIstream.cxx:334-353`. -/
def onData (src : List UInt8) (r : Nat → Response) : Option (TeeIstream × Nat) :=
  onDataLoop r (s.outputs.length + 1) s src (s.outputs.head?.map (·.id))

/-- The loop of `TeeIstream::OnEof`, `TeeIstream.cxx:366-370`. -/
def onEofLoop (r : Nat → Response) : Nat → TeeIstream → TeeIstream
  | 0, s => s
  | fuel + 1, s =>
    match s.outputs.getLast? with
    | none => s
    | some o =>
      let s := { s.remove o.id with ended := s.ended ++ [o] }
      onEofLoop r fuel (s.removeAll (r o.id).closes)

/-- `TeeIstream::OnEof`, `TeeIstream.cxx:355-371`. -/
def onEof (r : Nat → Response) : TeeIstream :=
  onEofLoop r s.outputs.length { s with hasInput := false }

/-- `TeeIstream::OnError`, `TeeIstream.cxx:373-389`: all outputs are destroyed. -/
def onError : TeeIstream :=
  { s with hasInput := false, outputs := [], destroyed := true }

end TeeIstream

/-- What happens to a tee from the outside. -/
inductive Event where
  | add (weak : Bool)
  | data (src : List UInt8) (r : Nat → Response)
  | close (id : Nat)
  | eof (r : Nat → Response)
  | error

/-- The tee, and how much of the input it has consumed. -/
structure State where
  tee : TeeIstream
  consumed : Nat

/-- `NewTeeIstream()`, `TeeIstream.cxx:396-406`. -/
def initial (weak : Bool) : State := { tee := TeeIstream.createOutput {} weak, consumed := 0 }

/-- The input has the bytes `source`; each `OnData()` presents as much as it likes of those that
have not been consumed. Outputs are added before any input has been consumed. -/
inductive Step (source : List UInt8) : State → Event → State → Prop where
  | add {s : State} {weak : Bool} :
      s.tee.hasInput = true → s.consumed = 0 →
      Step source s (.add weak) { s with tee := s.tee.createOutput weak }
  | data {s : State} {src : List UInt8} {r : Nat → Response} {tee : TeeIstream} {n : Nat} :
      s.tee.hasInput = true → src <+: source.drop s.consumed →
      s.tee.onData src r = some (tee, n) →
      Step source s (.data src r) { tee, consumed := s.consumed + n }
  | close {s : State} {id : Nat} :
      s.tee.hasInput = true → Step source s (.close id) { s with tee := s.tee.remove id }
  | eof {s : State} {r : Nat → Response} :
      s.tee.hasInput = true → s.consumed = source.length →
      Step source s (.eof r) { s with tee := s.tee.onEof r }
  | error {s : State} :
      s.tee.hasInput = true → Step source s .error { s with tee := s.tee.onError }

end BengProxy.Istream.Tee
