import BengProxy.Istream.Bucket

/-!
# The concatenation of istreams

Models `CatIstream`, `src/istream/ConcatIstream.cxx`: a list of inputs that are read one after the
other. An input calls back whenever it likes, also while it is not the current one, and so does the
handler of the concatenation while it is called; so every call of one of them is an event, and the
calls of `Read()` that have not returned yet are a stack.

An input is what it still has to deliver, and what it has listed in its last `FillBucketList()`.
Recorded are also what the handler has received, what it still sees of the last bucket list, and
when it was told that the stream has ended. Left out are direct transfer, skipping and
`_GetAvailable()`.
-/

namespace BengProxy.Istream.Concat

/-- An input, `ConcatIstream.cxx:17-95`: the bytes it still has, how many of them it has
put into the last bucket list, and whether these were all. -/
structure Input where
  id : Nat
  rest : List UInt8
  shown : Nat := 0
  complete : Bool := false
  deriving DecidableEq, Repr

/-- What an input adds to a bucket list; it may set `more` or enable the fallback. -/
structure FillReply where
  buckets : List (List UInt8)
  more : Bool
  fallback : Bool := false
  deriving DecidableEq, Repr

/-- The list after the input has added its buckets. -/
def FillReply.fill (r : FillReply) (l : IstreamBucketList) : IstreamBucketList :=
  let l := l.pushAll r.buckets
  if r.fallback then l.enableFallback else if r.more then l.setMore else l

namespace Input

/-- The handler has accepted bytes in `OnData()`; the last bucket list is void then. -/
def taken (i : Input) (nbytes : Nat) : Input :=
  if nbytes = 0 then i
  else { i with rest := i.rest.drop nbytes, shown := 0, complete := false }

/-- The input has filled a bucket list. -/
def listed (i : Input) (l l' : IstreamBucketList) : Input :=
  { i with
    shown := (l'.list.drop l.list.length).flatten.length
    complete := !l'.more }

/-- `ConsumeBucketList()` of an input: it consumes what it has listed, and has ended if this was
all. -/
def consumeBucketList (i : Input) (nbytes : Nat) : Input × ConsumeBucketResult :=
  if nbytes < i.shown then
    ({ i with rest := i.rest.drop nbytes, shown := i.shown - nbytes }, ⟨nbytes, false⟩)
  else ({ i with rest := i.rest.drop i.shown, shown := 0 }, ⟨i.shown, i.complete⟩)

end Input

/-- A call of an input's `Read()` that has not returned: from the loop in `_Read()`, with the input
that was current then, or from `OnInputEof()`. -/
inductive Frame where
  | loop (prev : Nat)
  | eof
  deriving DecidableEq, Repr

/-- How the handler is told that the stream has ended. -/
inductive Report where
  | onEof
  | consume
  deriving DecidableEq, Repr

/-- `CatIstream`, `ConcatIstream.cxx:16,97-105`. -/
structure CatIstream where
  inputs : List Input
  reading : Bool := false
  seenReady : Bool := false
  destroyed : Bool := false
  frames : List Frame := []
  window : List UInt8 := []
  received : List UInt8 := []
  reports : List Report := []
  deriving DecidableEq, Repr

namespace CatIstream

variable (s : CatIstream) (id : Nat)

/-- `CatIstream::IsCurrent`, `ConcatIstream.cxx:129-131`. -/
def isCurrent : Bool := s.inputs.head?.any (·.id == id)

/-- `CatIstream::IsEOF`, `ConcatIstream.cxx:146-148`. -/
def isEOF : Bool := s.inputs.isEmpty

/-- `Istream::Destroy`: the inputs are closed, `ConcatIstream.cxx:110-112`. -/
def destroy : CatIstream :=
  { s with destroyed := true, inputs := [], window := [] }

/-- `Istream::DestroyEof`, `src/istream/Invoke.cxx:144-150`. -/
def destroyEof : CatIstream :=
  { s.destroy with reports := s.reports ++ [.onEof] }

/-- `Istream::InvokeData`, `src/istream/Invoke.cxx:39-78`, if the handler accepts so much. -/
def invokeData (src : List UInt8) (accepts : Nat) : Nat × CatIstream :=
  let nbytes := min accepts src.length
  if nbytes = 0 then (0, s)
  else (nbytes, { s with received := s.received ++ src.take nbytes, window := [] })

/-- `CatIstream::OnInputData`, `ConcatIstream.cxx:152-156`. -/
def onInputData (src : List UInt8) (accepts : Nat) : Nat × CatIstream :=
  if s.isCurrent id then s.invokeData src accepts else (0, s)

/-- Remove an input from the list. -/
def unlink : CatIstream :=
  { s with inputs := s.inputs.filter (·.id ≠ id) }

/-- `CatIstream::OnInputEof`, `ConcatIstream.cxx:168-182`. -/
def onInputEof : CatIstream :=
  let current := s.isCurrent id
  let s := s.unlink id
  if s.isEOF then s.destroyEof
  else if current && !s.reading then { s with frames := .eof :: s.frames }
  else s

/-- `CatIstream::OnInputError`, `ConcatIstream.cxx:184-187`. -/
def onInputError : CatIstream := (s.unlink id).destroy

/-- `CatIstream::OnInputReady`, `ConcatIstream.cxx:205-226`, up to the call of the
handler: whether it is called. -/
def onInputReady : Bool × CatIstream :=
  if s.seenReady then (s.isCurrent id, s) else (true, { s with seenReady := true })

/-- `CatIstream::_Read`, `ConcatIstream.cxx:263-284`, up to the first call of an
input. -/
def read : CatIstream :=
  match s.inputs with
  | [] => s.destroyEof
  | i :: _ => { s with reading := true, frames := .loop i.id :: s.frames }

/-- The innermost `Read()` of an input returns, `ConcatIstream.cxx:277-283`. -/
def readReturns : CatIstream :=
  match s.frames with
  | [] => s
  | .eof :: frames => { s with frames }
  | .loop prev :: frames =>
    if s.destroyed then { s with frames }
    else
      match s.inputs with
      | [] => { s with frames, reading := false }
      | i :: _ =>
        if i.id ≠ prev then { s with frames := .loop i.id :: frames }
        else { s with frames, reading := false }

/-- The loop of `CatIstream::_FillBucketList`, `ConcatIstream.cxx:291-316`; missing if
an input throws. -/
def fillLoop (reply : Nat → Option FillReply) :
    List Input → IstreamBucketList → Option (List Input × IstreamBucketList)
  | [], l => some ([], l)
  | i :: inputs, l =>
    match reply i.id with
    | none => none
    | some r =>
      let l' := r.fill l
      if l'.emptySinceMark l.mark then fillLoop reply inputs l'
      else if l'.more then some (i.listed l l' :: inputs, l')
      else (fillLoop reply inputs l').map fun p => (i.listed l l' :: p.1, p.2)

/-- `CatIstream::_FillBucketList`, `ConcatIstream.cxx:286-317`. -/
def fillBucketList (reply : Nat → Option FillReply) : CatIstream × Option IstreamBucketList :=
  match fillLoop reply s.inputs {} with
  | none => (s.destroy, none)
  | some (inputs, l) => ({ s with inputs, window := l.list.flatten }, some l)

/-- The loop of `CatIstream::_ConsumeBucketList`, `ConcatIstream.cxx:324-342`: the
inputs and the total; missing if the assertion fails. -/
def consumeLoop : List Input → Nat → Option (List Input × Nat)
  | [], _ => some ([], 0)
  | i :: inputs, nbytes =>
    let (i, r) := i.consumeBucketList nbytes
    if nbytes - r.consumed = 0 then some (if r.eof then inputs else i :: inputs, r.consumed)
    else if r.eof then
      (consumeLoop inputs (nbytes - r.consumed)).map fun p => (p.1, r.consumed + p.2)
    else none

/-- `CatIstream::_ConsumeBucketList`, `ConcatIstream.cxx:319-345`. The handler has
received what it saw in the list. -/
def consumeBucketList (nbytes : Nat) : Option (CatIstream × ConsumeBucketResult) := do
  let (inputs, total) ← consumeLoop s.inputs nbytes
  let s :=
    { s with
      inputs
      received := s.received ++ s.window.take nbytes
      window := s.window.drop nbytes
      reports := if inputs.isEmpty then s.reports ++ [.consume] else s.reports }
  return (s, ⟨total, inputs.isEmpty⟩)

/-- Consume several parts of a bucket list. -/
def consumeEach (s : CatIstream) : List Nat → Option CatIstream
  | [] => some s
  | nbytes :: rest => do
    let (s, _) ← s.consumeBucketList nbytes
    s.consumeEach rest

end CatIstream

/-- What happens: the handler calls, or an input calls back. An input offers so many of its bytes,
and the handler accepts so many of these. -/
inductive Event where
  | read
  | readReturns
  | fill (reply : Nat → Option FillReply)
  | consume (nbytes : Nat)
  | close
  | data (id size accepts : Nat)
  | eof (id : Nat)
  | error (id : Nat)
  | ready (id : Nat)

namespace CatIstream

/-- An input offers its next bytes, and forgets those that are accepted. -/
def inputData (s : CatIstream) (i : Input) (size accepts : Nat) : CatIstream :=
  let (nbytes, s) := s.onInputData i.id (i.rest.take size) accepts
  { s with inputs := s.inputs.map fun j => if j.id = i.id then j.taken nbytes else j }

/-- The effect of an event; missing if an assertion fails. -/
def step (s : CatIstream) : Event → Option CatIstream
  | .read => some s.read
  | .readReturns => some s.readReturns
  | .fill reply => some (s.fillBucketList reply).1
  | .consume nbytes => (s.consumeBucketList nbytes).map (·.1)
  | .close => some s.destroy
  | .data id size accepts =>
    match s.inputs.find? (·.id == id) with
    | none => some s
    | some i => some (s.inputData i size accepts)
  | .eof id => some (s.onInputEof id)
  | .error id => some (s.onInputError id)
  | .ready id => some (s.onInputReady id).2

/-- A new concatenation of inputs with these contents, `ConcatIstream.cxx:358-368`. -/
def new (contents : List (List UInt8)) : CatIstream :=
  { inputs := contents.zipIdx.map fun p => { id := p.2, rest := p.1 } }

/-- The stream has not been destroyed, and its end has not been reported. -/
def Active (s : CatIstream) : Prop := s.destroyed = false ∧ s.reports = []

end CatIstream

/-- The contract of `Istream::FillBucketList()` for an input: no bucket is empty, the buckets are
the next bytes, and all of them unless `more` is set. -/
structure FillReply.Obeys (r : FillReply) (rest : List UInt8) : Prop where
  nonempty : ∀ b ∈ r.buckets, b ≠ []
  isPrefix : r.buckets.flatten <+: rest
  complete : r.more = false → r.fallback = false → r.buckets.flatten = rest

namespace CatIstream

/-- The contract of `Istream`. Only an active stream is called, and only its inputs call back; at
most what is listed is consumed; an input offers bytes that it has, and ends when it has none. -/
def Legal (s : CatIstream) : Event → Prop
  | .read => s.Active
  | .readReturns => s.frames ≠ []
  | .fill reply => s.Active ∧ ∀ i ∈ s.inputs, ∀ r ∈ reply i.id, r.Obeys i.rest
  | .consume nbytes => s.Active ∧ nbytes ≤ s.window.length
  | .close => s.destroyed = false
  | .data id size _ => s.Active ∧ ∃ i ∈ s.inputs, i.id = id ∧ 0 < size ∧ size ≤ i.rest.length
  | .eof id => s.Active ∧ ∃ i ∈ s.inputs, i.id = id ∧ i.rest = []
  | .error id => s.Active ∧ ∃ i ∈ s.inputs, i.id = id
  | .ready id => s.Active ∧ ∃ i ∈ s.inputs, i.id = id

/-- One event. -/
def Step (s : CatIstream) (e : Event) (s' : CatIstream) : Prop := s.Legal e ∧ s.step e = some s'

end CatIstream

end BengProxy.Istream.Concat
