import BengProxy.Was.Client

/-!
# The WAS client answers once

Every run of the client is a sequence of control packets, expiries of the timer, deferred updates
and events of the pipes. The response handler is invoked exactly once before the client is
destroyed, and the functions that abort the response are called only when they may be called, if and
only if some packets are not received while the response is pending, and `PREMATURE` can be sent
when there is no response body.
-/

namespace BengProxy.Was

open Base Text Http Option WasOutput

/-- What happens to the client. -/
inductive Event where
  | packet (cmd : Command) (payload : Text)
  | drained
  | submitTimer
  | deferredUpdate
  | controlError (error : Exception)
  | outputEof
  | outputError (error : Exception)
  | inputRead (nbytes : Nat)
  | inputError (error : Exception)
  | inputConsumed (nbytes : Nat)
  | inputClose
  deriving DecidableEq, Repr

/-- The response handler is called. -/
def WasOutput.isInvocation : WasOutput → Bool
  | .invokeResponse _ _ _ => true
  | .invokeError _ => true
  | _ => false

namespace WasClient

/-- A new client, `src/was/Client.cxx:916-948`; there is no response body if the method has none. -/
def start (requestBody responseBody metrics : Bool) : WasClient where
  requestBody
  metrics
  body := if responseBody then some { } else none

/-- The body, if it was passed to the response handler. -/
def enabledBody (s : WasClient) : Option WasInput := s.body.filter (·.enabled)

/-- How often the response handler was called. -/
def invocations (s : WasClient) : Nat := s.outputs.countP isInvocation

/-- What the client does at an event, if it is possible: the control channel belongs to the client
until it is released, an event occurs if it was scheduled, and the pipe of the response is read
after the body was passed to the response handler. -/
def onEvent (lib : WasLib) (s : WasClient) (io : Answers) : Event → Option WasClient
  | .packet cmd payload =>
    if s.leaseReleased then none else some (s.onWasControlPacket lib io cmd payload).1
  | .drained => if s.leaseReleased then none else some s.onWasControlDrained
  | .submitTimer => if s.submitResponseTimer then some s.submitPendingResponse else none
  | .deferredUpdate =>
    if s.deferUpdateInput then
      some ({ s with deferUpdateInput := false }.onDeferredInputUpdate io)
    else none
  | .controlError error => if s.leaseReleased then none else some (s.abortControlError error)
  | .outputEof => if s.requestBody then some { s with requestBody := false } else none
  | .outputError error =>
    if s.requestBody then some ({ s with requestBody := false }.abortResponse error) else none
  | .inputRead nbytes =>
    match s.enabledBody with
    | none => none
    | some i => if i.hasPipe then some (s.onInputRead io i nbytes) else none
  | .inputError error =>
    match s.enabledBody with
    | none => none
    | some i => if i.hasPipe then some (s.abortError error) else none
  | .inputConsumed nbytes =>
    match s.enabledBody with
    | none => none
    | some i => some (s.onInputConsumed io i nbytes)
  | .inputClose =>
    match s.enabledBody with
    | none => none
    | some i => some (s.onInputClose io i)

/-- One event; there are none after the client was destroyed. -/
def step (lib : WasLib) (s : WasClient) (io : Answers) (e : Event) : Option WasClient :=
  if s.destroyed then none else s.onEvent lib io e

/-- A sequence of events. -/
def run (lib : WasLib) (s : WasClient) : List (Answers × Event) → Option WasClient
  | [] => some s
  | (io, e) :: events =>
    match s.step lib io e with
    | none => none
    | some s => s.run lib events

/-- An event that is handled well: while the response is pending, there is no `DATA`, no `NO_DATA`,
no `LENGTH` that is malformed or the second one, and no malformed `PREMATURE`; and if there is a
request body when `NO_DATA` is received, then `PREMATURE` can be sent. -/
def safe (s : WasClient) (io : Answers) : Event → Bool
  | .packet .noData _ =>
    !s.pending && !(s.isReceivingMetadata && s.requestBody && !io.sendPremature)
  | .packet .data _ => !s.pending
  | .packet .length payload => !(s.pending && (s.pendingInputType ≠ .none || payload.length ≠ 8))
  | .packet .premature payload => !(s.pending && payload.length ≠ 8)
  | _ => true

/-- All events are handled well. -/
def allSafe (lib : WasLib) (s : WasClient) : List (Answers × Event) → Bool
  | [] => true
  | (io, e) :: events =>
    s.safe io e && match s.step lib io e with
      | none => true
      | some s => s.allSafe lib events

/-- The response handler is invoked once at most, and before the client is destroyed, and every
function that aborts the response was called when it may be called. -/
structure Answered (s : WasClient) : Prop where
  misuse : s.misuse = false
  le_one : s.invocations ≤ 1
  eq_one : s.destroyed = true → s.invocations = 1

/-- The client has done its work. -/
structure Finished (s : WasClient) : Prop where
  destroyed : s.destroyed = true
  misuse : s.misuse = false
  invocations : s.invocations = 1

/-- The response handler was called if and only if the response was submitted. -/
structure Counts (s : WasClient) : Prop where
  misuse : s.misuse = false
  invocations : s.invocations = if s.receivingMetadata then 0 else 1
  pending : s.pending = true → s.receivingMetadata = true

variable {lib : WasLib} {io : Answers} {s s' : WasClient}

@[simp]
theorem invocations_emit (s : WasClient) (o : WasOutput) :
    (s.emit o).invocations = s.invocations + if o.isInvocation then 1 else 0 := by
  rw [invocations, emit, invocations, List.countP_append, List.countP_singleton]

private theorem invocations_congr (h : s'.outputs = s.outputs) :
    s'.invocations = s.invocations := by
  rw [invocations, h, invocations]

private theorem invocations_clearUnused (s : WasClient) :
    s.clearUnused.invocations = s.invocations := by
  rw [clearUnused, invocations_emit]
  rfl

private theorem finished_abortResponseHeaders (h : Counts s) (hme : s.isReceivingMetadata = true)
    (e : Exception) : (s.abortResponseHeaders e).Finished := by
  have hre : s.receivingMetadata = true := (Bool.and_eq_true_iff.mp hme).1
  have hc := h.invocations
  rw [hre] at hc
  refine ⟨rfl, ?_, ?_⟩
  · show (s.misuse || !s.isReceivingMetadata) = false
    rw [h.misuse, hme]
    rfl
  · rw [abortResponseHeaders, invocations_emit]
    have hsa : (s.require s.isReceivingMetadata).clearUnused.destroy.invocations =
        s.invocations := invocations_clearUnused _
    rw [hsa, hc]
    rfl

private theorem finished_abortPending (h : Counts s) (hpe : s.pending = true) (e : Exception) :
    (s.abortPending e).Finished := by
  have hre := h.pending hpe
  have hc := h.invocations
  rw [hre] at hc
  refine ⟨rfl, ?_, ?_⟩
  · show (s.misuse || !(!s.isReceivingMetadata && !s.wasSubmitted)) = false
    rw [h.misuse, isReceivingMetadata, wasSubmitted, hre, hpe]
    rfl
  · rw [abortPending, invocations_emit]
    have hsa :
        (s.require (!s.isReceivingMetadata && !s.wasSubmitted)).clearUnused.destroy.invocations =
          s.invocations := invocations_clearUnused _
    rw [hsa, hc]
    rfl

private theorem abortResponseBody_spec (s : WasClient) (e : Exception) :
    (s.abortResponseBody e).destroyed = true ∧
      (s.abortResponseBody e).misuse = (s.misuse || s.receivingMetadata) ∧
      (s.abortResponseBody e).invocations = s.invocations := by
  have hc : ∀ s' : WasClient, s'.outputs = s.outputs → ∀ o : WasOutput,
      o.isInvocation = false → (s'.emit o).invocations = s.invocations := by
    intro s' hou o ho
    rw [invocations_emit, ho, invocations_congr hou]
    rfl
  have hmi : (s.misuse || !s.wasSubmitted) = (s.misuse || s.receivingMetadata) := by
    rw [wasSubmitted, Bool.not_not]
  rw [abortResponseBody]
  split
  · exact ⟨rfl, hmi, hc _ rfl _ rfl⟩
  next i _ =>
    split
    · refine ⟨rfl, hmi, ?_⟩
      rw [invocations_emit]
      exact hc _ rfl _ rfl
    · exact ⟨rfl, hmi, hc _ rfl _ rfl⟩

private theorem finished_abortResponseBody (h : Counts s) (hsu : s.receivingMetadata = false)
    (e : Exception) : (s.abortResponseBody e).Finished := by
  obtain ⟨hd, hmi, hc⟩ := abortResponseBody_spec s e
  refine ⟨hd, ?_, ?_⟩
  · rw [hmi, h.misuse, hsu]
    rfl
  · rw [hc, h.invocations, hsu]
    rfl

private theorem finished_abortResponse (h : Counts s) (e : Exception) :
    (s.abortResponse e).Finished := by
  rw [abortResponse]
  split
  next hme => exact finished_abortResponseHeaders h hme e
  next hme =>
    split
    next hsu =>
      apply finished_abortResponseBody h
      rw [wasSubmitted, Bool.not_eq_true'] at hsu
      exact hsu
    next hsu =>
      apply finished_abortPending h
      rw [wasSubmitted, Bool.not_eq_true', Bool.not_eq_false] at hsu
      rw [isReceivingMetadata, hsu, Bool.true_and, Bool.not_eq_true', Bool.not_eq_false]
        at hme
      exact hme

private theorem finished_abortControlError (h : Counts s)
    (hig : s.ignoreControlErrors = true → s.receivingMetadata = false) (e : Exception) :
    (s.abortControlError e).Finished := by
  rw [abortControlError]
  split
  next hi =>
    refine ⟨rfl, h.misuse, ?_⟩
    have hc := h.invocations
    rw [hig hi] at hc
    exact (invocations_clearUnused s).trans hc
  · exact finished_abortResponse h _

private theorem cancelRequestBody_eq (s : WasClient) (io : Answers) :
    s.cancelRequestBody io =
      if (s.requestBody && !io.sendPremature) = true then
        ({ s with requestBody := false }.abortControlError io.controlError, false)
      else ({ s with requestBody := false }, true) := by
  rw [cancelRequestBody]
  cases hb : s.requestBody with
  | false => rw [if_neg Bool.false_ne_true, Bool.false_and, if_neg Bool.false_ne_true, ← hb]
  | true =>
    cases io.sendPremature with
    | true | false => rfl

private theorem cancelRequestBody_cases (h : Counts s)
    (hi : s.ignoreControlErrors = true → s.receivingMetadata = false) (io : Answers) :
    s.cancelRequestBody io = ({ s with requestBody := false }, true) ∨
      ∃ s', s.cancelRequestBody io = (s', false) ∧ s'.Finished := by
  rw [cancelRequestBody_eq]
  split
  · right
    refine ⟨_, rfl, finished_abortControlError ?_ hi _⟩
    exact ⟨h.misuse, h.invocations, h.pending⟩
  · exact .inl rfl

private theorem releaseControl_spec (s : WasClient) (io : Answers) :
    ∃ outputs, (s.releaseControl io).1 = { s with leaseReleased := true, outputs } ∧
      outputs.countP isInvocation = s.invocations := by
  rw [releaseControl]
  cases hre : s.leaseReleased with
  | true =>
    refine ⟨s.outputs, ?_, rfl⟩
    rw [if_pos rfl, ← hre]
  | false =>
    refine ⟨s.outputs ++ [.releaseWas .reuse], rfl, ?_⟩
    exact invocations_emit s _

/-- The response was passed to the handler, and the handler will not be called any more. -/
structure Delivered (s : WasClient) : Prop where
  misuse : s.misuse = false
  invocations : s.invocations = 1
  receivingMetadata : s.receivingMetadata = false
  pending : s.pending = false

section

variable (h : Delivered s)
include h

private theorem Delivered.counts : Counts s where
  misuse := h.misuse
  invocations := by
    rw [h.invocations, h.receivingMetadata]
    rfl
  pending hpe := absurd (h.pending.symm.trans hpe) Bool.false_ne_true

private theorem Delivered.of_eq (hmi : s'.misuse = s.misuse) (hc : s'.invocations = s.invocations)
    (hre : s'.receivingMetadata = s.receivingMetadata) (hpe : s'.pending = s.pending) :
    Delivered s' :=
  ⟨hmi.trans h.misuse, hc.trans h.invocations, hre.trans h.receivingMetadata, hpe.trans h.pending⟩

private theorem Delivered.emit {o : WasOutput} (ho : o.isInvocation = false) : Delivered
    (s.emit o) := by
  refine h.of_eq rfl ?_ rfl rfl
  rw [invocations_emit, ho]
  rfl

omit h in
private theorem Finished.emit (h : Finished s) {o : WasOutput} (ho : o.isInvocation = false) :
    Finished (s.emit o) := by
  refine ⟨h.destroyed, h.misuse, ?_⟩
  rw [invocations_emit, ho, h.invocations]
  rfl

private theorem Delivered.responseEof (io : Answers) : (s.responseEof io).Finished := by
  rw [WasClient.responseEof]
  rcases cancelRequestBody_cases h.counts (fun _ => h.receivingMetadata) io with
    hc | ⟨s', hc, hfi⟩
  · obtain ⟨outputs, hre, hco⟩ := releaseControl_spec { s with requestBody := false } io
    rw [hc]
    simp only [hre]
    exact ⟨rfl, h.misuse, hco.trans h.invocations⟩
  · rw [hc]
    exact hfi

private theorem Delivered.wasInputEof (io : Answers) : (s.wasInputEof io).Finished := by
  have he : Delivered { s with body := none, deferUpdateInput := false } := h.of_eq rfl rfl rfl rfl
  exact he.responseEof io

private theorem Delivered.wasInputError : s.wasInputError.Finished := by
  have hd : Delivered { s with body := none, leaseReleased := true } :=
    h.of_eq rfl rfl rfl rfl
  have he := hd.emit (o := .releaseWas .destroy) rfl
  exact ⟨rfl, he.misuse, he.invocations⟩

private theorem Delivered.wasInputClose (io : Answers) (r : Nat) :
    (s.wasInputClose io r).Finished := by
  rw [WasClient.wasInputClose]
  have hc : Delivered { s with
      body := none, deferUpdateInput := false, ignoreControlErrors := true } :=
    h.of_eq rfl rfl rfl rfl
  rcases cancelRequestBody_cases hc.counts (fun _ => h.receivingMetadata) io with
    hca | ⟨s', hca, hfi⟩
  · rw [hca]
    simp only [releaseControlStop]
    cases s.leaseReleased with
    | true => exact ⟨rfl, h.misuse, h.invocations⟩
    | false =>
      cases io.sendStop with
      | true =>
        have he := hc.emit (o := .releaseWasStop r) rfl
        exact ⟨rfl, he.misuse, he.invocations⟩
      | false =>
        exact finished_abortControlError (hc.of_eq rfl rfl rfl rfl).counts
          (fun _ => h.receivingMetadata) _
  · rw [hca]
    exact hfi

end

private theorem releasePipe_cases (h : Counts s) (hi : s.ignoreControlErrors = false) (io : Answers)
    (i : WasInput) :
    (∃ outputs, s.releasePipe io i = ({ s with
        body := some { i with hasPipe := false }, released := true, requestBody := false,
        leaseReleased := true, outputs }, true) ∧
        outputs.countP isInvocation = s.invocations) ∨
      ∃ s', s.releasePipe io i = (s', false) ∧ s'.Finished := by
  rw [releasePipe, wasInputRelease]
  have hco : Counts { s with
      body := some { i with hasPipe := false }, released := true } :=
    ⟨h.misuse, h.invocations, h.pending⟩
  have hi' : s.ignoreControlErrors = true → s.receivingMetadata = false := by
    intro ht
    rw [hi] at ht
    cases ht
  rcases cancelRequestBody_cases hco hi' io with hc | ⟨s', hc, hfi⟩
  · left
    obtain ⟨outputs, hre, hu⟩ := releaseControl_spec { s with
      body := some { i with hasPipe := false }, released := true, requestBody := false } io
    refine ⟨outputs, ?_, hu⟩
    rw [hc]
    simp only [hre]
  · right
    refine ⟨s', ?_, hfi⟩
    rw [hc]

/-- The response was not submitted: nothing was received from the pipe, and an event is scheduled
only if the response is pending. -/
structure Unsubmitted (s : WasClient) : Prop where
  counts : Counts s
  live : s.destroyed = false
  ignore : s.ignoreControlErrors = false
  receivingMetadata : s.receivingMetadata = true
  released : s.released = false
  body : ∀ i, s.body = some i → i = { }
  pending : s.pending = true → s.body.isSome = true
  pendingInputType : s.pendingInputType ≠ .premature
  deferred : s.deferUpdateInput = true → s.pending = true
  timer : s.submitResponseTimer = true → s.pending = true

/-- The response was submitted, and there is a body. -/
structure Submitted (s : WasClient) : Prop where
  delivered : Delivered s
  live : s.destroyed = false
  ignore : s.ignoreControlErrors = false
  timer : s.submitResponseTimer = false
  body : ∃ i, s.body = some i ∧ i.enabled = true

/-- After an event that is handled well. -/
def Continues (s : WasClient) : Prop := Finished s ∨ Unsubmitted s ∨ Submitted s

private theorem Submitted.of_eq (h : Submitted s) (hd : Delivered s')
    (hli : s'.destroyed = s.destroyed) (hig : s'.ignoreControlErrors = s.ignoreControlErrors)
    (ht : s'.submitResponseTimer = s.submitResponseTimer) {i : WasInput}
    (hb : s'.body = some i) (hi : i.enabled = true) : Submitted s' :=
  ⟨hd, hli.trans h.live, hig.trans h.ignore, ht.trans h.timer, i, hb, hi⟩

private theorem continues_submitPendingResponse (h : Counts s) (hli : s.destroyed = false)
    (hig : s.ignoreControlErrors = false) (hpe : s.pending = true)
    (hb : s.body.isSome = true) : s.submitPendingResponse.Continues := by
  have hc := h.invocations
  rw [h.pending hpe] at hc
  rw [submitPendingResponse]
  split
  · refine .inl ⟨rfl, h.misuse, ?_⟩
    exact (invocations_emit _ _).trans (congrArg (· + 1) hc)
  obtain ⟨i, hi⟩ := isSome_iff_exists.mp hb
  refine .inr (.inr ⟨⟨h.misuse, ?_, rfl, rfl⟩, hli, hig, rfl, { i with enabled := true }, ?_, rfl⟩)
  · exact (invocations_emit _ _).trans (congrArg (· + 1) hc)
  · show s.body.map _ = _
    rw [hi, map_some]

private theorem Submitted.setLength (h : Submitted s) {i : WasInput} (hi : i.enabled = true)
    (io : Answers) (length : Nat) :
    (∃ s', s.setLength io i length = (s', false) ∧ s'.Finished) ∨
      ∃ s', s.setLength io i length = (s', true) ∧ s'.Submitted := by
  have hab : ∀ error, (s.abortError error).Finished :=
    fun error => h.delivered.wasInputError.emit rfl
  rw [WasClient.setLength]
  split
  next length' hle =>
    split
    · exact .inr ⟨s, rfl, h⟩
    · exact .inl ⟨_, rfl, hab _⟩
  · split
    · exact .inl ⟨_, rfl, hab _⟩
    simp only
    split
    · rcases releasePipe_cases h.delivered.counts h.ignore io
        { i with length := some length } with
        ⟨outputs, hre, hc⟩ | ⟨s', hre, hfi⟩
      · rw [hre]
        simp only
        split
        · refine .inl ⟨_, rfl, ?_⟩
          have hd : Delivered { s with
              body := some { i with length := some length, hasPipe := false }, released := true,
              requestBody := false, leaseReleased := true, outputs } :=
            h.delivered.of_eq rfl hc rfl rfl
          exact (hd.wasInputEof io).emit rfl
        · refine .inr ⟨_, rfl, h.of_eq ?_ rfl rfl rfl rfl hi⟩
          exact h.delivered.of_eq rfl hc rfl rfl
      · rw [hre]
        exact .inl ⟨s', rfl, hfi⟩
    · refine .inr ⟨_, rfl, h.of_eq ?_ rfl rfl rfl rfl hi⟩
      exact h.delivered.of_eq rfl rfl rfl rfl

private theorem Submitted.premature (h : Submitted s) (io : Answers) (i : WasInput) (l : Nat) :
    (s.premature io i l).Finished := by
  rw [WasClient.premature]
  split
  · exact h.delivered.wasInputError.emit rfl
  rcases releasePipe_cases h.delivered.counts h.ignore io i with
    ⟨outputs, hre, hc⟩ | ⟨s', hre, hfi⟩
  · rw [hre]
    have hd : Delivered { s with
        body := some { i with hasPipe := false }, released := true,
        requestBody := false, leaseReleased := true, outputs } :=
      h.delivered.of_eq rfl hc rfl rfl
    exact (hd.wasInputEof io).emit rfl
  · rw [hre]
    exact hfi

private theorem Unsubmitted.setLength (h : Unsubmitted s) (hpe : s.pending = true)
    (io : Answers) (length : Nat) :
    (∃ s', s.setLength io { } length = (s', false) ∧ s'.Finished) ∨
      ∃ s', s.setLength io { } length = (s', true) ∧ s'.pending = true ∧
        s'.submitPendingResponse.Continues := by
  rw [WasClient.setLength]
  simp only [Nat.not_lt_zero, if_false]
  split
  · rcases releasePipe_cases h.counts h.ignore io { length := some length } with
      ⟨outputs, hre, hc⟩ | ⟨s', hre, hfi⟩
    · rw [hre]
      refine .inr ⟨_, rfl, hpe, ?_⟩
      refine continues_submitPendingResponse ⟨h.counts.misuse, ?_, h.counts.pending⟩ h.live h.ignore
        hpe rfl
      exact hc.trans h.counts.invocations
    · rw [hre]
      exact .inl ⟨s', rfl, hfi⟩
  · refine .inr ⟨_, rfl, hpe, ?_⟩
    exact continues_submitPendingResponse { h.counts with }
      h.live h.ignore hpe rfl

/-- An event that is handled well continues; another one leaves a client that is destroyed and has
not answered as it should. -/
structure Handled (ok : Bool) (s' : WasClient) : Prop where
  well : ok = true → s'.Continues
  badly : ok = false → s'.destroyed = true ∧ ¬s'.Answered

private theorem Handled.of_continues (h : s'.Continues) {ok : Bool} (ho : ok = true) :
    Handled ok s' :=
  ⟨fun _ => h, fun hfa => absurd (hfa.symm.trans ho) Bool.false_ne_true⟩

private theorem Handled.of_finished (h : s'.Finished) {ok : Bool} (ho : ok = true) :
    Handled ok s' := .of_continues (.inl h) ho

section

variable (h : Unsubmitted s)
include h

private theorem Unsubmitted.abortResponseBody (e : Exception) :
    (s.abortResponseBody e).destroyed = true ∧ ¬(s.abortResponseBody e).Answered := by
  obtain ⟨hd, hmi, -⟩ := abortResponseBody_spec s e
  refine ⟨hd, fun han => ?_⟩
  rw [han.misuse, h.receivingMetadata, Bool.or_true] at hmi
  cases hmi

private theorem Handled.misused (e : Exception) {ok : Bool}
    (ho : ok = false) : Handled ok (s.abortResponseBody e) :=
  ⟨fun ht => absurd (ho.symm.trans ht) Bool.false_ne_true, fun _ => h.abortResponseBody e⟩

private theorem Unsubmitted.isReceivingMetadata : s.isReceivingMetadata = !s.pending := by
  rw [WasClient.isReceivingMetadata, h.receivingMetadata, Bool.true_and]

private theorem Unsubmitted.ignored : s.ignoreControlErrors = true → s.receivingMetadata = false :=
  fun ht => absurd (h.ignore.symm.trans ht) Bool.false_ne_true

private theorem Unsubmitted.onHeader (p : Text) : (s.onHeader lib p).1.Continues := by
  rw [WasClient.onHeader]
  by_cases hme : s.isReceivingMetadata = true
  · rw [if_neg (by rw [hme]; decide)]
    split
    · exact .inl (finished_abortResponseHeaders h.counts hme _)
    have hc : Counts { s with totalHeaderSize := s.totalHeaderSize + p.length } :=
      { h.counts with }
    simp only
    split
    · exact .inl (finished_abortResponseHeaders hc hme _)
    · split
      · exact .inl (finished_abortResponseHeaders hc hme _)
      · exact .inr (.inl { h with counts := { h.counts with } })
  · rw [if_pos (by simpa using hme)]
    exact .inl (finished_abortResponse h.counts _)

private theorem Unsubmitted.onStatus (p : Text) : (s.onStatus lib p).1.Continues := by
  rw [WasClient.onStatus]
  by_cases hme : s.isReceivingMetadata = true
  · rw [if_neg (by rw [hme]; decide)]
    split
    · exact .inl (finished_abortResponseHeaders h.counts hme _)
    simp only
    split
    · exact .inl (finished_abortResponseHeaders h.counts hme _)
    refine .inr (.inl { h with
      counts := { h.counts with }, body := fun i hi => ?_, pending := fun hpe => ?_ })
    · simp only at hi
      split at hi
      · cases hi
      · exact h.body i hi
    · have hp' : s.pending = true := hpe
      rw [h.isReceivingMetadata, hp'] at hme
      exact absurd hme (by decide)
  · rw [if_pos (by simpa using hme)]
    exact .inl (finished_abortResponse h.counts _)

private theorem Unsubmitted.onNoData (p : Text) :
    Handled (s.safe io (.packet .noData p)) (s.onNoData io).1 := by
  rw [WasClient.onNoData, safe, h.isReceivingMetadata]
  by_cases hpe : s.pending = true
  · rw [hpe]
    exact .misused h _ rfl
  rw [Bool.not_eq_true] at hpe
  rw [if_neg (by rw [hpe]; decide), cancelRequestBody_eq]
  have hc := h.counts.invocations
  rw [h.receivingMetadata] at hc
  by_cases hfa : (s.requestBody && !io.sendPremature) = true
  · rw [if_pos hfa]
    refine ⟨fun ht => ?_, fun _ => ?_⟩
    · rw [hpe, Bool.not_false, Bool.true_and, Bool.true_and, hfa] at ht
      cases ht
    · obtain ⟨hd, -, hi⟩ := abortResponseBody_spec
        { s with receivingMetadata := false, body := none, requestBody := false }
        ("Error on WAS control channel" :: io.controlError)
      have hab : { s with
          receivingMetadata := false, body := none, requestBody := false }.abortControlError
            io.controlError = _ := if_neg (by rw [h.ignore]; decide)
      rw [hab, abortResponse, if_neg (by simp [WasClient.isReceivingMetadata]),
        if_pos (by simp [wasSubmitted])]
      refine ⟨hd, fun han => ?_⟩
      have ho := han.eq_one hd
      rw [hi] at ho
      have hz : s.invocations = 1 := ho
      rw [hc] at hz
      cases hz
  · rw [if_neg hfa]
    apply Handled.of_finished
    · obtain ⟨outputs, hre, hou⟩ := releaseControl_spec
        { s with receivingMetadata := false, body := none, requestBody := false } io
      simp only [hre]
      refine ⟨rfl, h.counts.misuse, (invocations_emit _ _).trans ?_⟩
      exact congrArg (· + 1) (hou.trans hc)
    · rw [Bool.not_eq_true] at hfa
      rw [hpe, Bool.not_false, Bool.true_and, Bool.true_and, hfa]
      rfl

private theorem Unsubmitted.onData (p : Text) :
    Handled (s.safe io (.packet .data p)) s.onData.1 := by
  rw [WasClient.onData, safe]
  by_cases hpe : s.pending = true
  · rw [if_pos (by rw [h.isReceivingMetadata, hpe]; decide), hpe]
    exact .misused h _ rfl
  rw [Bool.not_eq_true] at hpe
  have hme : s.isReceivingMetadata = true := by rw [h.isReceivingMetadata, hpe]; rfl
  rw [if_neg (by rw [hme]; decide)]
  apply Handled.of_continues
  · split
    · exact .inl (finished_abortResponseHeaders h.counts hme _)
    next hb =>
      rw [isNone_iff_eq_none, ← ne_eq, ne_none_iff_isSome] at hb
      exact .inr (.inl { h with
        counts := { h.counts with pending := fun _ => h.receivingMetadata }
        pending := fun _ => hb, deferred := fun _ => rfl, timer := fun _ => rfl })
  · rw [hpe]
    rfl

private theorem Unsubmitted.onLength (p : Text) :
    Handled (s.safe io (.packet .length p)) (s.onLength lib p).1 := by
  rw [WasClient.onLength, safe]
  by_cases hpe : s.pending = true
  · have hb := h.pending hpe
    rw [if_neg (by rw [h.isReceivingMetadata, hpe]; decide),
      if_neg (by rw [isNone_iff_eq_none, ← ne_eq, ne_none_iff_isSome]; exact hb)]
    split
    next ht =>
      apply Handled.misused h
      simp [hpe, ht]
    next ht =>
      split
      next hle =>
        apply Handled.misused h
        simp [hpe, hle]
      next hle =>
        apply Handled.of_continues
        · exact .inr (.inl { h with
            counts := { h.counts with }
            pendingInputType := nofun, deferred := fun _ => hpe })
        · rw [not_not] at ht hle
          simp [ht, hle]
  · rw [Bool.not_eq_true] at hpe
    have hme : s.isReceivingMetadata = true := by rw [h.isReceivingMetadata, hpe]; rfl
    rw [if_pos hme]
    apply Handled.of_finished
    · exact finished_abortResponseHeaders h.counts hme _
    · rw [hpe]
      rfl

private theorem Unsubmitted.onPremature (p : Text) :
    Handled (s.safe io (.packet .premature p)) (s.onPremature lib io p).1 := by
  rw [WasClient.onPremature, safe]
  by_cases hpe : s.pending = true
  · obtain ⟨i, hb⟩ := isSome_iff_exists.mp (h.pending hpe)
    rw [if_neg (by rw [h.isReceivingMetadata, hpe]; decide), if_neg h.pendingInputType]
    split
    next hle =>
      apply Handled.misused h
      simp [hpe, hle]
    next hle =>
      apply Handled.of_finished
      · simp only [hb]
        exact finished_abortPending
          { h.counts with } hpe _
      · simp [hle]
  rw [Bool.not_eq_true] at hpe
  have hme : s.isReceivingMetadata = true := by rw [h.isReceivingMetadata, hpe]; rfl
  rw [if_pos hme]
  apply Handled.of_finished
  · exact finished_abortResponseHeaders h.counts hme _
  · rw [hpe]
    rfl

private theorem Unsubmitted.cancelRequestBody (io : Answers) :
    (s.cancelRequestBody io).1.Continues := by
  rcases cancelRequestBody_cases h.counts h.ignored io with hc | ⟨s', hc, hfi⟩
  · rw [hc]
    exact .inr (.inl { h with counts := { h.counts with } })
  · rw [hc]
    exact .inl hfi

private theorem Unsubmitted.onMetric (p : Text) : (s.onMetric lib p).1.Continues := by
  rw [WasClient.onMetric]
  split
  · split
    · exact .inl (finished_abortResponse h.counts _)
    next name value _ =>
      refine .inr (.inl { h with counts := { h.counts with invocations := ?_ } })
      exact (invocations_emit _ _).trans h.counts.invocations
  · exact .inr (.inl h)

private theorem Unsubmitted.handled_packet (lib : WasLib) (io : Answers) (cmd : Command)
    (p : Text) :
    Handled (s.safe io (.packet cmd p)) (s.onWasControlPacket lib io cmd p).1 := by
  have hu : ∀ cmd, (s.onUnexpected lib cmd).1.Finished :=
    fun cmd => finished_abortResponse h.counts _
  cases cmd with
  | nop => exact .of_continues (.inr (.inl h)) rfl
  | request | uri | method | scriptName | pathInfo | queryString | parameter | remoteHost =>
    exact .of_finished (hu _) rfl
  | header => exact .of_continues (h.onHeader p) rfl
  | status => exact .of_continues (h.onStatus p) rfl
  | noData => exact h.onNoData p
  | data => exact h.onData p
  | length => exact h.onLength p
  | stop => exact .of_continues (h.cancelRequestBody io) rfl
  | premature => exact h.onPremature p
  | metric => exact .of_continues (h.onMetric p) rfl
  | unknown => exact .of_continues (.inr (.inl h)) rfl

omit h in
private theorem Submitted.isReceivingMetadata (h : Submitted s) :
    s.isReceivingMetadata = false := by
  rw [WasClient.isReceivingMetadata, h.delivered.receivingMetadata, Bool.false_and]

omit h in
private theorem Submitted.safe (h : Submitted s) (io : Answers) (e : Event) :
    s.safe io e = true := by
  rw [WasClient.safe.eq_def, h.delivered.pending, h.isReceivingMetadata]
  split
  all_goals rfl

omit h in
private theorem Submitted.abortResponse (h : Submitted s) (e : Exception) :
    (s.abortResponse e).Finished := finished_abortResponse h.delivered.counts e

omit h in
private theorem Submitted.abortResponseBody (h : Submitted s) (e : Exception) :
    (s.abortResponseBody e).Finished :=
  finished_abortResponseBody h.delivered.counts h.delivered.receivingMetadata e

omit h in
private theorem Submitted.continues_packet (h : Submitted s) (lib : WasLib) (io : Answers)
    (cmd : Command)
    (p : Text) : (s.onWasControlPacket lib io cmd p).1.Continues := by
  have hu : ∀ cmd, (s.onUnexpected lib cmd).1.Continues := fun cmd => .inl (h.abortResponse _)
  have hla : (!s.isReceivingMetadata) = true := by rw [h.isReceivingMetadata]; rfl
  have hsa : s.Continues := .inr (.inr h)
  obtain ⟨i, hb, hi⟩ := h.body
  have hn : ¬s.body.isNone = true := by rw [hb]; exact Bool.false_ne_true
  cases cmd with
  | nop => exact hsa
  | request | uri | method | scriptName | pathInfo | queryString | parameter | remoteHost =>
    exact hu _
  | header =>
    rw [onWasControlPacket, onHeader, if_pos hla]
    exact .inl (h.abortResponse _)
  | status =>
    rw [onWasControlPacket, onStatus, if_pos hla]
    exact .inl (h.abortResponse _)
  | noData =>
    rw [onWasControlPacket, onNoData, if_pos hla]
    exact .inl (h.abortResponseBody _)
  | data =>
    rw [onWasControlPacket, onData, if_pos hla]
    exact .inl (h.abortResponseBody _)
  | length =>
    rw [onWasControlPacket, onLength, if_neg (by rw [h.isReceivingMetadata]; decide), if_neg hn]
    split
    · exact .inl (h.abortResponseBody _)
    · split
      · exact .inl (h.abortResponseBody _)
      · exact .inr (.inr (h.of_eq (h.delivered.of_eq rfl rfl rfl rfl) rfl rfl rfl hb hi))
  | stop =>
    rw [onWasControlPacket]
    rcases cancelRequestBody_cases h.delivered.counts
      (fun _ => h.delivered.receivingMetadata) io with hc | ⟨s', hc, hfi⟩
    · rw [hc]
      exact .inr (.inr (h.of_eq (h.delivered.of_eq rfl rfl rfl rfl) rfl rfl rfl hb hi))
    · rw [hc]
      exact .inl hfi
  | premature =>
    rw [onWasControlPacket, onPremature, if_neg (by rw [h.isReceivingMetadata]; decide)]
    split
    · exact .inl (h.abortResponseBody _)
    split
    · exact .inl (h.abortResponseBody _)
    · simp only [hb, h.delivered.pending, Bool.false_eq_true]
      exact .inr (.inr (h.of_eq (h.delivered.of_eq rfl rfl rfl h.delivered.pending.symm) rfl rfl
        rfl rfl hi))
  | metric =>
    rw [onWasControlPacket, onMetric]
    split
    · split
      · exact .inl (h.abortResponse _)
      · exact .inr (.inr (h.of_eq (h.delivered.emit rfl) rfl rfl rfl hb hi))
    · exact hsa
  | unknown => exact hsa

private theorem Unsubmitted.onDeferredInputUpdate (hpe : s.pending = true)
    (io : Answers) : (s.onDeferredInputUpdate io).Continues := by
  obtain ⟨i, hb⟩ := isSome_iff_exists.mp (h.pending hpe)
  have hi := h.body i hb
  subst hi
  rw [WasClient.onDeferredInputUpdate, hb]
  cases ht : s.pendingInputType with
  | none => exact .inr (.inl h)
  | premature => exact absurd ht h.pendingInputType
  | length =>
    rcases h.setLength hpe io s.pendingSize with
      ⟨s', hse, hfi⟩ | ⟨s', hse, hp', hc⟩
    · simp only [hse]
      exact .inl hfi
    · simp only [hse, hp']
      exact hc

end

private theorem Submitted.onDeferredInputUpdate (h : Submitted s) (io : Answers) :
    (s.onDeferredInputUpdate io).Continues := by
  obtain ⟨i, hb, hi⟩ := h.body
  rw [WasClient.onDeferredInputUpdate, hb]
  cases s.pendingInputType with
  | none => exact .inr (.inr h)
  | premature => exact .inl (h.premature io i _)
  | length =>
    rcases h.setLength hi io s.pendingSize with ⟨s', hse, hfi⟩ | ⟨s', hse, hsu⟩
    · simp only [hse]
      exact .inl hfi
    · simp only [hse, hsu.delivered.pending, Bool.false_eq_true]
      exact .inr (.inr hsu)

private theorem Submitted.onInputRead (h : Submitted s) {i : WasInput} (hi : i.enabled = true)
    (io : Answers) (n : Nat) : (s.onInputRead io i n).Continues := by
  rw [WasClient.onInputRead]
  split
  · rcases releasePipe_cases h.delivered.counts h.ignore io
      { i with received := i.received + n, buffered := i.buffered + n } with
      ⟨outputs, hre, hc⟩ | ⟨s', hre, hfi⟩
    · rw [hre]
      exact .inr (.inr (h.of_eq (h.delivered.of_eq rfl hc rfl rfl) rfl rfl rfl rfl hi))
    · rw [hre]
      exact .inl hfi
  · exact .inr (.inr (h.of_eq (h.delivered.of_eq rfl rfl rfl rfl) rfl rfl rfl rfl hi))

private theorem Submitted.onInputConsumed (h : Submitted s) {i : WasInput} (hi : i.enabled = true)
    (io : Answers) (n : Nat) : (s.onInputConsumed io i n).Continues := by
  rw [WasClient.onInputConsumed]
  split
  · have hd : Delivered { s with
        body := some { i with buffered := i.buffered - n } } :=
      h.delivered.of_eq rfl rfl rfl rfl
    exact .inl ((hd.wasInputEof io).emit rfl)
  · exact .inr (.inr (h.of_eq (h.delivered.of_eq rfl rfl rfl rfl) rfl rfl rfl rfl hi))

private theorem Submitted.onInputClose (h : Submitted s) (io : Answers) (i : WasInput) :
    (s.onInputClose io i).Finished := by
  have hd : Delivered { s with body := some { i with buffered := 0, closed := true } } :=
    h.delivered.of_eq rfl rfl rfl rfl
  rw [WasClient.onInputClose]
  split
  · split
    · rcases releasePipe_cases hd.counts h.ignore io
        { i with buffered := 0, closed := true } with
        ⟨outputs, hre, hc⟩ | ⟨s', hre, hfi⟩
      · rw [hre]
        have hr : Delivered { s with
            body := some { i with buffered := 0, closed := true, hasPipe := false },
            released := true, requestBody := false, leaseReleased := true, outputs } :=
          hd.of_eq rfl hc rfl rfl
        exact hr.wasInputEof io
      · rw [hre]
        exact hfi
    · exact hd.wasInputEof io
  · exact hd.wasInputClose io _

private theorem Unsubmitted.enabledBody (h : Unsubmitted s) : s.enabledBody = none := by
  rw [WasClient.enabledBody]
  cases hb : s.body with
  | none => rfl
  | some i =>
    rw [h.body i hb]
    rfl

private theorem Unsubmitted.handled (h : Unsubmitted s) {e : Event}
    (hst : s.step lib io e = some s') :
    Handled (s.safe io e) s' := by
  rw [step, if_neg (by rw [h.live]; decide)] at hst
  cases e with
  | packet cmd payload =>
    obtain ⟨-, ⟨⟩⟩ := ite_none_left_eq_some.mp hst
    exact h.handled_packet lib io cmd payload
  | drained =>
    obtain ⟨-, ⟨⟩⟩ := ite_none_left_eq_some.mp hst
    apply Handled.of_continues _ rfl
    rw [onWasControlDrained]
    split
    next hpe =>
      have hp' := (Bool.and_eq_true_iff.mp hpe).1
      exact .inr (.inl { h with counts := { h.counts with }, timer := fun _ => hp' })
    · exact .inr (.inl h)
  | submitTimer =>
    obtain ⟨ht, ⟨⟩⟩ := ite_none_right_eq_some.mp hst
    have hpe := h.timer ht
    apply Handled.of_continues _ rfl
    exact continues_submitPendingResponse h.counts h.live h.ignore hpe (h.pending hpe)
  | deferredUpdate =>
    obtain ⟨hd, ⟨⟩⟩ := ite_none_right_eq_some.mp hst
    have hpe := h.deferred hd
    have hu : Unsubmitted { s with deferUpdateInput := false } :=
      { h with counts := { h.counts with }, deferred := fun _ => hpe }
    exact .of_continues (hu.onDeferredInputUpdate hpe io) rfl
  | controlError error =>
    obtain ⟨-, ⟨⟩⟩ := ite_none_left_eq_some.mp hst
    exact .of_finished (finished_abortControlError h.counts h.ignored error) rfl
  | outputEof =>
    obtain ⟨-, ⟨⟩⟩ := ite_none_right_eq_some.mp hst
    refine .of_continues (.inr (.inl ?_)) rfl
    exact { h with counts := { h.counts with } }
  | outputError error =>
    obtain ⟨-, ⟨⟩⟩ := ite_none_right_eq_some.mp hst
    exact .of_finished (finished_abortResponse { h.counts with } error) rfl
  | inputRead nbytes | inputError error | inputConsumed nbytes | inputClose =>
    simp only [onEvent, h.enabledBody] at hst
    cases hst

private theorem Submitted.continues (h : Submitted s) {e : Event}
    (hst : s.step lib io e = some s') :
    s'.Continues := by
  obtain ⟨i, hb, hi⟩ := h.body
  have he : s.enabledBody = some i := by
    rw [enabledBody, hb]
    exact filter_eq_some_iff.mpr ⟨rfl, hi⟩
  rw [step, if_neg (by rw [h.live]; decide)] at hst
  cases e with
  | packet cmd payload =>
    obtain ⟨-, ⟨⟩⟩ := ite_none_left_eq_some.mp hst
    exact h.continues_packet lib io cmd payload
  | drained =>
    obtain ⟨-, ⟨⟩⟩ := ite_none_left_eq_some.mp hst
    rw [onWasControlDrained, h.delivered.pending]
    exact .inr (.inr h)
  | submitTimer =>
    rw [onEvent, h.timer] at hst
    cases hst
  | deferredUpdate =>
    obtain ⟨-, ⟨⟩⟩ := ite_none_right_eq_some.mp hst
    have hu : Submitted { s with deferUpdateInput := false } :=
      h.of_eq (h.delivered.of_eq rfl rfl rfl rfl) rfl rfl rfl hb hi
    exact hu.onDeferredInputUpdate io
  | controlError error =>
    obtain ⟨-, ⟨⟩⟩ := ite_none_left_eq_some.mp hst
    exact .inl (finished_abortControlError h.delivered.counts
      (fun _ => h.delivered.receivingMetadata) error)
  | outputEof =>
    obtain ⟨-, ⟨⟩⟩ := ite_none_right_eq_some.mp hst
    exact .inr (.inr (h.of_eq (h.delivered.of_eq rfl rfl rfl rfl) rfl rfl rfl hb hi))
  | outputError error =>
    obtain ⟨-, ⟨⟩⟩ := ite_none_right_eq_some.mp hst
    have hd : Delivered { s with requestBody := false } :=
      h.delivered.of_eq rfl rfl rfl rfl
    exact .inl (finished_abortResponse hd.counts error)
  | inputRead nbytes =>
    simp only [onEvent, he] at hst
    split at hst
    · cases hst
      exact h.onInputRead hi io nbytes
    · cases hst
  | inputError error =>
    simp only [onEvent, he] at hst
    split at hst
    · cases hst
      exact .inl (h.delivered.wasInputError.emit rfl)
    · cases hst
  | inputConsumed nbytes =>
    simp only [onEvent, he] at hst
    cases hst
    exact h.onInputConsumed hi io nbytes
  | inputClose =>
    simp only [onEvent, he] at hst
    cases hst
    exact .inl (h.onInputClose io i)

private theorem Continues.answered (h : s.Continues) : s.Answered := by
  rcases h with h | h | h
  · exact ⟨h.misuse, Nat.le_of_eq h.invocations, fun _ => h.invocations⟩
  · refine ⟨h.counts.misuse, ?_, fun hd => ?_⟩
    · rw [h.counts.invocations, h.receivingMetadata]
      exact Nat.zero_le 1
    · exact absurd (h.live.symm.trans hd) Bool.false_ne_true
  · refine ⟨h.delivered.misuse, Nat.le_of_eq h.delivered.invocations, fun _ => ?_⟩
    exact h.delivered.invocations

private theorem run_destroyed (h : s.destroyed = true) {e : List (Answers × Event)}
    (hru : s.run lib e = some s') : s' = s := by
  cases e with
  | nil => exact (some.inj hru).symm
  | cons event e =>
    rw [run, step, if_pos h] at hru
    cases hru

private theorem Continues.answered_iff (ev : List (Answers × Event)) :
    ∀ {s : WasClient}, s.Continues → s.run lib ev = some s' →
      (s'.Answered ↔ s.allSafe lib ev = true) := by
  induction ev with
  | nil =>
    intro s h hru
    cases hru
    exact ⟨fun _ => rfl, fun _ => h.answered⟩
  | cons event ev ih =>
    intro s h hru
    obtain ⟨io, e⟩ := event
    rw [run] at hru
    rw [allSafe]
    cases hst : s.step lib io e with
    | none =>
      rw [hst] at hru
      cases hru
    | some s1 =>
      rw [hst] at hru
      have hh : Handled (s.safe io e) s1 := by
        rcases h with h | h | h
        · rw [step, if_pos h.destroyed] at hst
          cases hst
        · exact h.handled hst
        · exact .of_continues (h.continues hst) (h.safe io e)
      cases hsa : s.safe io e with
      | true => exact ih (hh.well hsa) hru
      | false =>
        -- the client is destroyed, so that this was the last event
        obtain ⟨hd, hb⟩ := hh.badly hsa
        obtain rfl := run_destroyed hd hru
        exact ⟨fun han => absurd han hb, nofun⟩

/-- In every run, the response handler is invoked exactly once before the client is destroyed, and
the abort functions are called only when they may be called, if and only if every event is one that
is handled well. -/
theorem wasClient_answers_iff (requestBody responseBody metrics : Bool)
    {events : List (Answers × Event)}
    (hru : (start requestBody responseBody metrics).run lib events = some s) :
    s.Answered ↔ (start requestBody responseBody metrics).allSafe lib events = true := by
  refine Continues.answered_iff events (.inr (.inl ?_)) hru
  refine ⟨⟨rfl, rfl, fun hpe => ?_⟩, rfl, rfl, rfl, rfl, fun i hi => ?_, fun hpe => ?_,
    fun hc => ?_, fun hd => ?_, fun ht => ?_⟩
  · exact absurd hpe Bool.false_ne_true
  · cases responseBody with
    | true => exact (some.inj hi).symm
    | false => cases hi
  · exact absurd hpe Bool.false_ne_true
  · cases hc
  · exact absurd hd Bool.false_ne_true
  · exact absurd ht Bool.false_ne_true

/-- A library for examples: little endian integers, every name is valid, and every number is
finite. -/
def plainLib : WasLib where
  nameValid _ := true
  isWhitespace c := c ≤ 0x20
  commandCode _ := 0
  loadInteger payload := payload.foldr (fun c n => c.toNat + 256 * n) 0
  isFinite _ := true
  statusIsValid status := decide (100 ≤ status ∧ status < 600)
  statusIsEmpty status := status == 204

/-- A response with a length. -/
def lengthEvents : List (Answers × Event) :=
  [({ }, .packet .status [201, 0]), ({ }, .packet .header (ascii "a=b")), ({ }, .packet .data []),
    ({ }, .drained), ({ }, .packet .length [3, 0, 0, 0, 0, 0, 0, 0]), ({ }, .deferredUpdate),
    ({ }, .inputRead 3), ({ }, .inputConsumed 3)]

/-- A response with a length is received. -/
theorem wasClient_answers_length :
    ((start true true false).run plainLib lengthEvents).any (·.destroyed) = true ∧
      ∃ s, (start true true false).run plainLib lengthEvents = some s ∧ s.Answered := by
  have hso : ((start true true false).run plainLib lengthEvents).isSome = true := by decide
  obtain ⟨s, hru⟩ := isSome_iff_exists.mp hso
  exact ⟨by decide, s, hru, (wasClient_answers_iff true true false hru).mpr (by decide)⟩

/-- A second `DATA` packet, or a `NO_DATA` packet when the request body cannot be cancelled: the
client is destroyed without a call of the response handler. -/
theorem wasClient_never_answers :
    ((start false true false).run plainLib
        [({ }, .packet .data []), ({ }, .packet .data [])]).map
        (fun s => (s.misuse, s.destroyed, s.invocations)) = some (true, true, 0) ∧
      ((start true true false).run plainLib
        [({ sendPremature := false }, .packet .noData [])]).map
        (fun s => (s.destroyed, s.invocations)) = some (true, 0) := by
  decide

end WasClient

end BengProxy.Was
