import BengProxy.Base.Run
import BengProxy.Escape.RoundTrip
import BengProxy.Istream.Handler

/-!
# The escaping istream

Models `EscapeIstream`, `src/escape/Istream.cxx`. The input delivers its data in pieces of any size,
and presents what has not been consumed again; the handler accepts as much as it wants in each
call. What the handler has received, and what is still to be sent of an escape sequence, is always
the escaped string of what has been consumed.
-/

namespace BengProxy.Escape

open Base Text Istream List

/-- `EscapeIstream`, `Istream.cxx:15-61`, with its handler and whether the end of the
stream was reported. -/
structure EscapeIstream where
  escaped : Text := []
  hasInput : Bool := true
  handler : Handler
  eof : Bool := false

namespace EscapeIstream

section Model

variable (cls : EscapeClass) (s : EscapeIstream)

/-- `SendEscaped`, `Istream.cxx:63-82`. -/
def sendEscaped : EscapeIstream × Bool :=
  let (nbytes, handler) := s.handler.invokeData s.escaped
  let s := { s with handler }
  if nbytes = 0 then (s, false)
  else
    let s := { s with escaped := s.escaped.drop nbytes }
    if s.escaped ≠ [] then (s, false)
    else if !s.hasInput then ({ s with eof := true }, false)
    else (s, true)

/-- The portion before the control character, `Istream.cxx:115-125`: how much of it was
accepted; missing if the stream was destroyed. -/
def sendPlain (data : Text) : EscapeIstream × Option Nat :=
  if data = [] then (s, some 0)
  else
    let (nbytes, handler) := s.handler.invokeData data
    ({ s with handler }, if handler.destroyed then none else some nbytes)

/-- The loop of `OnData`, `Istream.cxx:102-142`. -/
def onDataLoop (s : EscapeIstream) (data : Text) (total : Nat) : EscapeIstream × Nat :=
  match cls.escapeFind data with
  | none =>
    match s.sendPlain data with
    | (s, none) => (s, 0)
    | (s, some nbytes) => (s, total + nbytes)
  | some n =>
    match s.sendPlain (data.take n) with
    | (s, none) => (s, 0)
    | (s, some nbytes) =>
      if nbytes < n then (s, total + nbytes)
      else
        match _h : data.drop n with
        | [] => (s, total + n)
        | control :: rest =>
          match { s with escaped := cls.escapeChar control }.sendEscaped with
          | (s, false) => (s, if s.handler.destroyed then 0 else total + n + 1)
          | (s, true) => if rest = [] then (s, total + n + 1) else onDataLoop s rest (total + n + 1)
termination_by data.length
decreasing_by
  have hle := congrArg List.length _h
  rw [length_drop, length_cons] at hle
  omega

/-- `OnData`, `Istream.cxx:89-145`. -/
def onData (src : Text) : EscapeIstream × Nat :=
  if s.escaped ≠ [] then
    match s.sendEscaped with
    | (s, false) => (s, 0)
    | (s, true) => s.onDataLoop cls src 0
  else s.onDataLoop cls src 0

/-- `OnEof`, `Istream.cxx:50-55`. -/
def onEof : EscapeIstream :=
  { s with hasInput := false, eof := s.escaped == [] }

end Model

/-- The parts of an escape class fit together: a class of special characters, each of which is
replaced by its escape sequence. -/
structure Lawful (cls : EscapeClass) (special : UInt8 → Bool) : Prop where
  find : ∀ p, cls.escapeFind p = p.findIdx? special
  nil : cls.escape [] = []
  cons : ∀ c p, cls.escape (c :: p) = (if special c then cls.escapeChar c else [c]) ++ cls.escape p
  char_ne_nil : ∀ c, special c = true → cls.escapeChar c ≠ []

theorem lawful_css : Lawful cssEscapeClass needSimpleEscape where
  find _ := rfl
  nil := rfl
  cons c p := by
    show cssEscape (c :: p) = (if needSimpleEscape c then cssEscapeChar c else [c]) ++ cssEscape p
    rw [cssEscape]
    split
    next h =>
      rw [needSimpleEscape, Bool.or_eq_true, Bool.or_eq_true, beq_iff_eq, beq_iff_eq,
        beq_iff_eq] at h
      rcases h with (rfl | rfl) | rfl
      all_goals rfl
    · rfl
  char_ne_nil c h := by
    rw [needSimpleEscape, Bool.or_eq_true, Bool.or_eq_true, beq_iff_eq, beq_iff_eq, beq_iff_eq] at h
    rcases h with (rfl | rfl) | rfl
    all_goals decide

theorem lawful_html (lib : Utf8Lib) : Lawful (htmlEscapeClass lib) isHtmlSpecial where
  find _ := rfl
  nil := rfl
  cons c p := by
    show htmlEscape (c :: p) = (if isHtmlSpecial c then htmlEscapeChar c else [c]) ++ htmlEscape p
    rw [htmlEscape]
    by_cases h : isHtmlSpecial c = true
    · rw [if_pos h]
      simp only [isHtmlSpecial, Bool.or_eq_true, beq_iff_eq] at h
      rcases h with (((rfl | rfl) | rfl) | rfl) | rfl
      all_goals rfl
    · rw [if_neg h]
      simp only [isHtmlSpecial, Bool.or_eq_true, beq_iff_eq, not_or] at h
      obtain ⟨⟨⟨⟨ham, hq⟩, hap⟩, hlt⟩, hg⟩ := h
      rw [if_neg ham, if_neg hq, if_neg hap, if_neg hlt, if_neg hg]
  char_ne_nil c h := by
    show htmlEscapeChar c ≠ []
    simp only [isHtmlSpecial, Bool.or_eq_true, beq_iff_eq] at h
    rcases h with (((rfl | rfl) | rfl) | rfl) | rfl
    all_goals decide

section Lawful

variable {cls : EscapeClass} {special : UInt8 → Bool}

/-- Escaping is done character by character. -/
theorem Lawful.append (h : Lawful cls special) (p q : Text) :
    cls.escape (p ++ q) = cls.escape p ++ cls.escape q := by
  induction p with
  | nil => rw [h.nil]; rfl
  | cons c p ih => rw [cons_append, h.cons, h.cons, ih, append_assoc]

private theorem Lawful.plain (h : Lawful cls special) {p : Text} (hp : ∀ c ∈ p, special c = false) :
    cls.escape p = p := by
  induction p with
  | nil => exact h.nil
  | cons c p ih =>
    obtain ⟨hc, hp'⟩ := forall_mem_cons.mp hp
    rw [h.cons, hc, ih hp']
    rfl

private theorem exists_of_findIdx {special : UInt8 → Bool} {p : Text} {n : Nat}
    (h : p.findIdx? special = some n) :
    ∃ before c after, p = before ++ c :: after ∧ before.length = n ∧ special c = true ∧
      ∀ x ∈ before, special x = false := by
  induction p generalizing n with
  | nil => cases h
  | cons c p ih =>
    rw [findIdx?_cons] at h
    split at h
    next hc =>
      cases h
      exact ⟨[], c, p, rfl, rfl, hc, forall_mem_nil _⟩
    next hc =>
      rw [Option.map_eq_some_iff] at h
      obtain ⟨m, hm, rfl⟩ := h
      obtain ⟨before, c', after, rfl, rfl, hc', hb⟩ := ih hm
      refine ⟨c :: before, c', after, rfl, rfl, hc', ?_⟩
      exact forall_mem_cons.mpr ⟨Bool.eq_false_iff.mpr hc, hb⟩

end Lawful

/-- The handler accepts something in each call. -/
def Accepting (h : Handler) : Prop := ∀ k, ∃ n, h.accept k = some (n + 1)

private theorem Accepting.continues {h h' : Handler} {out : List UInt8} (ha : Accepting h)
    (hc : h.Continues h' out) : Accepting h' := by
  rw [Accepting, hc.accept_eq]
  exact ha

private theorem invokeData_accepting {h : Handler} (ha : Accepting h) {src : List UInt8}
    (hsr : src ≠ []) :
    0 < (h.invokeData src).1 ∧ (h.invokeData src).2.destroyed = h.destroyed := by
  obtain ⟨n, hn⟩ := ha h.calls
  have hpo := length_pos_iff.mpr hsr
  rw [Handler.invokeData, hn]
  exact ⟨by simp only; omega, rfl⟩

/-- Something was sent to the handler, and nothing else was changed but the rest of the escape
sequence. -/
structure Sends (s s' : EscapeIstream) (out : Text) : Prop where
  continues : s.handler.Continues s'.handler out
  hasInput_eq : s'.hasInput = s.hasInput

private theorem Sends.trans {s s' s'' : EscapeIstream} {xs ys : Text} (hx : Sends s s' xs)
    (hy : Sends s' s'' ys) : Sends s s'' (xs ++ ys) :=
  ⟨hx.continues.trans hy.continues, hy.hasInput_eq.trans hx.hasInput_eq⟩

private theorem sendPlain_spec {s : EscapeIstream} (hd : s.handler.destroyed = false)
    (data : Text) :
    ∃ s' n, s.sendPlain data = (s', if s'.handler.destroyed then none else some n) ∧
      n ≤ data.length ∧ Sends s s' (data.take n) ∧ s'.escaped = s.escaped ∧ s'.eof = s.eof ∧
      (s'.handler.destroyed = true → n = 0) ∧
      (Accepting s.handler → s'.handler.destroyed = false ∧ (data ≠ [] → 0 < n)) := by
  rw [sendPlain]
  by_cases hni : data = []
  · rw [if_pos hni]
    refine ⟨s, 0, by rw [hd]; rfl, Nat.zero_le _, ⟨.refl _, rfl⟩, rfl, rfl, fun _ => rfl,
      fun _ => ?_⟩
    exact ⟨hd, fun hne => absurd hni hne⟩
  rw [if_neg hni]
  obtain ⟨n, h', hi, hle, hc, -, hde⟩ := s.handler.invokeData_spec data
  rw [hi]
  refine ⟨{ s with handler := h' }, n, rfl, hle, ⟨hc, rfl⟩, rfl, rfl, hde hd, fun ha => ?_⟩
  have hac := invokeData_accepting ha hni
  rw [hi, hd] at hac
  exact ⟨hac.2, fun _ => hac.1⟩

theorem sendEscaped_spec {s : EscapeIstream} (hd : s.handler.destroyed = false)
    (hne : s.escaped ≠ []) :
    ∃ s' ok n, s.sendEscaped = (s', ok) ∧ Sends s s' (s.escaped.take n) ∧
      s'.escaped = s.escaped.drop n ∧
      (ok = true → s'.escaped = [] ∧ s'.handler.destroyed = false ∧ s'.hasInput = true) ∧
      (s.hasInput = true → s'.eof = s.eof) ∧
      (s.hasInput = false → s.eof = false → (s'.eof = true ↔ s'.escaped = [])) ∧
      (s'.handler.destroyed = true → s'.eof = s.eof) ∧
      (Accepting s.handler → s'.handler.destroyed = false ∧ s.escaped.take n ≠ []) := by
  obtain ⟨n, h', hi, hle, hc, -, hde⟩ := s.handler.invokeData_spec s.escaped
  have hac : Accepting s.handler → h'.destroyed = false ∧ s.escaped.take n ≠ [] := by
    intro ha
    have hac := invokeData_accepting ha hne
    rw [hi, hd] at hac
    refine ⟨hac.2, fun hni => ?_⟩
    have hl := congrArg List.length hni
    rw [length_take, length_nil] at hl
    omega
  rw [sendEscaped, hi]
  simp only
  by_cases hz : n = 0
  · -- nothing was accepted, or the stream is gone
    rw [if_pos hz]
    refine ⟨_, false, 0, rfl, ⟨?_, rfl⟩, rfl, nofun, fun _ => rfl, fun _ he => ?_, fun _ => rfl, ?_⟩
    · rw [hz] at hc
      exact hc
    · constructor
      · exact fun he' => absurd (he.symm.trans he') Bool.false_ne_true
      · exact fun hni => absurd hni hne
    · rw [hz] at hac
      exact hac
  have hn : h'.destroyed = false := Bool.eq_false_iff.mpr fun hd' => hz (hde hd hd')
  rw [if_neg hz]
  by_cases hr : s.escaped.drop n = []
  · rw [if_neg (not_not.mpr hr)]
    cases hin : s.hasInput with
    | true =>
      refine ⟨_, true, n, rfl, ⟨hc, hin.symm⟩, rfl,
        fun _ => ⟨hr, hn, rfl⟩, fun _ => rfl, nofun, fun _ => rfl, hac⟩
    | false =>
      refine ⟨_, false, n, rfl, ⟨hc, hin.symm⟩, rfl, nofun, nofun,
        fun _ _ => ⟨fun _ => hr, fun _ => rfl⟩, fun hd' => ?_, hac⟩
      rw [hn] at hd'
      cases hd'
  · rw [if_pos hr]
    refine ⟨_, false, n, rfl, ⟨hc, rfl⟩, rfl, nofun, fun _ => rfl, fun _ he => ?_, fun _ => rfl,
      hac⟩
    constructor
    · exact fun he' => absurd (he.symm.trans he') Bool.false_ne_true
    · exact fun hni => absurd hni hr

section OnData

variable {cls : EscapeClass} {special : UInt8 → Bool}

/-- What a part of `OnData` has done: some bytes of the data are consumed, and they are sent but for
the rest of an escape sequence. -/
structure Forwards (cls : EscapeClass) (s s' : EscapeIstream) (data : Text) (k : Nat) (out : Text) :
    Prop where
  le : k ≤ data.length
  sends : Sends s s' out
  eof_eq : s'.eof = s.eof
  output : out ++ s'.escaped = cls.escape (data.take k)
  progress : Accepting s.handler → s'.handler.destroyed = false ∧ out ≠ []

private theorem take_ne_nil {p : Text} {n : Nat} (hp : p ≠ []) (hn : 0 < n) : p.take n ≠ [] := by
  rw [ne_eq, take_eq_nil_iff, not_or]
  exact ⟨Nat.ne_of_gt hn, hp⟩

private theorem onDataLoop_spec (h : Lawful cls special) (data : Text) (hne : data ≠ [])
    {s : EscapeIstream} (hs : s.escaped = []) (hi : s.hasInput = true)
    (hd : s.handler.destroyed = false) (t : Nat) :
    ∃ s' k out, s.onDataLoop cls data t =
        (s', if s'.handler.destroyed then 0 else t + k) ∧ Forwards cls s s' data k out := by
  rw [onDataLoop]
  cases hfi : cls.escapeFind data with
  | none =>
    -- no special character
    have hpl : ∀ c ∈ data, special c = false := by
      rw [h.find, findIdx?_eq_none_iff] at hfi
      exact hfi
    obtain ⟨s', n, hsn, hle, hse, hes, he, hz, hpr⟩ := sendPlain_spec hd data
    refine ⟨s', n, data.take n, ?_, hle, hse, he, ?_, fun ha => ?_⟩
    · rw [hsn]
      cases hde : s'.handler.destroyed with
      | true | false => rfl
    · rw [hes, hs, append_nil, h.plain fun c hc => hpl c (mem_of_mem_take hc)]
    · obtain ⟨hnt, hpo⟩ := hpr ha
      exact ⟨hnt, take_ne_nil hne (hpo hne)⟩
  | some n =>
    rw [h.find] at hfi
    obtain ⟨before, c, after, rfl, rfl, hc, hb⟩ := exists_of_findIdx hfi
    have hpl : ∀ m, cls.escape (before.take m) = before.take m :=
      fun m => h.plain fun x hx => hb x (mem_of_mem_take hx)
    obtain ⟨s1, n, hsn, hle, hse, hes, he, hz, hpr⟩ := sendPlain_spec hd before
    have ht : ∀ m ≤ before.length, (before ++ c :: after).take m = before.take m :=
      fun m hm => take_append_of_le_length hm
    simp only [take_left, hsn]
    cases hde : s1.handler.destroyed with
    | true =>
      -- the stream was closed while the portion before the control character was sent
      have hn := hz hde
      refine ⟨s1, 0, [], by rw [hde]; rfl, Nat.zero_le _, ?_, he, ?_, fun ha => ?_⟩
      · rw [hn] at hse
        exact hse
      · rw [hes, hs, take_zero, h.nil]
        rfl
      · rw [hde] at hpr
        exact absurd (hpr ha).1.symm Bool.false_ne_true
    | false =>
      simp only [Bool.false_eq_true, if_false]
      by_cases hlt : n < before.length
      · -- it is not accepted as a whole
        rw [if_pos hlt]
        refine ⟨s1, n, before.take n, by rw [hde]; rfl, ?_, hse, he, ?_, fun ha => ?_⟩
        · rw [length_append]
          omega
        · rw [hes, hs, append_nil, ht n hle, hpl]
        · have hb' : before ≠ [] := length_pos_iff.mp (Nat.zero_lt_of_lt hlt)
          exact ⟨hde, take_ne_nil hb' ((hpr ha).2 hb')⟩
      rw [if_neg hlt]
      have hal : before.take n = before := take_of_length_le (Nat.le_of_not_lt hlt)
      rw [hal] at hse
      split
      next heq => rw [drop_left] at heq; cases heq
      next control rest heq =>
        rw [drop_left] at heq
        cases heq
        obtain ⟨s2, ok, m, hec, hs2, he2, hok, heo2, -, -, hp2⟩ :=
          sendEscaped_spec (s := { s1 with escaped := cls.escapeChar c }) hde
            (h.char_ne_nil c hc)
        have hinput1 : s1.hasInput = true := hse.hasInput_eq.trans hi
        have he2' : s2.eof = s.eof := (heo2 hinput1).trans he
        have hs' : Sends s s2 (before ++ (cls.escapeChar c).take m) :=
          hse.trans ⟨hs2.continues, hs2.hasInput_eq⟩
        have hac : Accepting s.handler → s2.handler.destroyed = false ∧
            before ++ (cls.escapeChar c).take m ≠ [] := by
          intro ha
          obtain ⟨hnt, hne'⟩ := hp2 (ha.continues hse.continues)
          exact ⟨hnt, append_ne_nil_of_right_ne_nil before hne'⟩
        have hco : (before ++ c :: after).take (before.length + 1) = before ++ [c] := by
          rw [take_append]
          simp
        have ho : before ++ (cls.escapeChar c).take m ++ s2.escaped =
            cls.escape ((before ++ c :: after).take (before.length + 1)) := by
          rw [he2, append_assoc, take_append_drop, hco, h.append,
            h.plain hb, h.cons, hc, h.nil, append_nil]
          rfl
        have hl : before.length + 1 ≤ (before ++ c :: after).length := by
          rw [length_append, length_cons]
          omega
        rw [hec]
        cases ok with
        | false => exact ⟨s2, before.length + 1, _, rfl, hl, hs', he2', ho, hac⟩
        | true =>
          obtain ⟨hn2, hno2, hinput2⟩ := hok rfl
          simp only
          by_cases haf : after = []
          · rw [if_pos haf]
            exact ⟨s2, before.length + 1, _, by rw [hno2]; rfl, hl, hs', he2', ho, hac⟩
          -- go on after the control character
          rw [if_neg haf]
          obtain ⟨s3, k, out, hlo, hfo⟩ := onDataLoop_spec h after haf hn2 hinput2
            hno2 (t + before.length + 1)
          refine ⟨s3, before.length + 1 + k, before ++ (cls.escapeChar c).take m ++ out, ?_, ?_,
            hs'.trans hfo.sends, hfo.eof_eq.trans he2', ?_, fun ha => ?_⟩
          · rw [hlo]
            simp only [add_assoc]
          · have hl' := hfo.le
            rw [length_append, length_cons]
            omega
          · rw [hn2, append_nil] at ho
            have hc' : (before ++ c :: after).take (before.length + 1 + k) =
                (before ++ c :: after).take (before.length + 1) ++ after.take k := by
              have hdr : (before ++ c :: after).drop (before.length + 1) = after := by
                rw [← drop_drop, drop_left]
                rfl
              rw [take_add, hdr]
            rw [append_assoc, hfo.output, ho, hc', h.append]
          · obtain ⟨hnt, hne'⟩ := hac ha
            refine ⟨(hfo.progress (ha.continues hs'.continues)).1, ?_⟩
            exact append_ne_nil_of_left_ne_nil hne' out
termination_by data.length

theorem onData_spec (h : Lawful cls special) {data : Text} (hne : data ≠ [])
    {s : EscapeIstream} (hi : s.hasInput = true) (hd : s.handler.destroyed = false) :
    ∃ s' k out, s.onData cls data = (s', if s'.handler.destroyed then 0 else k) ∧
      k ≤ data.length ∧ Sends s s' out ∧ s'.eof = s.eof ∧
      out ++ s'.escaped = s.escaped ++ cls.escape (data.take k) ∧
      (Accepting s.handler → s'.handler.destroyed = false ∧ out ≠ []) := by
  have hlo : ∀ {s : EscapeIstream}, s.escaped = [] → s.hasInput = true →
      s.handler.destroyed = false → ∃ s' k out,
        s.onDataLoop cls data 0 = (s', if s'.handler.destroyed then 0 else k) ∧
        Forwards cls s s' data k out := by
    intro s hs hi hd
    obtain ⟨s', k, out, hru, hfo⟩ := onDataLoop_spec h data hne hs hi hd 0
    rw [zero_add] at hru
    exact ⟨s', k, out, hru, hfo⟩
  rw [onData]
  by_cases hni : s.escaped = []
  · rw [if_neg (not_not.mpr hni)]
    obtain ⟨s', k, out, hru, hfo⟩ := hlo hni hi hd
    refine ⟨s', k, out, hru, hfo.le, hfo.sends, hfo.eof_eq, ?_, hfo.progress⟩
    rw [hni]
    exact hfo.output
  rw [if_pos hni]
  obtain ⟨s1, ok, m, hes, hse, he, ho, heo, -, -, hpr⟩ := sendEscaped_spec hd hni
  rw [hes]
  cases ok with
  | false =>
    refine ⟨s1, 0, s.escaped.take m, ?_, Nat.zero_le _, hse, heo hi, ?_, hpr⟩
    · rw [ite_self]
    · rw [he, take_append_drop, take_zero, h.nil, append_nil]
  | true =>
    obtain ⟨hn1, hno1, hinput1⟩ := ho rfl
    obtain ⟨s', k, out, hru, hfo⟩ := hlo hn1 hinput1 hno1
    refine ⟨s', k, s.escaped.take m ++ out, hru, hfo.le, hse.trans hfo.sends,
      hfo.eof_eq.trans (heo hi), ?_, fun ha => ?_⟩
    · have hal : s.escaped.take m = s.escaped := by
        rw [he] at hn1
        have hap := take_append_drop m s.escaped
        rw [hn1, append_nil] at hap
        exact hap
      rw [hal, append_assoc, hfo.output]
    · have hne' := (hpr ha).2
      refine ⟨(hfo.progress (ha.continues hse.continues)).1, ?_⟩
      exact append_ne_nil_of_left_ne_nil hne' out

end OnData

end EscapeIstream

end BengProxy.Escape
