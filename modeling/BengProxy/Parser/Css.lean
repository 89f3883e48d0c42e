import BengProxy.Base.Text
import Mathlib.Logic.Relation

/-!
# The parser for style sheets

The control flow of `CssParser::Feed`, `src/parser/CssParser.cxx`, and that it comes to an end. The
inner loops of the source only save the way through the `switch`: here each byte goes through it,
and where the source leaves a state without consuming the byte, the turn leaves it in front of the
rest. What is passed to the handler is left out, because nothing in the loop depends on it: the
positions and the text of a URL.
-/

namespace BengProxy.Css

open Base Text

/-- `is_css_nmstart`, `src/parser/CssSyntax.hxx:19-24`. -/
def isCssNmstart (ch : UInt8) : Bool := ch == 0x5f || isAlphaASCII ch || 0x80 ≤ ch || ch == 0x5c

/-- `is_css_nmchar`, `src/parser/CssSyntax.hxx:26-30`, and `is_css_ident_char`. -/
def isCssNmchar (ch : UInt8) : Bool := isCssNmstart ch || isDigitASCII ch || ch == 0x2d

/-- `is_css_ident_start`, `src/parser/CssSyntax.hxx:32-36`. -/
def isCssIdentStart (ch : UInt8) : Bool := ch == 0x2d || isCssNmstart ch

/-- Either quotation mark begins a quoted text. -/
def isQuote (ch : UInt8) : Bool := ch == 0x27 || ch == 0x22

/-- `at_url_start`, `CssParser.cxx:15-23`. -/
def atUrlStart (p : Text) : Bool :=
  4 ≤ p.length && p.drop (p.length - 4) == ascii "url(" &&
    -- just url(), or url() after another token
    (p.length == 4 || (p[p.length - 5]?).any isWhitespaceOrNull)

/-- `CssParser::State`, `src/parser/CssParser.hxx:92-111`. -/
inductive State where
  | none
  | block
  | className
  | xmlId
  | discardQuoted
  | property
  | postProperty
  | preValue
  | value
  | preUrl
  | url
  | atName
  | preImport
  | importUrl
  deriving DecidableEq, Repr

/-- The methods of the handler that are set, `src/parser/CssParser.hxx:19-50`. -/
structure CssParserHandler where
  className : Bool := false
  xmlId : Bool := false
  propertyKeyword : Bool := false
  url : Bool := false
  importUrl : Bool := false
  deriving DecidableEq, Repr

/-- `CssParser`, `src/parser/CssParser.hxx:55-122`, with the state of the constructor. -/
structure CssParser where
  /-- the input consists of only one block -/
  block : Bool
  handler : CssParserHandler
  state : State := if block then .block else .none
  quote : UInt8 := 0
  nameBuffer : Text := []
  valueBuffer : Text := []
  deriving DecidableEq, Repr

/-- The capacity of the buffers for names and values, `src/parser/CssParser.hxx:116-118`. -/
def nameCapacity : Nat := 64

namespace CssParser

variable (p : CssParser) (ch : UInt8)

/-- A name is collected as long as a byte remains free for the terminator. -/
def pushName : CssParser :=
  if p.nameBuffer.length < nameCapacity - 1 then { p with nameBuffer := p.nameBuffer ++ [ch] }
  else p

/-- The end of a block is ignored if the input is only one block. -/
def endBlock : CssParser := if p.block then p else { p with state := .none }

/-- A byte in `State::NONE`, `CssParser.cxx:35-76`. -/
def feedNone : CssParser :=
  if ch = 0x7b then { p with state := .block }
  else if ch = 0x2e && p.handler.className then { p with state := .className, nameBuffer := [] }
  else if ch = 0x23 && p.handler.xmlId then { p with state := .xmlId, nameBuffer := [] }
  else if ch = 0x40 && p.handler.importUrl then { p with state := .atName, nameBuffer := [] }
  else p

/-- A byte in `State::BLOCK`, `CssParser.cxx:128-163`. -/
def feedBlock : CssParser :=
  if ch = 0x7d then p.endBlock
  else if ch = 0x3a then { p with state := .preValue, nameBuffer := [] }
  else if isQuote ch then { p with state := .discardQuoted, quote := ch }
  else if isCssIdentStart ch && p.handler.propertyKeyword then
    { p with state := .property, nameBuffer := [ch] }
  else p

/-- A byte in `State::POST_PROPERTY`, `CssParser.cxx:192-217`. -/
def feedPostProperty : CssParser :=
  if ch = 0x7d then p.endBlock
  else if ch = 0x3a then { p with state := .preValue }
  else if isQuote ch then { p with state := .discardQuoted, quote := ch }
  else p

/-- A byte in `State::VALUE`, `CssParser.cxx:245-291`. -/
def feedValue : CssParser :=
  if ch = 0x7d then p.endBlock
  else if ch = 0x3b then
    let nameBuffer := if p.nameBuffer.isEmpty then [] else p.nameBuffer ++ [0]
    { p with state := .block, nameBuffer }
  else if isQuote ch then { p with state := .discardQuoted, quote := ch }
  else if p.valueBuffer.length ≥ nameCapacity - 1 then p
  else
    let valueBuffer := p.valueBuffer ++ [ch]
    if p.handler.url && atUrlStart valueBuffer then { p with valueBuffer, state := .preUrl }
    else { p with valueBuffer }

/-- The states that search for a quotation mark, `CssParser.cxx:165-175`, `321-350` and
`388-417`: without one, the whole rest is consumed; missing if the handler destroys the parser. -/
def quoted (quote : UInt8) (next : State) (destroys : Bool) (rest : Text) :
    Option (CssParser × Text) :=
  match cut quote rest with
  | none => some (p, [])
  | some (_, rest) => if destroys then none else some ({ p with state := next }, rest)

/-- One turn of the loop, `CssParser.cxx:33-419`: the parser and the rest of the buffer
afterwards; missing if the handler has destroyed the parser. -/
def turn (destroys : Bool) (tail : Text) : Option (CssParser × Text) :=
  match p.state with
  | .none => some (p.feedNone ch, tail)
  | .className | .xmlId =>
    if isCssNmchar ch then some (p.pushName ch, tail)
    else some ({ p with state := .none }, ch :: tail)
  | .block => some (p.feedBlock ch, tail)
  | .discardQuoted => p.quoted p.quote .block false (ch :: tail)
  | .property =>
    if isCssNmchar ch then some (p.pushName ch, tail)
    else some ({ p with state := .postProperty }, ch :: tail)
  | .postProperty => some (p.feedPostProperty ch, tail)
  | .preValue =>
    if isWhitespaceOrNull ch then some (p, tail)
    else if ch = 0x7d then
      -- the byte is consumed only if the state changes
      if p.block then some (p, ch :: tail) else some ({ p with state := .none }, tail)
    else if ch = 0x3b then some ({ p with state := .block }, tail)
    else some ({ p with state := .value, valueBuffer := [] }, ch :: tail)
  | .value => some (p.feedValue ch, tail)
  | .preUrl =>
    if isWhitespaceOrNull ch then some (p, tail)
    else if ch = 0x7d then
      if p.block then some (p, ch :: tail) else some ({ p with state := .none }, tail)
    else if isQuote ch then some ({ p with state := .url, quote := ch }, tail)
    else some ({ p with state := .block }, ch :: tail)
  | .url => p.quoted p.quote .block destroys (ch :: tail)
  | .atName =>
    if isCssNmchar ch then some (p.pushName ch, tail)
    else
      let state := if p.nameBuffer = ascii "import" then .preImport else .none
      some ({ p with state }, ch :: tail)
  | .preImport =>
    if isWhitespaceOrNull ch then some (p, tail)
    else if ch = 0x22 then some ({ p with state := .importUrl }, tail)
    else some ({ p with state := .none }, ch :: tail)
  | .importUrl => p.quoted 0x22 .none destroys (ch :: tail)

/-- The end of a block in a parser for only one block, in front of a value or a URL. -/
def stuck : Bool := p.block && ch == 0x7d && (p.state == .preValue || p.state == .preUrl)

end CssParser

/-- `CssParser::Feed`, `CssParser.cxx:25-423`: the parser when the whole buffer has been
consumed, or nothing if it has been destroyed; missing if the turns do not suffice. Whether a method
of the handler destroys the parser depends on where it is called. -/
def feedLoop (destroys : Nat → Bool) : Nat → CssParser → Text → Option (Option CssParser)
  | _, p, [] => some (some p)
  | 0, _, _ :: _ => none
  | turns + 1, p, ch :: tail =>
    match p.turn ch (destroys tail.length) tail with
    | none => some none
    | some (p, rest) => feedLoop destroys turns p rest

/-- One turn as a relation. -/
def Step (destroys : Nat → Bool) (c c' : CssParser × Text) : Prop :=
  ∃ ch tail, c.2 = ch :: tail ∧ c.1.turn ch (destroys tail.length) tail = some c'

/-- How many turns may leave a state without consuming a byte. -/
def State.rank : State → Nat
  | .atName => 2
  | .className | .xmlId | .property | .preValue | .preUrl | .preImport => 1
  | _ => 0

private theorem State.rank_le (s : State) : s.rank ≤ 2 := by cases s <;> decide

variable {p p' : CssParser} {ch : UInt8} {destroys : Nat → Bool} {rest tail : Text}

private theorem length_of_quoted {q : UInt8} {next : State} {d : Bool}
    (h : p.quoted q next d (ch :: tail) = some (p', rest)) :
    rest.length ≤ tail.length := by
  unfold CssParser.quoted at h
  split at h
  · cases h
    exact Nat.zero_le _
  next hc =>
  have hle := length_of_cut hc
  rw [List.length_cons] at hle
  split at h <;> cases h
  omega

private theorem turn_progress {d : Bool} (hst : p.stuck ch = false)
    (h : p.turn ch d tail = some (p', rest)) :
    3 * rest.length + p'.state.rank < 3 * (tail.length + 1) + p.state.rank := by
  -- a turn that consumes a byte may move to any state
  have hle := p'.state.rank_le
  unfold CssParser.turn at h
  split at h
  case h_5 | h_11 | h_14 =>
    have hl := length_of_quoted h
    omega
  case h_8 hs | h_10 hs =>
    simp only [CssParser.stuck] at hst
    grind [State.rank]
  all_goals grind [State.rank]

private theorem turn_stuck {d : Bool} (hst : p.stuck ch = true) :
    p.turn ch d tail = some (p, ch :: tail) := by
  simp only [CssParser.stuck, Bool.and_eq_true, beq_iff_eq, Bool.or_eq_true] at hst
  obtain ⟨⟨hb, rfl⟩, hs | hs⟩ := hst
  all_goals
    rw [CssParser.turn, hs]
    simp only [hb]
    rfl

private theorem feedLoop_stuck (hst : p.stuck ch = true) (t : Nat) :
    feedLoop destroys t p (ch :: tail) = none := by
  induction t with
  | zero => rfl
  | succ t ih => rw [feedLoop, turn_stuck hst]; exact ih

private theorem feedLoop_eq_none {c c' : CssParser × Text}
    (hre : Relation.ReflTransGen (Step destroys) c c')
    (hn : ∀ t, feedLoop destroys t c'.1 c'.2 = none) (t : Nat) :
    feedLoop destroys t c.1 c.2 = none := by
  induction hre using Relation.ReflTransGen.head_induction_on generalizing t with
  | refl => exact hn t
  | head hst _ ih =>
    obtain ⟨ch, tail, hd, ht⟩ := hst
    rw [hd]
    cases t with
    | zero => rfl
    | succ t => rw [feedLoop, ht]; exact ih t

private theorem exists_feedLoop (p : CssParser) (data : Text)
    (h : ∀ q ch tail, Relation.ReflTransGen (Step destroys) (p, data) (q, ch :: tail) →
      q.stuck ch = false) :
    ∃ turns result, feedLoop destroys turns p data = some result := by
  match data with
  | [] => exact ⟨0, some p, rfl⟩
  | ch :: tail =>
    cases ht : p.turn ch (destroys tail.length) tail with
    | none => exact ⟨1, none, by rw [feedLoop, ht]⟩
    | some next =>
      have hst : Step destroys (p, ch :: tail) next := ⟨ch, tail, rfl, ht⟩
      have hpr := turn_progress (h p ch tail .refl) ht
      obtain ⟨turns, result, hlo⟩ := exists_feedLoop next.1 next.2
        fun q c t hre => h q c t (.head hst hre)
      exact ⟨turns + 1, result, by rw [feedLoop, ht]; exact hlo⟩
termination_by 3 * data.length + p.state.rank

/-- Feeding a buffer comes to an end, with all of it consumed or the parser destroyed, exactly if it
never meets the end of a block in front of a value or a URL in a parser for only one block. -/
theorem feed_returns_iff (destroys : Nat → Bool) (p : CssParser) (data : Text) :
    (∃ turns result, feedLoop destroys turns p data = some result) ↔
      ∀ q ch tail, Relation.ReflTransGen (Step destroys) (p, data) (q, ch :: tail) →
        q.stuck ch = false := by
  constructor
  · rintro ⟨turns, result, hlo⟩ q ch tail hre
    by_contra hst
    have hnon := feedLoop_eq_none hre
      (feedLoop_stuck ((Bool.not_eq_false _).mp hst)) turns
    rw [hlo] at hnon
    cases hnon
  · exact exists_feedLoop p data

/-- Feeding a block of a colon and the end of the block never returns. -/
theorem feed_block_never_returns :
    ¬ ∃ turns result, feedLoop (fun _ => false) turns
      { block := true, handler := { url := true } } [0x3a, 0x7d] = some result := by
  rintro ⟨turns, result, hlo⟩
  cases turns with
  | zero => cases hlo
  | succ turns => exact Option.some_ne_none _ (hlo.symm.trans (feedLoop_stuck rfl turns))

end BengProxy.Css
