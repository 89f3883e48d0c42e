import BengProxy.Base.Lines
import BengProxy.Http.ServerRead

/-!
# Requests that arrive in pieces

The result of reading the headers of a request does not depend on the pieces in which they arrive,
unless the request line is a method and nothing but white space: then the parser goes on behind the
line.
-/

namespace BengProxy.Http.Server

open Base Text Request Lines List Prod Receiver ReadState

private theorem isPrefixOf_append_cons {c : UInt8} {w l : Text} (h : c ∉ w) (x : Text) :
    w.isPrefixOf (l ++ c :: x) = w.isPrefixOf l := by
  rw [Bool.eq_iff_iff, isPrefixOf_iff_prefix, isPrefixOf_iff_prefix]
  exact prefix_append_cons_iff h

private theorem lf_not_mem_methodTexts : ∀ p ∈ methodTexts, 0x0a ∉ p.1 := by decide

private theorem parseHttpMethod_line (line x : Text) :
    parseHttpMethod (line ++ 0x0a :: x) = parseHttpMethod line := by
  unfold parseHttpMethod
  congr 1
  have hsa : ∀ texts : List (Text × HttpMethod), (∀ p ∈ texts, 0x0a ∉ p.1) →
      texts.find? (fun p => p.1.isPrefixOf (line ++ 0x0a :: x)) =
        texts.find? (fun p => p.1.isPrefixOf line) := by
    intro texts ht
    induction texts with
    | nil => rfl
    | cons p texts ih =>
      obtain ⟨hp, ht⟩ := forall_mem_cons.mp ht
      rw [find?_cons, find?_cons, isPrefixOf_append_cons hp, ih ht]
  exact hsa methodTexts lf_not_mem_methodTexts

theorem length_of_parseHttpMethod {line : Text} {method : HttpMethod} {n : Nat}
    (h : parseHttpMethod line = some (method, n)) : n ≤ line.length := by
  obtain ⟨p, hfi, he⟩ := Option.map_eq_some_iff.mp h
  cases he
  have hpr : p.1.isPrefixOf line = true :=
    @find?_some _ (fun p : Text × HttpMethod => p.1.isPrefixOf line) p methodTexts hfi
  exact (List.isPrefixOf_iff_prefix.mp hpr).length_le

private theorem parseUri_line {s : Request} {m : HttpMethod} {l : Text} (hs : 0x20 ∈ l)
    (x : Text) :
    s.parseUri m (l ++ 0x0a :: x) true = s.parseUri m (l ++ [0x0a]) true := by
  obtain ⟨uri, version, rfl, hu⟩ := eq_append_cons_of_mem hs
  have hsp : ∀ y : Text, splitWhile (uri ++ 0x20 :: version ++ y) (· ≠ 0x20) =
      (uri, 0x20 :: (version ++ y)) := by
    intro y
    have hal : ∀ c ∈ uri, decide (c ≠ 0x20) = true := by
      intro c hc
      rw [decide_eq_true_eq]
      rintro rfl
      exact hu hc
    rw [splitWhile, append_assoc, cons_append, takeWhile_append_of_pos hal,
      dropWhile_append_of_pos hal, takeWhile_cons_of_neg (by decide),
      dropWhile_cons_of_neg (by decide), append_nil]
  have hsh : ∀ y : Text, (version ++ 0x0a :: y).isPrefixOf (ascii "HTTP/") = false := by
    intro y
    rw [Bool.eq_false_iff, ne_eq, isPrefixOf_iff_prefix]
    intro hpr
    have hme : (0x0a : UInt8) ∈ ascii "HTTP/" := hpr.subset (mem_append_right version mem_cons_self)
    revert hme
    decide
  have hv : ∀ y : Text, (ascii "HTTP/").isPrefixOf (version ++ 0x0a :: y) =
      (ascii "HTTP/").isPrefixOf version := fun y => isPrefixOf_append_cons (by decide) y
  unfold parseUri
  rw [hsp, hsp]
  simp only [hsh, hv, Bool.false_eq_true, and_false]

section

variable (lib : ServerLib)

/-- The line is a method and white space, and no space after the first one. -/
def bareMethod (line : Text) : Bool :=
  let size := (stripRight lib.toHeaderLineLib line).length
  decide (5 ≤ size) &&
    (parseHttpMethod line).any fun p => decide (size < p.2) && !(line.drop p.2).contains 0x20

/-- A request that begins with such a line. -/
def BareMethod (stream : Text) : Prop :=
  ∃ line rest, cut 0x0a stream = some (line, rest) ∧ bareMethod lib line = true

/-- What is done with a line, if nothing is behind it. -/
def handle (s : Request) (line : Text) : Except Rejection Request :=
  s.handleLine lib (stripRight lib.toHeaderLineLib line) (line ++ [0x0a])

variable {lib} {line : Text}

private theorem handleLine_line {s : Request}
    (h : s.readState = .start → bareMethod lib line = false) (x : Text) :
    s.handleLine lib (stripRight lib.toHeaderLineLib line) (line ++ 0x0a :: x) =
      handle lib s line := by
  unfold handle handleLine
  by_cases hst : s.readState = .start
  · rw [if_pos hst, if_pos hst]
    have hb := h hst
    unfold bareMethod at hb
    unfold parseRequestLine
    rw [parseHttpMethod_line, parseHttpMethod_line]
    by_cases hs : (stripRight lib.toHeaderLineLib line).length < 5
    · rw [if_pos hs, if_pos hs]
    rw [if_neg hs, if_neg hs]
    cases hme : parseHttpMethod line with
    | none => rfl
    | some p =>
      obtain ⟨method, n⟩ := p
      simp only
      by_cases hn : n ≤ (stripRight lib.toHeaderLineLib line).length
      · rw [if_pos hn, if_pos hn]
      rw [if_neg hn, if_neg hn]
      -- the length has fallen below zero
      have hsp : 0x20 ∈ line.drop n := by
        rw [hme] at hb
        by_contra hno
        have hno' : (line.drop n).contains 0x20 = false := by
          rw [Bool.eq_false_iff, ne_eq, contains_iff_mem]
          exact hno
        simp only [Option.any_some, hno', Bool.not_false] at hb
        rw [decide_eq_true (by omega), decide_eq_true (by omega)] at hb
        cases hb
      have hle := length_of_parseHttpMethod hme
      rw [drop_append_of_le_length hle, drop_append_of_le_length hle]
      exact parseUri_line hsp x
  · rw [if_neg hst, if_neg hst]

theorem readState_of_parseRequestLine {s s' : Request} {memory : Text}
    (h : s.parseRequestLine line memory = .ok s') : s'.readState = .headers := by
  have hu : ∀ {method : HttpMethod} {l : Text} {unbounded : Bool},
      s.parseUri method l unbounded = .ok s' → s'.readState = .headers := by
    intro method l unbounded h
    unfold parseUri at h
    split at h
    · cases h
    split at h
    · cases h
    · split at h
      · cases h
      · split at h <;> cases h <;> rfl
  unfold parseRequestLine at h
  split at h
  · cases h
  · split at h
    · cases h
    · split at h <;> exact hu h

theorem readState_headerLine (s : Request) (line : Text) :
    (s.headerLine lib line).readState = s.readState := by
  unfold headerLine
  split
  · rfl
  · split <;> rfl

theorem reading_of_headersFinished {s s' : Request} (h : s.headersFinished lib = .ok s') :
    s'.reading = false := by
  unfold headersFinished at h
  simp only at h
  split at h <;> cases h <;> rfl

private theorem handle_cases {s s' : Request} (h : handle lib s line = .ok s') :
    s.readState = .start ∧ s'.readState = .headers ∨
      s.readState ≠ .start ∧ stripRight lib.toHeaderLineLib line ≠ [] ∧ s'.readState = s.readState ∨
      s.readState ≠ .start ∧ stripRight lib.toHeaderLineLib line = [] ∧ s'.reading = false := by
  unfold handle handleLine at h
  by_cases hst : s.readState = .start
  · rw [if_pos hst] at h
    exact .inl ⟨hst, readState_of_parseRequestLine h⟩
  rw [if_neg hst] at h
  by_cases hl : stripRight lib.toHeaderLineLib line = []
  · rw [if_neg (fun hne => hne hl)] at h
    exact .inr (.inr ⟨hst, hl, reading_of_headersFinished h⟩)
  · rw [if_pos hl] at h
    cases h
    exact .inr (.inl ⟨hst, hl, readState_headerLine s _⟩)

theorem reading_iff_of_handle {s s' : Request} (h : handle lib s line = .ok s') :
    s'.readState ≠ .start ∧ (s'.reading = true ↔ s'.readState = .headers) := by
  have hne : s'.readState ≠ .start := by
    rcases handle_cases h with ⟨-, he⟩ | ⟨hne, -, he⟩ | ⟨-, -, hre⟩
    · rw [he]
      exact noConfusion
    · rw [he]
      exact hne
    · intro he
      unfold reading at hre
      rw [he] at hre
      cases hre
  refine ⟨hne, ?_⟩
  unfold reading
  rw [Bool.or_eq_true, decide_eq_true_eq, decide_eq_true_eq]
  exact ⟨fun hx => hx.resolve_left hne, .inr⟩

private theorem feedLoop_eq {s : Request} {src : Text} (b : Text)
    (h : s.readState = .start → ¬BareMethod lib src) :
    s.feedLoop lib b src = feed (handle lib) reading s src := by
  rw [feedLoop]
  split
  next hc => rw [feed_eq_of_cut_none _ _ hc]
  next line rest hc =>
    have hle := length_of_cut hc
    have hb : s.readState = .start → bareMethod lib line = false := by
      intro hst
      rw [Bool.eq_false_iff]
      exact fun hx => h hst ⟨line, rest, hc, hx⟩
    have hme : src ++ b = line ++ 0x0a :: (rest ++ b) := by
      rw [(eq_of_cut hc).1, append_assoc, cons_append]
    rw [hme, handleLine_line hb, feed_eq_of_cut _ _ hc]
    cases hha : handle lib s line with
    | error e => rfl
    | ok s' =>
      obtain ⟨hne, hre⟩ := reading_iff_of_handle hha
      simp only
      by_cases hh : s'.readState = .headers
      · rw [if_pos hh, if_pos (hre.mpr hh)]
        exact feedLoop_eq b fun hx => absurd hx hne
      · rw [if_neg hh, if_neg (fun hx => hh (hre.mp hx))]
termination_by src.length
decreasing_by omega

variable (lib)

/-- Header lines: what is left of them without white space at the end is not empty. -/
def HeaderLines (lines : List Text) : Prop :=
  ∀ line ∈ lines, 0x0a ∉ line ∧ stripRight lib.toHeaderLineLib line ≠ []

/-- A request line, headers and the empty line. -/
def IsHeaderBlock (block : Text) : Prop :=
  ∃ first lines last, block = join (first :: lines ++ [last]) ∧ 0x0a ∉ first ∧
    HeaderLines lib lines ∧ 0x0a ∉ last ∧ stripRight lib.toHeaderLineLib last = []

/-- The request line and the headers before the empty line do not reach the limit
`MAX_TOTAL_HTTP_HEADER_SIZE`. -/
def SmallHeaders (stream : Text) : Prop :=
  ∀ first lines, 0x0a ∉ first → HeaderLines lib lines → join (first :: lines) <+: stream →
    (join (first :: lines)).length < maxTotalHttpHeaderSize

variable {lib}

private theorem lines_of_handled {s s' : Request} {src rest : Text}
    (h : Lines.Handled (handle lib) reading s src s' rest) (hs : s.readState = .headers) :
    ∃ lines, HeaderLines lib lines ∧
      (s'.readState = .headers ∧ src = join lines ++ rest ∨
        s'.reading = false ∧ ∃ last, 0x0a ∉ last ∧ stripRight lib.toHeaderLineLib last = [] ∧
          src = join (lines ++ [last]) ++ rest) := by
  induction h with
  | stop ho => exact ⟨[], fun line hl => absurd hl not_mem_nil, .inl ⟨hs, rfl⟩⟩
  | @line s s1 s2 line rest rest' hm hln hh hr ih =>
    rcases handle_cases hh with ⟨hst, -⟩ | ⟨-, hne, heq⟩ | ⟨-, he, hre⟩
    · rw [hs] at hst
      cases hst
    · obtain ⟨lines, hli, hen⟩ := ih (heq.trans hs)
      refine ⟨line :: lines, forall_mem_cons.mpr ⟨⟨hln, hne⟩, hli⟩, ?_⟩
      rcases hen with ⟨hsa, hsr⟩ | ⟨hre, last, hla, he, hsr⟩
      · left
        refine ⟨hsa, ?_⟩
        rw [join_cons, append_assoc, cons_append, ← hsr]
      · right
        refine ⟨hre, last, hla, he, ?_⟩
        rw [cons_append, join_cons, append_assoc, cons_append, ← hsr]
    · -- the machine has stopped behind the empty line
      refine ⟨[], fun line hl => absurd hl not_mem_nil, .inr ?_⟩
      cases hr with
      | stop _ =>
        refine ⟨hre, line, hln, he, ?_⟩
        rw [nil_append, join_cons, append_assoc]
        rfl
      | line hmore' _ _ _ =>
        rw [hre] at hmore'
        cases hmore'

variable {stream : Text}

private theorem block_of_feed {rest : Text} {s : Request}
    (h : feed (handle lib) reading {} stream = .ok (s, rest)) :
    s = {} ∧ rest = stream ∨
      s.readState = .headers ∧ (∃ first lines, 0x0a ∉ first ∧ HeaderLines lib lines ∧
        stream = join (first :: lines) ++ rest) ∨
      s.reading = false ∧ ∃ block, IsHeaderBlock lib block ∧ stream = block ++ rest := by
  have hh := handled_of_feed (handle lib) reading rfl h
  generalize hi : ({} : Request) = init at hh
  cases hh with
  | stop _ => exact .inl ⟨rfl, rfl⟩
  | @line _ s1 _ first after _ hm hfi hha hr =>
    rcases handle_cases hha with ⟨-, hst⟩ | ⟨hne, -⟩ | ⟨hne, -⟩
    · obtain ⟨lines, hli, he⟩ := lines_of_handled hr hst
      rcases he with ⟨hs, hsr⟩ | ⟨hre, last, hla, hem, hsr⟩
      · refine .inr (.inl ⟨hs, first, lines, hfi, hli, ?_⟩)
        rw [join_cons, append_assoc, cons_append, ← hsr]
      · refine .inr (.inr ⟨hre, join (first :: lines ++ [last]),
          ⟨first, lines, last, rfl, hfi, hli, hla, hem⟩, ?_⟩)
        rw [cons_append, join_cons, append_assoc, cons_append, ← hsr]
    · rw [← hi] at hne
      exact absurd rfl hne
    · rw [← hi] at hne
      exact absurd rfl hne

/-- The connection after it has seen the beginning of a stream. -/
def receiver (seen : Text) : Except Rejection (Request × Text) → Receiver
  | .error reason => .destroyed reason
  | .ok (request, rest) => .active { request, bytesReceived := seen.length - rest.length } rest

private theorem suffix_of_feed {s s' : Request} {src rest : Text} (hs : s.reading = true)
    (h : feed (handle lib) reading s src = .ok (s', rest)) : rest <:+ src := by
  have hh := handled_of_feed (handle lib) reading hs h
  clear h hs
  induction hh with
  | stop _ => exact suffix_refl _
  | @line _ _ _ line rest _ _ _ _ _ ih =>
    apply ih.trans
    have hsp : line ++ 0x0a :: rest = (line ++ [0x0a]) ++ rest := by
      rw [append_assoc]
      rfl
    rw [hsp]
    exact suffix_append _ _

private theorem cut_isPrefix {a rest : Text} (hpr : a <+: stream)
    (h : cut 0x0a a = some (line, rest)) : ∃ rest', cut 0x0a stream = some (line, rest') := by
  obtain ⟨more, rfl⟩ := hpr
  exact ⟨_, cut_append_of_some h more⟩

private theorem receive_receiver {a data : Text} (b : Text) (hsm : SmallHeaders lib stream)
    (hb : ¬BareMethod lib stream) (hpr : a ++ data <+: stream) :
    (receiver a (feed (handle lib) reading {} a)).receive lib data b =
      receiver (a ++ data) (feed (handle lib) reading {} (a ++ data)) := by
  rw [feed_append (handle lib) reading rfl]
  cases hfe : feed (handle lib) reading {} a with
  | error e => rfl
  | ok result =>
    obtain ⟨s, rest⟩ := result
    have hsu := suffix_of_feed rfl hfe
    have hle := hsu.length_le
    show (if s.reading then _ else _) = receiver (a ++ data) (if s.reading then _ else _)
    by_cases hre : s.reading = true
    · rw [if_pos hre, if_pos hre]
      have hli : ¬maxTotalHttpHeaderSize ≤ a.length - rest.length := by
        rcases block_of_feed hfe with ⟨-, he⟩ | ⟨-, first, lines, hfi, hl, he⟩ |
          ⟨hr, -⟩
        · rw [he, Nat.sub_self]
          decide
        · have hbl : join (first :: lines) <+: stream := by
            apply List.IsPrefix.trans _ hpr
            rw [he, append_assoc]
            exact prefix_append _ _
          have hlt := hsm first lines hfi hl hbl
          have hn := congrArg List.length he
          rw [length_append] at hn
          omega
        · rw [hre] at hr
          cases hr
      have hfi : s.readState = .start → ¬BareMethod lib (rest ++ data) := by
        rintro hst ⟨line, rest', hc, hx⟩
        rcases block_of_feed hfe with ⟨-, he⟩ | ⟨hs, -⟩ | ⟨hr, -⟩
        · rw [he] at hc
          obtain ⟨rest'', hc'⟩ := cut_isPrefix hpr hc
          exact hb ⟨line, rest'', hc', hx⟩
        · rw [hs] at hst
          cases hst
        · rw [hre] at hr
          cases hr
      unfold HttpServerConnection.feedHeaders
      rw [if_neg hli, feedLoop_eq b hfi]
      cases hnx : feed (handle lib) reading s (rest ++ data) with
      | error e => rfl
      | ok result' =>
        obtain ⟨consumed, hco⟩ := suffix_of_feed hre hnx
        have hn := congrArg List.length hco
        rw [length_append, length_append] at hn
        simp only [receiver]
        congr 1
        · congr 1
          rw [length_append, length_append]
          omega
        · rw [length_append, ← hco]
          apply drop_left'
          omega
    · rw [if_neg hre, if_neg hre]
      congr 2
      rw [length_append, length_append]
      omega

private theorem receiveAll_eq {pi : List (Text × Text)} (hsm : SmallHeaders lib stream)
    (hb : ¬BareMethod lib stream) (h : (pi.map fst).flatten = stream) :
    receiveAll lib pi = receiver stream (feed (handle lib) reading {} stream) := by
  have hru : ∀ (pi : List (Text × Text)) (a : Text), a ++ (pi.map fst).flatten = stream →
      pi.foldl (fun r p => r.receive lib p.1 p.2) (receiver a (feed (handle lib) reading {} a)) =
        receiver stream (feed (handle lib) reading {} stream) := by
    intro pi
    induction pi with
    | nil =>
      intro a ha
      rw [← ha, map_nil, flatten_nil, append_nil]
      rfl
    | cons p pi ih =>
      intro a ha
      rw [map_cons, flatten_cons, ← append_assoc] at ha
      have hpr : a ++ p.1 <+: stream := by
        rw [← ha]
        exact prefix_append _ _
      rw [foldl_cons, receive_receiver p.2 hsm hb hpr]
      exact ih (a ++ p.1) ha
  have hi : receiver [] (feed (handle lib) reading {} []) = .active {} [] := by
    rw [feed_eq_of_cut_none _ _ rfl]
    rfl
  unfold receiveAll
  rw [← hi]
  exact hru pi [] h

theorem headersFinished_ne_outOfBounds (s : Request) :
    s.headersFinished lib ≠ .error .outOfBounds := by
  unfold headersFinished
  simp only
  split <;> exact nofun

private theorem handleLine_ne_outOfBounds {s : Request} (line m : Text)
    (hs : s.readState ≠ .start) :
    s.handleLine lib line m ≠ .error .outOfBounds := by
  unfold handleLine
  rw [if_neg hs]
  split
  · exact nofun
  · exact headersFinished_ne_outOfBounds s

theorem feedLoop_ne_outOfBounds {s : Request} {src : Text} (behind : Text)
    (hs : s.readState ≠ .start) : s.feedLoop lib behind src ≠ .error .outOfBounds := by
  rw [feedLoop]
  split
  · exact fun h => by cases h
  next line rest hc =>
    have hle := length_of_cut hc
    split
    next e he =>
      intro h
      cases h
      exact handleLine_ne_outOfBounds _ _ hs he
    next s' he =>
      split
      next hh => exact feedLoop_ne_outOfBounds behind (by rw [hh]; exact noConfusion)
      · exact fun h => by cases h
termination_by src.length
decreasing_by omega

theorem receive_ne_outOfBounds {connection : HttpServerConnection} (buffer data behind : Text)
    (hs : connection.request.readState ≠ .start) :
    (active connection buffer).receive lib data behind ≠ .destroyed .outOfBounds := by
  unfold receive
  simp only
  split
  · split
    next reason hfe =>
      intro h
      cases h
      unfold HttpServerConnection.feedHeaders at hfe
      split at hfe
      · split at hfe
        next e he =>
          cases hfe
          exact headersFinished_ne_outOfBounds _ he
        · cases hfe
      split at hfe
      next e he =>
        cases hfe
        exact feedLoop_ne_outOfBounds behind hs he
      · cases hfe
    · exact fun h => by cases h
  · exact fun h => by cases h

private theorem receive_line (hl : 0x0a ∉ line) (b : Text) :
    (active {} []).receive lib (line ++ [0x0a]) b =
      match parseRequestLine {} (stripRight lib.toHeaderLineLib line) (line ++ 0x0a :: b) with
      | .error reason => .destroyed reason
      | .ok request => .active { request, bytesReceived := line.length + 1 } [] := by
  have hc : cut 0x0a (line ++ [0x0a]) = some (line, []) := cut_append hl []
  have hlo : feedLoop lib b {} (line ++ [0x0a]) =
      match parseRequestLine {} (stripRight lib.toHeaderLineLib line) (line ++ 0x0a :: b) with
      | .error reason => .error reason
      | .ok request => .ok (request, []) := by
    rw [feedLoop]
    split
    next he =>
      rw [hc] at he
      cases he
    next line' rest' he =>
      rw [hc] at he
      cases he
      rw [append_assoc, singleton_append, handleLine, if_pos rfl]
      split
      next he => rw [he]
      next s he =>
        rw [he, if_pos (readState_of_parseRequestLine he), feedLoop]
        rfl
  unfold receive HttpServerConnection.feedHeaders
  simp only [reading, decide_true, Bool.true_or, if_true, nil_append]
  rw [if_neg (by decide), hlo]
  cases parseRequestLine {} (stripRight lib.toHeaderLineLib line)
    (line ++ 0x0a :: b) with
  | error reason => rfl
  | ok request => simp

private theorem parseRequestLine_bare (h : bareMethod lib line = true) :
    parseRequestLine {} (stripRight lib.toHeaderLineLib line) (line ++ 0x0a :: []) =
        .error .outOfBounds ∧
      ∃ request, parseRequestLine {} (stripRight lib.toHeaderLineLib line)
        (line ++ 0x0a :: ascii " HTTP/") = .ok request := by
  unfold bareMethod at h
  rw [Bool.and_eq_true, decide_eq_true_eq] at h
  obtain ⟨hs, h⟩ := h
  cases hme : parseHttpMethod line with
  | none =>
    rw [hme] at h
    cases h
  | some p =>
    obtain ⟨method, n⟩ := p
    rw [hme, Option.any_some, Bool.and_eq_true, decide_eq_true_eq, Bool.not_eq_true'] at h
    obtain ⟨hn, ha⟩ := h
    have hle := length_of_parseHttpMethod hme
    have ht : ∀ c ∈ line.drop n ++ [0x0a], decide (c ≠ 0x20) = true := by
      intro c hc
      rw [decide_eq_true_eq]
      rintro rfl
      rcases mem_append.mp hc with hc | hc
      · rw [← contains_iff_mem, ha] at hc
        cases hc
      · revert hc
        decide
    unfold parseRequestLine
    simp only [parseHttpMethod_line, hme]
    rw [if_neg (by omega), if_neg (by omega), if_neg (by omega), if_neg (by omega),
      drop_append_of_le_length hle, drop_append_of_le_length hle]
    constructor
    · have hsp : splitWhile (line.drop n ++ [0x0a]) (· ≠ 0x20) =
          ((line.drop n ++ [0x0a]).takeWhile (· ≠ 0x20), []) := by
        rw [splitWhile, dropWhile_eq_nil_iff.mpr ht]
      rw [parseUri, hsp]
      rfl
    · have hsp : splitWhile (line.drop n ++ 0x0a :: ascii " HTTP/") (· ≠ 0x20) =
          (line.drop n ++ [0x0a], 0x20 :: ascii "HTTP/") := by
        have hass : line.drop n ++ 0x0a :: ascii " HTTP/" =
            (line.drop n ++ [0x0a]) ++ 0x20 :: ascii "HTTP/" := by
          rw [append_assoc]
          rfl
        rw [hass, splitWhile, takeWhile_append_of_pos ht,
          dropWhile_append_of_pos ht, takeWhile_cons_of_neg (by decide),
          dropWhile_cons_of_neg (by decide), append_nil]
      rw [parseUri, hsp]
      simp only
      rw [if_neg (by decide), if_neg (by decide)]
      split
      all_goals exact ⟨_, rfl⟩

private theorem receiveAll_bare (h : BareMethod lib stream) :
    ∃ pieces pieces', (pieces.map fst).flatten = stream ∧ (pieces'.map fst).flatten = stream ∧
      receiveAll lib pieces ≠ receiveAll lib pieces' := by
  obtain ⟨line, rest, hc, hb⟩ := h
  obtain ⟨rfl, hl⟩ := eq_of_cut hc
  obtain ⟨hba, request, hg⟩ := parseRequestLine_bare hb
  have hfl : ∀ behind : Text, ([(line ++ [0x0a], behind), (rest, [])].map
      fst).flatten = line ++ 0x0a :: rest := by
    intro behind
    simp
  refine ⟨[(line ++ [0x0a], []), (rest, [])], [(line ++ [0x0a], ascii " HTTP/"), (rest, [])],
    hfl _, hfl _, fun he => ?_⟩
  unfold receiveAll at he
  simp only [foldl_cons] at he
  rw [receive_line hl, receive_line hl, hba, hg] at he
  have hst := readState_of_parseRequestLine hg
  exact receive_ne_outOfBounds [] rest [] (by rw [hst]; exact noConfusion) he.symm

end

/-- A request with small headers is read in the same way whatever the pieces are, and exactly its
headers are consumed, if and only if it does not begin with a bare method. -/
theorem receiveAll_pieces_iff (lib : ServerLib) {stream : Text} (hsm : SmallHeaders lib stream) :
    ((∀ pieces, (pieces.map fst).flatten = stream →
        receiveAll lib pieces = receiveAll lib [(stream, [])]) ∧
      ∀ connection buffer, receiveAll lib [(stream, [])] = .active connection buffer →
        connection.request.reading = false →
        ∃ block, IsHeaderBlock lib block ∧ stream = block ++ buffer ∧
          connection.bytesReceived = block.length) ↔ ¬BareMethod lib stream := by
  constructor
  · rintro ⟨hsa, -⟩ hb
    obtain ⟨pieces, pieces', hp, hp', hne⟩ := receiveAll_bare hb
    exact hne ((hsa pieces hp).trans (hsa pieces' hp').symm)
  · intro hb
    have hw : ([(stream, ([] : Text))].map fst).flatten = stream := append_nil stream
    refine ⟨fun pieces hp => ?_, fun connection buffer hac hre => ?_⟩
    · rw [receiveAll_eq hsm hb hp, receiveAll_eq hsm hb hw]
    · rw [receiveAll_eq hsm hb hw] at hac
      cases hfe : feed (handle lib) reading {} stream with
      | error e =>
        rw [hfe] at hac
        cases hac
      | ok result =>
        obtain ⟨s, rest⟩ := result
        rw [hfe] at hac
        cases hac
        rcases block_of_feed hfe with ⟨hs, -⟩ | ⟨hs, -⟩ | ⟨-, block, hbl, hst⟩
        · rw [hs] at hre
          cases hre
        · unfold reading at hre
          rw [hs] at hre
          cases hre
        · refine ⟨block, hbl, hst, ?_⟩
          show stream.length - buffer.length = block.length
          rw [hst, length_append]
          omega

/-- A library for the examples: every name is valid, and white space is what is not printable. -/
def plainLib : ServerLib where
  nameValid _ := true
  isWhitespace ch := decide (ch ≤ 0x20)
  toLookup := Lookup.first
  listContainsI _ _ := false
  statusIsEmpty _ := false

private theorem smallHeaders_of_length {lib : ServerLib} {stream : Text}
    (h : stream.length < maxTotalHttpHeaderSize) : SmallHeaders lib stream :=
  fun _ _ _ _ hpr => lt_of_le_of_lt hpr.length_le h

/-- A request in two pieces. -/
theorem receiveAll_get :
    receiveAll plainLib [(ascii "GET / HT", []), (ascii "TP/1.1\nA:b\n\nrest", [])] =
      receiveAll plainLib [(ascii "GET / HTTP/1.1\nA:b\n\nrest", [])] := by
  have hsm : SmallHeaders plainLib (ascii "GET / HTTP/1.1\nA:b\n\nrest") :=
    smallHeaders_of_length (by decide)
  refine ((receiveAll_pieces_iff plainLib hsm).mpr ?_).1 _ (by decide)
  rintro ⟨line, rest, hc, hb⟩
  cases hc
  revert hb
  decide

/-- `DELETE` without a URI: the next line becomes a part of the URI if it has been received. -/
theorem receiveAll_delete :
    SmallHeaders plainLib (ascii "DELETE \nx HTTP/1.1\n\n") ∧
    receiveAll plainLib [(ascii "DELETE \nx HTTP/1.1\n\n", [])] ≠
      receiveAll plainLib [(ascii "DELETE \n", []), (ascii "x HTTP/1.1\n\n", [])] :=
  ⟨smallHeaders_of_length (by decide), by decide +kernel⟩

end BengProxy.Http.Server
