import BengProxy.Base.Text

/-!
# Tokens of HTTP headers

Models `src/http/Chars.hxx`, `src/http/Tokenizer.cxx`, `src/http/PTokenizer.cxx` and
`src/http/Quote.cxx`. Each function takes the input and returns what it has read and the remaining
input. What counts as white space for `StripLeft` is a parameter.
-/

namespace BengProxy.Http

open Base Text List

/-- The quote `'"'`. -/
def quote : UInt8 := 0x22

/-- The backslash. -/
def backslash : UInt8 := 0x5c

/-- `char_is_http_char`, `Chars.hxx:11-15`. -/
def charIsHttpChar (ch : UInt8) : Bool := ch &&& 0x80 == 0

/-- `char_is_http_ctl`, `Chars.hxx:17-21`. -/
def charIsHttpCtl (ch : UInt8) : Bool := ch ≤ 0x1f || ch == 0x7f

/-- `char_is_http_text`, `Chars.hxx:23-27`. -/
def charIsHttpText (ch : UInt8) : Bool := !charIsHttpCtl ch

/-- `char_is_http_separator`, `Chars.hxx:41-50`, with its space and tab. -/
def charIsHttpSeparator (ch : UInt8) : Bool :=
  (ascii "()<>@,;:\\\"/[]?=\x7b\x7d \t").contains ch

/-- `char_is_http_token`, `Chars.hxx:52-57`. -/
def charIsHttpToken (ch : UInt8) : Bool :=
  charIsHttpChar ch && !charIsHttpCtl ch && !charIsHttpSeparator ch

/-- `http_next_token`, `Tokenizer.cxx:11-17`. -/
def httpNextToken (input : Text) : Text × Text := splitWhile input charIsHttpToken

/-- `http_next_quoted_string_raw`, `Tokenizer.cxx:19-30`. -/
def httpNextQuotedStringRaw (input : Text) : Text × Text := split (input.drop 1) quote

/-- The loop of `http_next_quoted_string`, `PTokenizer.cxx:17-30`. -/
def httpNextQuotedStringLoop : Text → Text × Text
  | [] => ([], [])
  | ch :: input =>
    if ch == backslash then
      match input with
      | [] => ([], [])
      | ch :: input =>
        let (value, rest) := httpNextQuotedStringLoop input
        (ch :: value, rest)
    else if ch == quote then ([], input)
    else
      let (value, rest) := httpNextQuotedStringLoop input
      (if charIsHttpText ch then ch :: value else value, rest)

/-- `http_next_quoted_string`, `PTokenizer.cxx:11-34`. -/
def httpNextQuotedString (input : Text) : Text × Text := httpNextQuotedStringLoop (input.drop 1)

/-- `http_next_value`, `PTokenizer.cxx:36-43`. -/
def httpNextValue (input : Text) : Text × Text :=
  if input.head? == some quote then httpNextQuotedString input else httpNextToken input

section

variable (isWhitespace : UInt8 → Bool)

/-- A name, and the value after an equals sign if there is one: the common shape of
`http_next_name_value` and `cookie_next_name_value`. -/
def nextNameValue (nextValue : Text → Text × Text) (input : Text) : (Text × Text) × Text :=
  let (name, input) := httpNextToken input
  if name = [] then ((name, []), input)
  else
    match stripLeft isWhitespace input with
    | 0x3d :: input =>
      let (value, input) := nextValue (stripLeft isWhitespace input)
      ((name, value), input)
    | input => ((name, []), input)

/-- `http_next_name_value`, `PTokenizer.cxx:45-59`. -/
def httpNextNameValue (input : Text) : (Text × Text) × Text :=
  nextNameValue isWhitespace httpNextValue input

end

variable (input : Text)

theorem length_httpNextToken_le : (httpNextToken input).2.length ≤ input.length :=
  length_splitWhile_le input charIsHttpToken

theorem length_httpNextQuotedStringRaw_le :
    (httpNextQuotedStringRaw input).2.length ≤ input.length := by
  have h := length_split_le (input.drop 1) quote
  rw [length_drop] at h
  exact Nat.le_trans h (Nat.sub_le _ _)

theorem length_httpNextQuotedStringLoop_le :
    (httpNextQuotedStringLoop input).2.length ≤ input.length := by
  fun_induction httpNextQuotedStringLoop input <;> simp only [length_cons] at * <;> grind

theorem length_httpNextValue_le : (httpNextValue input).2.length ≤ input.length := by
  unfold httpNextValue
  split
  · have h := length_httpNextQuotedStringLoop_le (input.drop 1)
    rw [length_drop] at h
    exact Nat.le_trans h (Nat.sub_le _ _)
  · exact length_httpNextToken_le input

private theorem length_nextNameValue_le {isWhitespace : UInt8 → Bool}
    {n : Text → Text × Text}
    (hva : ∀ input, (n input).2.length ≤ input.length) (input : Text) :
    (nextNameValue isWhitespace n input).2.length ≤ (httpNextToken input).2.length := by
  unfold nextNameValue
  cases ht : httpNextToken input with
  | mk name rest =>
    simp only
    split
    · exact Nat.le_refl _
    have hst := length_stripLeft_le isWhitespace rest
    split
    next after he =>
      rw [he, length_cons] at hst
      have haf := length_stripLeft_le isWhitespace after
      have hv := hva (stripLeft isWhitespace after)
      simp only
      omega
    · exact hst

/-- A name that is not empty makes the input shorter. -/
theorem length_nextNameValue_lt {isWhitespace : UInt8 → Bool} {nextValue : Text → Text × Text}
    (hv : ∀ input, (nextValue input).2.length ≤ input.length) {input : Text}
    (hna : (httpNextToken input).1 ≠ []) :
    (nextNameValue isWhitespace nextValue input).2.length < input.length :=
  Nat.lt_of_le_of_lt (length_nextNameValue_le hv input) (length_splitWhile_lt hna)

theorem length_httpNextNameValue_le (isWhitespace : UInt8 → Bool) (input : Text) :
    (httpNextNameValue isWhitespace input).2.length ≤ input.length :=
  Nat.le_trans (length_nextNameValue_le length_httpNextValue_le input)
    (length_httpNextToken_le input)

/-- The name that is returned is the token in front. -/
theorem nextNameValue_name (isWhitespace : UInt8 → Bool) (nextValue : Text → Text × Text)
    (input : Text) :
    (nextNameValue isWhitespace nextValue input).1.1 = (httpNextToken input).1 := by
  unfold nextNameValue
  cases httpNextToken input with
  | mk name rest =>
    simp only
    split
    · rfl
    · split <;> rfl

/-- What is written for one character, `Quote.cxx:25-32`. -/
def quoteChar (ch : UInt8) : Text :=
  if ch = quote ∨ ch = backslash then [backslash, ch]
  else if charIsHttpText ch then [ch]
  else []

/-- `http_quote_string`, `Quote.cxx:17-37`: everything that is written. -/
def httpQuoteString (src : Text) : Text := quote :: (src.flatMap quoteChar ++ [quote])

/-- The loop of `http_next_quoted_string` with its position, `PTokenizer.cxx:17-30`: where
it ends, and what has been written. -/
def httpNextQuotedStringAt (input : Text) (pos : Nat) : Nat × Text :=
  if h : pos < input.length then
    if input[pos] = backslash then
      if h' : pos + 1 < input.length then
        let (stop, value) := httpNextQuotedStringAt input (pos + 2)
        (stop, input[pos + 1] :: value)
      else (pos + 1, [])
    else if input[pos] = quote then (pos + 1, [])
    else
      let (stop, value) := httpNextQuotedStringAt input (pos + 1)
      (stop, if charIsHttpText input[pos] then input[pos] :: value else value)
  else (pos, [])
termination_by input.length - pos

private theorem httpNextQuotedStringLoop_cons {ch : UInt8} (h : ch ≠ backslash) (input : Text) :
    httpNextQuotedStringLoop (ch :: input) = if ch = quote then ([], input)
      else (if charIsHttpText ch then ch :: (httpNextQuotedStringLoop input).1
        else (httpNextQuotedStringLoop input).1, (httpNextQuotedStringLoop input).2) := by
  cases input <;> simp [httpNextQuotedStringLoop, h]

private theorem httpNextQuotedStringLoop_drop (pos : Nat) (h : pos ≤ input.length) :
    (httpNextQuotedStringAt input pos).1 ≤ input.length ∧
      httpNextQuotedStringLoop (input.drop pos) =
        ((httpNextQuotedStringAt input pos).2,
          input.drop (httpNextQuotedStringAt input pos).1) := by
  fun_induction httpNextQuotedStringAt input pos with
  | case1 pos hpo hch hp' stop value he ih =>
    rw [drop_eq_getElem_cons hpo, drop_eq_getElem_cons hp', httpNextQuotedStringLoop]
    rw [he] at ih
    simp [hch, ih (by omega)]
  | case2 pos hpo hch hp' =>
    rw [drop_eq_getElem_cons hpo, drop_eq_nil_of_le (Nat.le_of_not_lt hp')]
    simp [httpNextQuotedStringLoop, hch, Nat.succ_le_of_lt hpo]
  | case3 pos hpo hch hq =>
    rw [drop_eq_getElem_cons hpo, httpNextQuotedStringLoop_cons hch, if_pos hq]
    exact ⟨hpo, rfl⟩
  | case4 pos hpo hch hq stop value he ih =>
    rw [drop_eq_getElem_cons hpo, httpNextQuotedStringLoop_cons hch, if_neg hq]
    rw [he] at ih
    simp [ih (by omega)]
  | case5 pos hpo =>
    rw [drop_eq_nil_of_le (Nat.le_of_not_lt hpo)]
    exact ⟨h, rfl⟩

private theorem httpNextQuotedStringLoop_quoted (src rest : Text) :
    httpNextQuotedStringLoop (src.flatMap quoteChar ++ quote :: rest) =
      (src.filter charIsHttpText, rest) := by
  induction src with
  | nil => exact httpNextQuotedStringLoop_cons (by decide) rest
  | cons ch src ih =>
    rw [flatMap_cons, quoteChar]
    by_cases he : ch = quote ∨ ch = backslash
    · have ht : charIsHttpText ch = true := by
        rcases he with rfl | rfl <;> decide
      simp [he, httpNextQuotedStringLoop, ih, ht]
    · rw [not_or] at he
      cases ht : charIsHttpText ch with
      | true => simp [he, httpNextQuotedStringLoop_cons he.2, ih, ht]
      | false => simp [he, ih, ht]

private theorem length_flatMap_quoteChar_le (src : Text) :
    (src.flatMap quoteChar).length ≤ 2 * src.length := by
  induction src with
  | nil => exact Nat.le_refl 0
  | cons ch src ih =>
    have hch : (quoteChar ch).length ≤ 2 := by
      rw [quoteChar]
      split
      · exact Nat.le_refl 2
      · split <;> simp
    rw [flatMap_cons, length_append, length_cons]
    omega

/-- A quoted string is read back without its control characters, up to its end; quoting at most
doubles the length; and reading a quoted string does not advance past the end of the input,
whatever follows the quote. -/
theorem httpNextQuotedString_httpQuoteString (src rest : Text) :
    httpNextQuotedString (httpQuoteString src ++ rest) = (src.filter charIsHttpText, rest) ∧
      (httpQuoteString src).length ≤ 2 * src.length + 2 ∧
      ∀ input, (httpNextQuotedStringAt (quote :: input) 1).1 ≤ (quote :: input).length ∧
        httpNextQuotedString (quote :: input) =
          ((httpNextQuotedStringAt (quote :: input) 1).2,
            (quote :: input).drop (httpNextQuotedStringAt (quote :: input) 1).1) := by
  refine ⟨?_, ?_, fun input => httpNextQuotedStringLoop_drop (quote :: input) 1 (by simp)⟩
  · have hd : (httpQuoteString src ++ rest).drop 1 = src.flatMap quoteChar ++ quote :: rest := by
      simp [httpQuoteString]
    rw [httpNextQuotedString, hd, httpNextQuotedStringLoop_quoted]
  · have hle := length_flatMap_quoteChar_le src
    simp only [httpQuoteString, length_cons, length_append, length_nil]
    omega

end BengProxy.Http
