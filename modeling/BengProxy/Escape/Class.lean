import BengProxy.Base.Number

/-!
# Escaping

Models the two escape classes, `src/escape/Class.hxx`, `src/escape/CSS.cxx` and
`src/escape/HTML.cxx`. A function that writes to a buffer returns what it has written.
`UnicodeToUTF8()` of the library is a parameter.
-/

namespace BengProxy.Escape

open Base Text

/-- `struct escape_class`, `Class.hxx:12-47`. The size is missing if the loop has not
ended after a number of turns. -/
structure EscapeClass where
  unescapeFind : Text → Option Nat
  unescape : Text → Text
  escapeFind : Text → Option Nat
  escapeChar : UInt8 → Text
  escapeSize : Nat → Text → Option Nat
  escape : Text → Text

/-- `css_unescape_find`, `CSS.cxx:11-18`. -/
def cssUnescapeFind (p : Text) : Option Nat := p.findIdx? (· == 0x5c)

variable (ch : UInt8)

/-- `need_simple_escape`, `CSS.cxx:20-24`. -/
def needSimpleEscape : Bool := ch == 0x5c || ch == 0x22 || ch == 0x27

/-- `css_unescape`, `CSS.cxx:26-49`. -/
def cssUnescape (p : Text) : Text :=
  match _h : cut 0x5c p with
  | none => p
  | some (before, []) => before ++ [0x5c]
  | some (before, ch :: rest) =>
    if needSimpleEscape ch then before ++ ch :: cssUnescape rest
    else before ++ 0x5c :: cssUnescape (ch :: rest)
termination_by p.length
decreasing_by
  all_goals
    have hle := length_of_cut _h
    rw [List.length_cons] at hle
  · omega
  · rw [List.length_cons]
    omega

/-- The loop of `css_escape_size`, `CSS.cxx:57-63`: the pointer is not advanced. -/
def cssEscapeSizeLoop : Nat → Text → Nat → Option Nat
  | 0, _, _ => none
  | _ + 1, [], size => some size
  | turns + 1, ch :: p, size =>
    cssEscapeSizeLoop turns (ch :: p) (if needSimpleEscape ch then size + 2 else size + 1)

/-- `css_escape_size`, `CSS.cxx:51-66`. -/
def cssEscapeSize (turns : Nat) (p : Text) : Option Nat := cssEscapeSizeLoop turns p 0

/-- `css_escape_find`, `CSS.cxx:68-81`. -/
def cssEscapeFind (p : Text) : Option Nat := p.findIdx? needSimpleEscape

/-- `css_escape_char`, `CSS.cxx:83-100`. -/
def cssEscapeChar : Text :=
  if ch = 0x5c then ascii "\\\\"
  else if ch = 0x22 then ascii "\\\""
  else if ch = 0x27 then ascii "\\'"
  else []

/-- `css_escape`, `CSS.cxx:102-117`. -/
def cssEscape : Text → Text
  | [] => []
  | ch :: p => if needSimpleEscape ch then 0x5c :: ch :: cssEscape p else ch :: cssEscape p

/-- `css_escape_class`, `CSS.cxx:119-126`. -/
def cssEscapeClass : EscapeClass where
  unescapeFind := cssUnescapeFind
  unescape := cssUnescape
  escapeFind := cssEscapeFind
  escapeChar := cssEscapeChar
  escapeSize := cssEscapeSize
  escape := cssEscape

/-- `html_unescape_find`, `HTML.cxx:17-25`. -/
def htmlUnescapeFind (p : Text) : Option Nat := p.findIdx? (· == 0x26)

/-- `UnicodeToUTF8()`: a character of Unicode has no more than four bytes. -/
structure Utf8Lib where
  unicodeToUTF8 : Nat → Text
  length_le : ∀ value ≤ 0x10ffff, (unicodeToUTF8 value).length ≤ 4

/-- `ParseDecimal`, `HTML.cxx:27-42`, from a value on. -/
def parseDecimal (value : Nat) : Text → Nat × Text
  | [] => (value, [])
  | ch :: s =>
    if isDigit ch then parseDecimal ((value * 10 + (ch.toNat - 0x30)) % 2 ^ 32) s
    else (value, ch :: s)

/-- `ParseHexDigit()`. -/
def parseHexDigit : Option Nat :=
  if 0x30 ≤ ch ∧ ch ≤ 0x39 then some (ch.toNat - 0x30)
  else if 0x41 ≤ ch ∧ ch ≤ 0x46 then some (ch.toNat - 0x41 + 10)
  else if 0x61 ≤ ch ∧ ch ≤ 0x66 then some (ch.toNat - 0x61 + 10)
  else none

/-- `ParseHex`, `HTML.cxx:44-60`, from a value on. -/
def parseHex (value : Nat) : Text → Nat × Text
  | [] => (value, [])
  | ch :: s =>
    match parseHexDigit ch with
    | some d => parseHex ((value * 0x10 + d) % 2 ^ 32) s
    | none => (value, ch :: s)

/-- `ParseNumericEntity`, `HTML.cxx:62-72`. -/
def parseNumericEntity : Text → Nat × Text
  | 0x78 :: entity => parseHex 0 entity
  | entity => parseDecimal 0 entity

variable (lib : Utf8Lib)

/-- What is written for a numeric entity, `HTML.cxx:105-122`; missing if it is none. -/
def numericEntity (entity : Text) : Option Text :=
  if entity = [] then none
  else
    let (value, unparsed) := parseNumericEntity entity
    if value = 0 ∨ 0x10ffff < value ∨ unparsed ≠ [] then none else some (lib.unicodeToUTF8 value)

/-- What is written for an entity, `HTML.cxx:95-127`; missing if it is none. -/
def htmlEntity (entity : Text) : Option Text :=
  if entity = ascii "amp" then some (ascii "&")
  else if entity = ascii "quot" then some (ascii "\"")
  else if entity = ascii "lt" then some (ascii "<")
  else if entity = ascii "gt" then some (ascii ">")
  else if entity = ascii "apos" then some (ascii "'")
  else
    match entity with
    | 0x23 :: entity => numericEntity lib entity
    | _ => none

/-- What is written for the entity after an ampersand, and what follows; missing if there is no
entity. -/
def firstEntity (after : Text) : Option (Text × Text) :=
  match cut 0x3b after with
  | none => none
  | some (entity, rest) =>
    match htmlEntity lib entity with
    | none => none
    | some text => some (text, rest)

/-- An entity is followed by a semicolon. -/
theorem exists_of_firstEntity {lib : Utf8Lib} {after text rest : Text}
    (h : firstEntity lib after = some (text, rest)) :
    ∃ entity, cut 0x3b after = some (entity, rest) ∧ htmlEntity lib entity = some text := by
  rw [firstEntity] at h
  split at h
  · cases h
  next entity rest' hc =>
    split at h
    · cases h
    next text' ht =>
      cases h
      exact ⟨entity, hc, ht⟩

/-- `html_unescape`, `HTML.cxx:74-133`. -/
def htmlUnescape (lib : Utf8Lib) (src : Text) : Text :=
  match _h : cut 0x26 src with
  | none => src
  | some (before, after) =>
    match _h' : firstEntity lib after with
    | none => before ++ 0x26 :: htmlUnescape lib after
    | some (text, rest) => before ++ text ++ htmlUnescape lib rest
termination_by src.length
decreasing_by
  · have hle := length_of_cut _h
    omega
  · obtain ⟨entity, hc, -⟩ := exists_of_firstEntity _h'
    have haf := length_of_cut _h
    have hrest := length_of_cut hc
    omega

/-- `html_escape_size`, `HTML.cxx:135-163`. -/
def htmlEscapeSize : Text → Nat
  | [] => 0
  | ch :: p =>
    (if ch = 0x26 then 5
      else if ch = 0x22 ∨ ch = 0x27 then 6
      else if ch = 0x3c ∨ ch = 0x3e then 4
      else 1) + htmlEscapeSize p

/-- The characters that `html_escape_find` looks for, `HTML.cxx:171-177`. -/
def isHtmlSpecial : Bool :=
  ch == 0x26 || ch == 0x22 || ch == 0x27 || ch == 0x3c || ch == 0x3e

/-- `html_escape_find`, `HTML.cxx:165-185`. -/
def htmlEscapeFind (p : Text) : Option Nat := p.findIdx? isHtmlSpecial

/-- `html_escape_char`, `HTML.cxx:187-210`. -/
def htmlEscapeChar : Text :=
  if ch = 0x26 then ascii "&amp;"
  else if ch = 0x22 then ascii "&quot;"
  else if ch = 0x27 then ascii "&apos;"
  else if ch = 0x3c then ascii "&lt;"
  else if ch = 0x3e then ascii "&gt;"
  else []

/-- `html_escape`, `HTML.cxx:212-246`. -/
def htmlEscape : Text → Text
  | [] => []
  | ch :: p =>
    (if ch = 0x26 then ascii "&amp;"
      else if ch = 0x22 then ascii "&quot;"
      else if ch = 0x27 then ascii "&apos;"
      else if ch = 0x3c then ascii "&lt;"
      else if ch = 0x3e then ascii "&gt;"
      else [ch]) ++ htmlEscape p

/-- `html_escape_class`, `HTML.cxx:248-255`. -/
def htmlEscapeClass : EscapeClass where
  unescapeFind := htmlUnescapeFind
  unescape := htmlUnescape lib
  escapeFind := htmlEscapeFind
  escapeChar := htmlEscapeChar
  escapeSize _ p := some (htmlEscapeSize p)
  escape := htmlEscape

end BengProxy.Escape
