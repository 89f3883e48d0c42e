import BengProxy.Http.CookieJar

/-!
# White space in a header with cookies

What `cookie_jar_set_cookie2()` does with white space behind the separators of a header: behind a
comma it is skipped, but behind a semicolon no name is found, so this attribute and all that follows
it are lost (`src/http/CookieClient.cxx:81-101`).
-/

namespace BengProxy.Http

open Base Text List

variable {u : Util}

/-- The separators of attributes and of cookies. -/
def isSeparator (ch : UInt8) : Bool := ch == 0x3b || ch == 0x2c

/-- What follows a separator: a cookie or an attribute of the last one. -/
inductive Kind where
  | cookie
  | attr

/-- The separator in front. -/
def Kind.separator : Kind → UInt8
  | .cookie => 0x2c
  | .attr => 0x3b

/-- The function that reads it. -/
def Kind.next (u : Util) : Kind → Text → (Text × Text) × Text
  | .cookie => cookieNextNameValue u
  | .attr => httpNextNameValue u.isWhitespace

/-- A name with its value as it is written, and what is read of it if a separator or nothing
follows. Something may be left over, which the parser does not skip. -/
structure Piece (u : Util) (kind : Kind) where
  text : Text
  pair : Text × Text
  leftover : Text
  begins : text.head?.any charIsHttpToken = true
  reads : ∀ rest : Text, rest.head?.all isSeparator = true →
    kind.next u (text ++ rest) = (pair, leftover ++ rest)
  stuck : leftover.head?.all (fun ch => !u.isWhitespace ch && !isSeparator ch) = true

/-- A piece with the white space between the separator and it. -/
structure Field (u : Util) where
  kind : Kind
  space : Text
  white : ∀ ch ∈ space, u.isWhitespace ch = true
  piece : Piece u kind

/-- The field as it is written. -/
def Field.text (field : Field u) : Text := field.kind.separator :: (field.space ++ field.piece.text)

/-- The field without white space. -/
def Field.plain (field : Field u) : Field u := { field with space := [], white := by simp }

/-- There is white space behind a semicolon. -/
def Field.isSpaced (field : Field u) : Bool :=
  match field.kind with
  | .cookie => false
  | .attr => field.space ≠ []

/-- The fields in front of the first semicolon with white space. -/
def readFields (fields : List (Field u)) : List (Field u) := fields.takeWhile (!·.isSpaced)

/-- A header: the first cookie and the fields behind it. -/
def headerText (first : Piece u .cookie) (fields : List (Field u)) : Text :=
  first.text ++ fields.flatMap Field.text

/-- The header without white space. -/
def plainText (first : Piece u .cookie) (fields : List (Field u)) : Text :=
  headerText first (fields.map .plain)

private theorem separator_fields (fields : List (Field u)) :
    (fields.flatMap Field.text).head?.all isSeparator = true := by
  rcases fields with - | ⟨⟨⟨⟩⟩, fields⟩ <;> rfl

section

variable (now : Nat) (domain : Text) (path : Option Text)

/-- The same cookie has been read, and what follows has the same effect. -/
private def SameEnd (p p' : ParsedCookie × Text) : Prop :=
  p.1 = p'.1 ∧ (p.2.head? = some 0x2c ↔ p'.2.head? = some 0x2c) ∧
    (p.2.head? = some 0x2c → ∀ jar,
      cookieJarSetCookie2Loop u now jar domain path (stripLeft u.isWhitespace p.2.tail) =
        cookieJarSetCookie2Loop u now jar domain path (stripLeft u.isWhitespace p'.2.tail))

variable {now domain path}

private theorem sameEnd_of_dead {cookie : ParsedCookie} {r r' : Text} (h : r.head? ≠ some 0x2c)
    (h' : r'.head? ≠ some 0x2c) : SameEnd (u := u) now domain path (cookie, r) (cookie, r') :=
  ⟨rfl, iff_of_false h h', fun hc => absurd hc h⟩

private theorem cookieJarSetCookie2Loop_congr {i input' : Text}
    (h : Option.Rel (SameEnd (u := u) now domain path) (parseNextCookie u now i)
      (parseNextCookie u now input')) (jar : List Cookie) :
    cookieJarSetCookie2Loop u now jar domain path i =
      cookieJarSetCookie2Loop u now jar domain path input' := by
  have hlo (i : Text) : cookieJarSetCookie2Loop u now jar domain path i =
      match applyNextCookie u now jar domain path i with
      | none => jar
      | some (jar, rest) =>
        if rest.head? = some 0x2c then
          cookieJarSetCookie2Loop u now jar domain path (stripLeft u.isWhitespace rest.tail)
        else jar := by
    rw [cookieJarSetCookie2Loop]
    split <;> simp_all
  rw [hlo, hlo, applyNextCookie, applyNextCookie, acceptNextCookie, acceptNextCookie]
  generalize parseNextCookie u now i = p at h
  generalize parseNextCookie u now input' = p' at h
  cases h with
  | none => rfl
  | @some p p' h =>
    rcases p with ⟨cookie, rest⟩
    rcases p' with ⟨cookie', rest'⟩
    obtain ⟨rfl, hh, hr⟩ := h
    dsimp only at hh hr ⊢
    by_cases hc : rest.head? = some 0x2c
    · split_ifs <;> simp [hc, hh.mp hc, hr hc]
    · split_ifs <;> simp [hc, mt hh.mpr hc]

variable (hwhite : ∀ ch, u.isWhitespace ch = decide (ch ≤ 0x20)) {kind : Kind}
  (piece : Piece u kind)

include hwhite

private theorem Piece.exists_cons : ∃ ch text, piece.text = ch :: text ∧
    u.isWhitespace ch = false ∧ isSeparator ch = false := by
  have hb := piece.begins
  cases ht : piece.text with
  | nil => simp [ht] at hb
  | cons ch text =>
    simp [ht, charIsHttpToken, charIsHttpCtl, charIsHttpSeparator, ascii] at hb
    exact ⟨ch, text, rfl, by simp [hwhite]; grind, by simp [isSeparator]; grind⟩

variable {fields fields' : List (Field u)} (h : ∀ cookie, SameEnd (u := u) now domain path
  (parseAttributes u now cookie (fields.flatMap Field.text))
  (parseAttributes u now cookie (fields'.flatMap Field.text)))

include h

private theorem sameEnd_leftover (cookie : ParsedCookie) : SameEnd (u := u) now domain path
    (parseAttributes u now cookie
      (stripLeft u.isWhitespace (piece.leftover ++ fields.flatMap Field.text)))
    (parseAttributes u now cookie
      (stripLeft u.isWhitespace (piece.leftover ++ fields'.flatMap Field.text))) := by
  have hst := piece.stuck
  cases hle : piece.leftover with
  | nil =>
    have hs (fields : List (Field u)) :
        stripLeft u.isWhitespace (fields.flatMap Field.text) = fields.flatMap Field.text := by
      rcases fields with - | ⟨⟨⟨⟩⟩, fields⟩ <;>
        simp [stripLeft, Field.text, Kind.separator, hwhite]
    simpa [hs] using h cookie
  | cons ch leftover =>
    simp [hle, isSeparator] at hst
    simpa [stripLeft, hst, parseAttributes] using
      sameEnd_of_dead (by simp [hst]) (by simp [hst])

private theorem cookieJarSetCookie2Loop_piece (f : Piece u .cookie) (jar : List Cookie) :
    cookieJarSetCookie2Loop u now jar domain path (headerText f fields) =
      cookieJarSetCookie2Loop u now jar domain path (headerText f fields') := by
  apply cookieJarSetCookie2Loop_congr
  have hre (fields : List (Field u)) := f.reads _ (separator_fields fields)
  simp only [Kind.next] at hre
  simp only [headerText, parseNextCookie, hre]
  split
  · exact .none
  · exact .some (sameEnd_leftover hwhite f h _)

omit h in
private theorem sameEnd_readFields (fields : List (Field u)) (cookie : ParsedCookie) :
    SameEnd (u := u) now domain path (parseAttributes u now cookie (fields.flatMap Field.text))
      (parseAttributes u now cookie
        (((readFields fields).map Field.plain).flatMap Field.text)) := by
  induction fields generalizing cookie with
  | nil => exact ⟨rfl, .rfl, fun _ _ => rfl⟩
  | cons field fields ih =>
    rcases field with ⟨kind, space, white, piece⟩
    cases kind with
    | cookie =>
      have hre : readFields (⟨.cookie, space, white, piece⟩ :: fields) =
          ⟨.cookie, space, white, piece⟩ :: readFields fields := rfl
      obtain ⟨ch, text, ht, hch, -⟩ := Piece.exists_cons hwhite piece
      have hst (rest : Text) : stripLeft u.isWhitespace (space ++ (piece.text ++ rest)) =
          piece.text ++ rest := by
        simp [stripLeft, dropWhile_append_of_pos white, ht, hch]
      have hpl (rest : Text) : stripLeft u.isWhitespace (piece.text ++ rest) =
          piece.text ++ rest := by
        simp [stripLeft, ht, hch]
      have hlo := cookieJarSetCookie2Loop_piece hwhite ih piece
      simp only [headerText] at hlo
      simp [hre, parseAttributes, Field.text, Field.plain, Kind.separator, SameEnd, hst, hpl, hlo]
    | attr =>
      by_cases hsp : space = []
      · subst hsp
        have hre : readFields (⟨.attr, [], white, piece⟩ :: fields) =
            ⟨.attr, [], white, piece⟩ :: readFields fields := rfl
        have hr (fields : List (Field u)) := piece.reads _ (separator_fields fields)
        simp only [Kind.next] at hr
        simpa [hre, parseAttributes, Field.text, Field.plain, Kind.separator, hr] using
          sameEnd_leftover hwhite piece ih _
      -- no name is found, and the parser stops in front of the attribute
      have hre : readFields (⟨.attr, space, white, piece⟩ :: fields) = [] := by
        simp [readFields, Field.isSpaced, hsp]
      have hna (rest : Text) :
          httpNextNameValue u.isWhitespace (space ++ rest) = (([], []), space ++ rest) := by
        obtain ⟨ch, white', rfl⟩ := exists_cons_of_ne_nil hsp
        have hto : charIsHttpToken ch = false := by
          have hch := white ch mem_cons_self
          simp [hwhite] at hch
          simp [charIsHttpToken, charIsHttpCtl, charIsHttpSeparator, ascii]
          grind
        simp [httpNextNameValue, nextNameValue, httpNextToken, splitWhile, hto]
      have hat : cookie.attribute u now [] [] = cookie := rfl
      obtain ⟨ch, text, ht, hch, hse⟩ := Piece.exists_cons hwhite piece
      simp [isSeparator] at hse
      simpa [hre, parseAttributes, Field.text, Kind.separator, hna, hat, stripLeft,
        dropWhile_append_of_pos white, ht, hch, hse] using
        sameEnd_of_dead (by simp [hse]) (by simp)

end

/-- What is behind the first semicolon with white space is not read, and other white space makes no
difference. So there is none if no semicolon is followed by white space. -/
theorem cookieJarSetCookie2_spaced (hwhite : ∀ ch, u.isWhitespace ch = decide (ch ≤ 0x20))
    (now : Nat) (first : Piece u .cookie) (fields : List (Field u)) (jar : List Cookie)
    (domain : Text) (path : Option Text) :
    cookieJarSetCookie2 u now jar (headerText first fields) domain path =
        cookieJarSetCookie2 u now jar (plainText first (readFields fields)) domain path ∧
      ((∀ field ∈ fields, field.isSpaced = false) →
        cookieJarSetCookie2 u now jar (headerText first fields) domain path =
          cookieJarSetCookie2 u now jar (plainText first fields) domain path) := by
  have hre := @cookieJarSetCookie2Loop_piece u now domain path hwhite fields _
    (sameEnd_readFields hwhite fields) first jar
  refine ⟨hre, fun h => hre.trans ?_⟩
  have hal : readFields fields = fields := by
    rw [readFields, ← append_nil fields, takeWhile_append_of_pos (by simpa using h), takeWhile_nil]
  rw [hal]
  rfl

/-- The cookie `a=b`. -/
def pieceCookie : Piece plainUtil .cookie where
  text := ascii "a=b"
  pair := (ascii "a", ascii "b")
  leftover := []
  begins := by decide +kernel
  reads := by
    rintro (- | ⟨ch, rest⟩) hrest
    · rfl
    · rcases (by simpa [isSeparator] using hrest : ch = 0x3b ∨ ch = 0x2c) with rfl | rfl <;> rfl
  stuck := rfl

/-- The attribute `path=/x`, of which the value is not read. -/
def piecePath : Piece plainUtil .attr where
  text := ascii "path=/x"
  pair := (ascii "path", [])
  leftover := ascii "/x"
  begins := by decide +kernel
  reads := fun _ _ => rfl
  stuck := by decide +kernel

/-- White space behind a comma makes no difference. -/
theorem cookieJarSetCookie2_spaced_comma :
    let fields : List (Field plainUtil) :=
      [⟨.cookie, ascii " ", by decide +kernel, pieceCookie⟩, ⟨.attr, [], by simp, piecePath⟩]
    headerText pieceCookie fields = ascii "a=b, a=b;path=/x" ∧
      cookieJarSetCookie2 plainUtil 0 [] (headerText pieceCookie fields) (ascii "b.com") none =
        cookieJarSetCookie2 plainUtil 0 [] (plainText pieceCookie fields) (ascii "b.com") none :=
  ⟨by decide +kernel,
    (cookieJarSetCookie2_spaced (fun _ => rfl) 0 pieceCookie _ [] _ none).2 (by decide)⟩

/-- White space behind a semicolon may make none: this attribute has no effect. -/
example : cookieJarSetCookie2 plainUtil 0 [] (ascii "a=b; c=d") (ascii "b.com") none =
    cookieJarSetCookie2 plainUtil 0 [] (ascii "a=b;c=d") (ascii "b.com") none := by
  decide +kernel

/-- White space behind a semicolon makes one. -/
theorem cookieJarSetCookie2_spaced_semicolon :
    cookieJarSetCookie2 plainUtil 0 [] (ascii "a=b; path=/x; max-age=0") (ascii "b.com") none ≠
      cookieJarSetCookie2 plainUtil 0 [] (ascii "a=b;path=/x;max-age=0") (ascii "b.com") none := by
  decide +kernel

end BengProxy.Http
