import BengProxy.Base.Separated
import BengProxy.Base.Text

/-!
# Compressing a path

Models `uri_compress()`, `src/uri/PRelative.cxx`: the string is rewritten in place by four passes,
each one a search and a move. What it is for is stated with the segments of the path, which are
resolved from left to right.
-/

namespace BengProxy.Uri

open Base Text Separated List

/-- The character `'/'`. -/
def slash : UInt8 := 0x2f

/-- The segment `"."`. -/
def dot : Text := [0x2e]

/-- The segment `".."`. -/
def dotDot : Text := [0x2e, 0x2e]

/-- The loop that skips `"./"`, `PRelative.cxx:20-21`. -/
def skipDots : Text → Text
  | 0x2e :: 0x2f :: uri => skipDots uri
  | uri => uri

variable (uri : Text)

/-- The path begins with the segment `".."`, `PRelative.cxx:23-24`. -/
def beginsWithParent : Bool :=
  uri == dotDot || (dotDot ++ [slash]).isPrefixOf uri

/-- The condition of the cheap route, `PRelative.cxx:27-30`. -/
def isCompressed : Bool :=
  (find (ascii "//") uri).isNone && (find (ascii "/./") uri).isNone &&
    (find (ascii "/..") uri).isNone && !(ascii "/.").isSuffixOf uri

/-- The loops that eliminate `"//"` and `"/./"`, `PRelative.cxx:37-50`: the segment is empty
or `"."`. -/
def eliminate (segment dest : Text) : Text :=
  match _h : find (slash :: (segment ++ [slash])) dest with
  | none => dest
  | some (before, after) => eliminate segment (before ++ slash :: after)
termination_by dest.length
decreasing_by
  have hle := length_of_find _h
  simp only [length_cons, length_append, length_nil] at hle ⊢
  omega

/-- What is before the previous slash, with the slash, `PRelative.cxx:60-68`. -/
def backtrack (before : Text) : Text :=
  match findLast slash before with
  | none => []
  | some (parent, _) => parent ++ [slash]

private theorem length_backtrack_le (b : Text) :
    (backtrack b).length ≤ b.length := by
  unfold backtrack
  cases h : findLast slash b with
  | none => exact Nat.zero_le _
  | some parts =>
    rw [eq_of_findLast h, length_append, length_append, length_cons]
    simp only [length_cons, length_nil]
    omega

/-- The loop that eliminates `"/../"` with backtracking, `PRelative.cxx:54-73`. -/
def eliminateParents (dest : Text) : Option Text :=
  match _h : find (slash :: (dotDot ++ [slash])) dest with
  | none => some dest
  | some (before, after) =>
    -- this ".." cannot be resolved
    if before = [] then none else eliminateParents (backtrack before ++ after)
termination_by dest.length
decreasing_by
  have hlen := length_of_find _h
  have hle := length_backtrack_le before
  simp only [length_cons, length_append, length_nil, dotDot] at hlen ⊢
  omega

/-- Eliminate a trailing `"/."` or `"/.."`, `PRelative.cxx:77-99`. -/
def eliminateTrailing (dest : Text) : Option Text :=
  match findLast slash dest with
  | none => some dest
  | some (before, after) =>
    if after = dot then some (before ++ [slash])
    else if after = dotDot then
      -- refuse to delete the leading slash
      if before = [] then none else some (backtrack before)
    else some dest

/-- The passes over a copy of the string, `PRelative.cxx:33-106`. -/
def compressCopy : Option Text :=
  ((eliminateParents (eliminate dot (eliminate [] uri))).bind eliminateTrailing).map fun dest =>
    if dest = dot then [] else dest

/-- `uri_compress()`, `PRelative.cxx:15-106`; missing if it is a null pointer. -/
def uriCompress : Option Text :=
  let uri := skipDots uri
  if beginsWithParent uri then none
  else if isCompressed uri then some uri
  else compressCopy uri

/-- The segments of a path. -/
def segments : List Text := Separated.split slash uri

/-- The parent of a directory, which is given by its segments, the innermost one first. -/
def parentOf : List Text → Option (List Text)
  | [] => none
  | _ :: parent => some parent

/-- Resolve segments in a directory. The result is missing if the path climbs above its start. -/
def resolveFrom : List Text → List Text → Option (List Text)
  | directory, [] => some directory.reverse
  | directory, x :: rest =>
    if x = [] ∨ x = dot then resolveFrom directory rest
    else if x = dotDot then (parentOf directory).bind fun parent => resolveFrom parent rest
    else resolveFrom (x :: directory) rest

/-- The path begins with a slash. -/
def isAbsolute : Bool := uri.head? == some slash

/-- The path of a directory: the last segment is empty, `"."` or `".."`. -/
def isDirectory (segs : List Text) : Bool :=
  segs.getLast?.any fun x => x = [] ∨ x = dot ∨ x = dotDot

/-- The path with these segments. -/
def render (absolute directory : Bool) (segs : List Text) : Text :=
  (if absolute then [slash] else []) ++ join slash segs ++
    if directory && !segs.isEmpty then [slash] else []

/-- The path with its segments resolved. -/
def resolved : Option Text :=
  (resolveFrom [] (segments uri)).map
    (render (isAbsolute uri) (isDirectory (segments uri)))

end BengProxy.Uri
