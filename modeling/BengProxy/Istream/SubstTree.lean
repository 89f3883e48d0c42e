import BengProxy.Base.Text

/-!
# The ternary search tree of keywords

Models `SubstTree`, `src/istream/SubstIstream.cxx`. A level of the tree is a binary search tree of
characters; each character leads to the level behind it, and a node with the null character ends a
keyword. The pointer to the parent is modelled by the way from the root to a node.
-/

namespace BengProxy.Istream

open Base

/-- A pointer to a `SubstNode`, `SubstIstream.cxx:21-34`. The node with the null
character is a leaf: it has the keyword and the substitution. -/
inductive SubstNode where
  | null
  | node (ch : UInt8) (left right equals : SubstNode) (leaf : Option (Text × Text))
  deriving DecidableEq, Repr

/-- The value of a `char`, which is signed. -/
def charValue (ch : UInt8) : Int := if ch.toNat < 128 then ch.toNat else ch.toNat - 256

namespace SubstNode

/-- Different characters have different values. -/
theorem charValue_inj {a b : UInt8} : charValue a = charValue b ↔ a = b := by
  constructor
  · intro h
    have ha := a.toNat_lt
    have hb := b.toNat_lt
    unfold charValue at h
    apply UInt8.toNat_inj.mp
    split at h <;> split at h <;> omega
  · rintro rfl
    rfl

/-- The new nodes for the rest of a keyword, `SubstIstream.cxx:873-884,904-916`. -/
def chain (a b : Text) : Text → SubstNode
  | [] => .node 0 .null .null .null (some (a, b))
  | ch :: rest => .node ch .null .null (chain a b rest) none

/-- The loop in `SubstTree::Add`, `SubstIstream.cxx:869-919`, with the rest of the
keyword; missing if the keyword already exists. -/
def insert (a b : Text) : SubstNode → Text → Option SubstNode
  | .null, rest => some (chain a b rest)
  | .node .., [] => none
  | .node c left right equals leaf, ch :: rest =>
    if charValue ch < charValue c then
      (left.insert a b (ch :: rest)).map fun left => .node c left right equals leaf
    else if charValue ch > charValue c then
      (right.insert a b (ch :: rest)).map fun right => .node c left right equals leaf
    else
      -- tree node exists and matches, enter new level
      (equals.insert a b rest).map fun equals => .node c left right equals leaf

/-- `SubstTree::Add`, `SubstIstream.cxx:859-919`; false if the keyword is refused. -/
def add (root : SubstNode) (a b : Text) : Bool × SubstNode :=
  match root.insert a b a with
  | none => (false, root)
  | some root => (true, root)

/-- The loop of `subst_find_char()`, `SubstIstream.cxx:123-133`. -/
def findCharIn : SubstNode → UInt8 → Option SubstNode
  | .null, _ => none
  | .node c left right equals _, ch =>
    if c = ch then some equals
    else if charValue ch < charValue c then left.findCharIn ch
    else right.findCharIn ch

/-- `subst_find_char()`, `SubstIstream.cxx:115-138`. -/
def findChar (n : SubstNode) (ch : UInt8) : Option SubstNode :=
  -- we cannot support null bytes
  if ch = 0 then none else n.findCharIn ch

/-- `subst_find_leaf()`, `SubstIstream.cxx:141-158`. -/
def findLeaf : SubstNode → Option SubstNode
  | .null => none
  | .node c left right equals leaf =>
    if c = 0 then some (.node c left right equals leaf)
    else if charValue 0 < charValue c then left.findLeaf
    else right.findLeaf

/-- `CheckMatch()`, `SubstIstream.cxx:169-183`. -/
def checkMatch : SubstNode → Text → Bool
  | _, [] => true
  | n, ch :: input =>
    if n.findLeaf.isSome then true
    else
      match n.findChar ch with
      | none => false
      | some n => n.checkMatch input

/-- Where a node is, seen from its parent. -/
inductive Side where
  | left
  | right
  deriving DecidableEq, Repr

/-- The pointer to a child. -/
def child : SubstNode → Side → SubstNode
  | .null, _ => .null
  | .node _ left _ _ _, .left => left
  | .node _ _ right _ _, .right => right

/-- The node at the end of a way from the root; the last step comes first. -/
def locate (root : SubstNode) : List Side → SubstNode
  | [] => root
  | side :: parent => (root.locate parent).child side

/-- The node exists and is not a leaf. -/
def isInner : SubstNode → Bool
  | .null => false
  | .node ch _ _ _ _ => ch != 0

/-- The loop of `subst_next_non_leaf_node()` that goes up, `SubstIstream.cxx:216-234`.
It returns the parent itself. -/
def goUp (root : SubstNode) : List Side → Option (List Side)
  | [] => none
  | .left :: parent =>
    -- only go to parent->right if we came from parent->left
    if ((root.locate parent).child .right).isInner then some parent else root.goUp parent
  | .right :: parent => root.goUp parent

/-- `subst_next_non_leaf_node()`, `SubstIstream.cxx:203-234`. -/
def nextNonLeafNode (root : SubstNode) (n : List Side) : Option (List Side) :=
  -- dive into left wing first
  if ((root.locate n).child .left).isInner then some (.left :: n)
  -- if left does not exist, go right
  else if ((root.locate n).child .right).isInner then some (.right :: n)
  else root.goUp n

/-- The loop over the instances of one start character, `SubstIstream.cxx:251-269`,
from a position on; `min` is the best position so far. -/
def findInstance (ch : UInt8) (equals : SubstNode) (min : Option Nat) :
    Text → Nat → Option Nat
  | [], _ => none
  | c :: rest, position =>
    if c ≠ ch then findInstance ch equals min rest (position + 1)
    else if min.any fun min => min ≤ position then none
    else if equals.checkMatch rest then some position
    -- late mismatch; check if there are more of the current start character
    else findInstance ch equals min rest (position + 1)

/-- The body of the loop in `FindFirstChar`, `SubstIstream.cxx:246-269`, with the match
and its position. -/
def checkNode (data : Text) (best : Option (SubstNode × Nat)) :
    SubstNode → Option (SubstNode × Nat)
  | .null => best
  | .node ch _ _ equals _ =>
    match findInstance ch equals (best.map Prod.snd) data 0 with
    | some position => some (equals, position)
    | none => best

/-- The loop in `SubstTree::FindFirstChar`, `SubstIstream.cxx:245-273`; missing if it
needs more iterations. -/
def findFirstCharLoop (root : SubstNode) (data : Text) :
    Nat → Option (List Side) → Option (SubstNode × Nat) → Option (Option (SubstNode × Nat))
  | _, none, best => some best
  | 0, some _, _ => none
  | fuel + 1, some n, best =>
    findFirstCharLoop root data fuel (root.nextNonLeafNode n) (checkNode data best (root.locate n))

/-- `SubstTree::FindFirstChar`, `SubstIstream.cxx:236-274`. -/
def findFirstChar (root : SubstNode) (data : Text) (fuel : Nat) :
    Option (Option (SubstNode × Nat)) :=
  findFirstCharLoop root data fuel (if root = .null then none else some []) none

end SubstNode
end BengProxy.Istream
