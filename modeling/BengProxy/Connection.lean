import Mathlib.Tactic.Common

/-!
# Connections

What is said about a connection when it is not needed any more, and what is reported to a buffered
socket after it has presented its data.
-/

namespace BengProxy

/-- `PutAction`: what shall happen to the connection. -/
inductive PutAction where
  | reuse
  | destroy
  deriving DecidableEq, Repr

/-- `BufferedResult`. -/
inductive BufferedResult where
  | ok
  | more
  | again
  | destroyed
  deriving DecidableEq, Repr

end BengProxy
