import JavaMend.Flow.State
import JavaMend.Traversal.Path

/-!
# Flow queries

A query follows a value from one expression through the body around it and
asks which sinks it reaches. What counts as a source, as a sink and as a guard
that makes the value harmless is given by a `FlowSpec`; how far the walk goes
is given by `FlowLimits`.
-/

namespace JavaMend

/-- How the value passes through expressions. -/
inductive FlowKind where
  /-- The same value: through assignments, reads, parentheses, casts, the
  branches of conditionals and the items of a loop. -/
  | value
  /-- Anything made from the value: also through string concatenation, and
  from receivers, arguments and fields into results. -/
  | taint
deriving DecidableEq

/-- An expression and the path to it. -/
structure Occurrence where
  expr : Expr
  path : Path

/-- What a flow query asks about. -/
structure FlowSpec where
  kind : FlowKind
  isSource : Occurrence → Bool
  isSink : Occurrence → Bool
  /-- Does taking a branch of a condition make the value harmless? Without this
  no condition does. -/
  sanitizes : Option (Occurrence → Bool → Bool)

/-- How far a walk goes. -/
structure FlowLimits where
  /-- Statements nested this deep are passed over. -/
  maxDepth : Nat
  /-- A loop is walked at most this often. -/
  maxLoopIterations : Nat
deriving DecidableEq

/-- The limits that hold where none are set. -/
def FlowLimits.standard : FlowLimits := { maxDepth := 64, maxLoopIterations := 8 }

/-- The sinks that a value was found to reach. -/
structure FlowResult where
  /-- The path to where the value starts. -/
  source : Path
  /-- The sinks, in the order they were found. -/
  sinks : List Occurrence
  /-- The conditions that the sanitizer was asked about, with the branch. -/
  guards : List (Occurrence × Bool)

def FlowResult.isEmpty (flow : FlowResult) : Bool := flow.sinks.isEmpty

end JavaMend
