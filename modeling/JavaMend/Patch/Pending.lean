import JavaMend.Patch.Guard

/-!
# Pending fixes

A visitor does not edit the tree. It notes a `PendingFix` on the frame of the
block that holds the statement at stake, and the fixes noted on a frame are
applied together when the visit of the block ends: extractions first, then
guards, replacements, insertions and removals.
-/

namespace JavaMend

/-- What a fix does to its anchor. -/
inductive FixKind where
  /-- Writes a containment guard after the anchor. -/
  | guardAfter (variant : GuardVariant) (message : String)
  /-- Moves the expression into a new `final` local declared before the anchor,
  whose name starts from `base`. -/
  | extract (base : String)
  /-- Puts another expression in the place of the expression. The imports are
  the classes that `new` refers to by their simple names. -/
  | replace (new : Expr) (imports : List String)
  | insertAfter (stmts : List Stmt)
  | insertBefore (stmts : List Stmt)
  | remove

/-- The sorts of fixes. -/
inductive FixTag where
  | extract
  | guardAfter
  | replace
  | insertAfter
  | insertBefore
  | remove
deriving DecidableEq

/-- The sorts in the order they are applied in. -/
def FixTag.all : List FixTag :=
  [.extract, .guardAfter, .replace, .insertAfter, .insertBefore, .remove]

def FixTag.text : FixTag → String
  | .extract => "extract-to-variable-before"
  | .guardAfter => "insert-guard-after"
  | .replace => "replace-in-place"
  | .insertAfter => "insert-statements-after"
  | .insertBefore => "insert-statements-before"
  | .remove => "remove-statement"

def FixKind.tag : FixKind → FixTag
  | guardAfter _ _ => .guardAfter
  | extract _ => .extract
  | replace _ _ => .replace
  | insertAfter _ => .insertAfter
  | insertBefore _ => .insertBefore
  | remove => .remove

/-- A fix to be applied when the visit of a block ends. -/
structure PendingFix where
  /-- The statement of the block that the fix is placed against. -/
  anchor : Stmt
  /-- The expression that the fix is about. -/
  tainted : Expr
  /-- The directory of a guard. -/
  parent : Option Expr
  kind : FixKind

namespace PendingFix

/-- Do two fixes take each other's place? There is one fix of a sort for an
anchor, and one replacement for each expression in it. -/
def supersedes (new old : PendingFix) : Bool :=
  new.anchor.same old.anchor && new.kind.tag == old.kind.tag &&
    (new.kind.tag != .replace || new.tainted.same old.tainted)

end PendingFix

/-- The fixes noted on one frame, in the order they were recorded. -/
structure PendingFixes where
  fixes : List PendingFix

namespace PendingFixes

def empty : PendingFixes := ⟨[]⟩

/-- Adds a fix in place of the one it supersedes. -/
def add (pending : PendingFixes) (fix : PendingFix) : PendingFixes :=
  ⟨pending.fixes.filter (!fix.supersedes ·) ++ [fix]⟩

/-- The fixes in the order they are applied in; those of one sort stay in the
order they were recorded in. -/
def ordered (pending : PendingFixes) : List PendingFix :=
  FixTag.all.flatMap fun tag => pending.fixes.filter (·.kind.tag == tag)

end PendingFixes

end JavaMend
