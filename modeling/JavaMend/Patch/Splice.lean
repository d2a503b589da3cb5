import JavaMend.Patch.Template

/-!
# Splicing

Writing a fragment into a block, at a place that is given relative to one of
the block's statements.
-/

namespace JavaMend

/-- A place relative to a statement. -/
inductive SpliceSide where
  | before
  | after
  | replace
deriving DecidableEq

/-- A place in a block: the anchor is one of its statements. -/
structure SplicePlace where
  side : SpliceSide
  anchor : Stmt

/-- How fragments are written into blocks. -/
structure Splicer where
  splice : Block → Fragment → SplicePlace → ExceptT SpliceError Fresh Block

/-- The list with `news` written before, after or in place of its element at an
index. -/
def spliceList {α : Type} (old : List α) (index : Nat) (side : SpliceSide) (news : List α) :
    List α :=
  match side with
  | .before => old.take index ++ news ++ old.drop index
  | .after => old.take (index + 1) ++ news ++ old.drop (index + 1)
  | .replace => old.take index ++ news ++ old.drop (index + 1)

/-- The statements that a fragment is at a place. An expression can only take
the place of an expression statement. -/
def Fragment.stmtsAt (fragment : Fragment) (place : SplicePlace) :
    ExceptT SpliceError Fresh (List Stmt) := do
  match fragment with
  | .statements stmts => return stmts
  | .expression e =>
    if place.side = .replace && place.anchor.expression?.isSome then
      return [← (Stmt.mkExpr e : Fresh Stmt)]
    else throw .misplacedExpression

/-- Writes a fragment into a block. -/
def Block.splice (block : Block) (fragment : Fragment) (place : SplicePlace) :
    ExceptT SpliceError Fresh Block := do
  match block.position? place.anchor with
  | none => throw (.strayAnchor block.stmts.length)
  | some index =>
    let news ← fragment.stmtsAt place
    (block.withStmts (spliceList block.stmts index place.side news) : Fresh Block)

namespace Splicer

/-- The splicer that writes wherever the block allows it. -/
def standard : Splicer := ⟨Block.splice⟩

/-- How a place is named in a refusal. -/
def sideName : SpliceSide → String
  | .before => "before"
  | .after => "after"
  | .replace => "replace"

/-- The splicer that refuses to write at some places. -/
def refusing (sides : List SpliceSide) : Splicer where
  splice block fragment place :=
    if sides.contains place.side then throw (.refused (sideName place.side ++ " is disabled"))
    else block.splice fragment place

end Splicer

end JavaMend
