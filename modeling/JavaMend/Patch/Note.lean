import JavaMend.Patch.Imports
import JavaMend.Patch.Pending
import JavaMend.Traversal.Visitor

/-!
# Notes of a pass

What the visitors of a pass leave on the frames of their cursor: the pending
fixes of a block on the frame of the block, the imports that fixes ask for and
the findings of a search on the frame of the root. Besides these a note can be
a plain number or text.
-/

namespace JavaMend

/-- A place in the code that a search flagged. -/
structure Finding where
  /-- The remediation that looked for it. -/
  remediation : String
  /-- The names of the classes and the method around it. -/
  location : String
  /-- The flagged code. -/
  snippet : String
deriving DecidableEq

/-- The finding in one line. -/
def Finding.text (f : Finding) : String := s!"[{f.remediation}] {f.location}: {f.snippet}"

/-- What can be noted on a frame. -/
inductive Note where
  | number (value : Int)
  | text (value : String)
  | imports (set : ImportRequests)
  | fixes (pending : PendingFixes)
  | findings (found : List Finding)

namespace Note

/-- Numbers under a key. -/
def numberUnder (key : String) : Topic Note Int where
  key
  note := number
  read?
    | number value => some value
    | _ => none

/-- Texts under a key. -/
def textUnder (key : String) : Topic Note String where
  key
  note := text
  read?
    | text value => some value
    | _ => none

/-- The imports that fixes asked for. -/
def importTopic : Topic Note ImportRequests where
  key := "imports"
  note := imports
  read?
    | imports set => some set
    | _ => none

/-- The fixes of a block. -/
def fixTopic : Topic Note PendingFixes where
  key := "fixes"
  note := fixes
  read?
    | fixes pending => some pending
    | _ => none

/-- The findings of a search. -/
def findingTopic : Topic Note (List Finding) where
  key := "findings"
  note := findings
  read?
    | findings found => some found
    | _ => none

end Note

namespace Cursor

/-- Asks for the import of a class, on the frame of the root. -/
def requestImport (c : Cursor Note) (fqn : String) : Cursor Note :=
  (c.modifyAt 0 Note.importTopic .empty (·.add fqn)).2

/-- Asks for the import of some classes. -/
def requestImports (c : Cursor Note) (fqns : List String) : Cursor Note :=
  fqns.foldl requestImport c

/-- Takes the imports that were asked for. -/
def takeImports (c : Cursor Note) : ImportRequests × Cursor Note :=
  let (set, c) := c.takeAt 0 Note.importTopic
  (set.getD .empty, c)

/-- Notes a finding on the frame of the root, once. -/
def noteFinding (c : Cursor Note) (finding : Finding) : Cursor Note :=
  (c.modifyAt 0 Note.findingTopic [] fun found =>
    if found.contains finding then found else found ++ [finding]).2

/-- Takes the findings, in the order they were reported in. -/
def takeFindings (c : Cursor Note) : List Finding × Cursor Note :=
  let (found, c) := c.takeAt 0 Note.findingTopic
  (found.getD [], c)

/-- Notes a fix on the innermost frame whose block has the anchor of the fix,
or on the nearest block if none has it. There is nowhere to note it outside of
every block. -/
def noteFix (c : Cursor Note) (fix : PendingFix) : Bool × Cursor Note :=
  let holder := c.path.nearest? fun n => n.block?.bind (·.position? fix.anchor)
  match (holder.map (·.1)).or ((c.path.enclosing? .block).map (·.1)) with
  | none => (false, c)
  | some index =>
    let (noted, c) := c.modifyAt index Note.fixTopic .empty (·.add fix)
    (noted.isSome, c)

end Cursor

/-- A visit of a pass, with its own state `σ`. -/
abbrev PassM (σ : Type) := VisitM EngineError Note σ

namespace PassM

variable {σ α : Type}

/-- Asks for the imports of some classes. -/
def requestImports (fqns : List String) : PassM σ Unit :=
  VisitM.modifyCursor fun c => ((), c.requestImports fqns)

/-- Notes a fix; answers whether there was a block to note it on. -/
def noteFix (fix : PendingFix) : PassM σ Bool := VisitM.modifyCursor (·.noteFix fix)

/-- Makes nodes, or fails. -/
def make {ε : Type} (wrap : ε → EngineError) (action : ExceptT ε Fresh α) : PassM σ α := do
  match ← VisitM.fresh action.run with
  | .ok a => return a
  | .error e => throw (wrap e)

end PassM

end JavaMend
