import JavaMend.Text.Ordered

/-!
# Switching remediations on and off

Everything in the catalog runs, unless it is switched off by name, or unless
only some others are to run.
-/

namespace JavaMend

/-- Which remediations run. -/
structure RemediationControl where
  /-- If there is such a set, nothing outside of it runs. -/
  only : Option (List String)
  disabled : List String
deriving DecidableEq

namespace RemediationControl

/-- Everything runs. -/
def open_ : RemediationControl := { only := none, disabled := [] }

/-- Nothing but these run. -/
def onlyThese (ids : List String) : RemediationControl :=
  { only := some (orderedTexts ids), disabled := [] }

def enable (c : RemediationControl) (id : String) : RemediationControl :=
  { only := c.only.map (insertText id), disabled := c.disabled.filter (· != id) }

def disable (c : RemediationControl) (id : String) : RemediationControl :=
  { c with disabled := insertText id c.disabled }

def isEnabled (c : RemediationControl) (id : String) : Bool :=
  !c.disabled.contains id && c.only.all (·.contains id)

/-- The names that are mentioned, one twice if both sets have it. -/
def mentioned (c : RemediationControl) : List String := c.only.getD [] ++ c.disabled

end RemediationControl

end JavaMend
