/-!
# Refilling slots

Rebuilding a node hands out a list of replacement children to the node's
slots, first slot first. A `SlotM ν` action takes from the front of that
list. The slots of a node differ in what they can hold, so a slot looks at its
replacement through a `view`; a slot whose replacement is missing, or is
nothing the slot can hold, keeps what it held. A replacement that does not fit
is used up all the same: the next slot gets the next one.
-/

namespace JavaMend

/-- An action on the replacements not yet handed out. -/
abbrev SlotM (ν : Type) := StateM (List ν)

namespace SlotM

variable {ν α : Type}

/-- Refills one slot that held `old`. -/
def slot (view : ν → Option α) (old : α) : SlotM ν α := fun news =>
  match news with
  | [] => (old, [])
  | new :: rest => ((view new).getD old, rest)

/-- Refills a run of slots from the left. -/
def slots (view : ν → Option α) : List α → SlotM ν (List α)
  | [] => pure []
  | old :: olds => do return (← slot view old) :: (← slots view olds)

/-- Refills a slot that may be empty; an empty slot takes nothing and stays
empty. -/
def slot? (view : ν → Option α) : Option α → SlotM ν (Option α)
  | none => pure none
  | some old => do return some (← slot view old)

/-- The outcome of handing out `news`. -/
def fill (action : SlotM ν α) (news : List ν) : α := (action.run news).1

end SlotM

end JavaMend
