/-!
# Flow states

What is known about the locals on one control path: which of them hold the
value that is followed, and which of those a guard on the path has covered
since they were last assigned. A local is live if it holds the value and is
not covered.

Both sets are lists without repetitions; the order of a list means nothing,
and two states are equal, in the sense of `==`, if their sets are.
-/

namespace JavaMend

/-- The locals that hold the followed value on one path. -/
structure FlowState where
  tainted : List String
  sanitized : List String

/-- Do two lists have the same members? -/
def sameMembers (a b : List String) : Bool := a.all b.contains && b.all a.contains

/-- Equality of sets, not of the lists that represent them. -/
instance : BEq FlowState where
  beq a b := sameMembers a.tainted b.tainted && sameMembers a.sanitized b.sanitized

namespace FlowState

/-- Nothing holds the value. -/
def empty : FlowState := ⟨[], []⟩

/-- The local holds the value and no guard covers it. -/
def isLive (s : FlowState) (name : String) : Bool :=
  s.tainted.contains name && !s.sanitized.contains name

def isTainted (s : FlowState) (name : String) : Bool := s.tainted.contains name

/-- The local is assigned the value. -/
def taint (s : FlowState) (name : String) : FlowState :=
  { tainted := s.tainted.insert name, sanitized := s.sanitized.filter (· != name) }

/-- The local is assigned something else. -/
def clear (s : FlowState) (name : String) : FlowState :=
  { tainted := s.tainted.filter (· != name), sanitized := s.sanitized.filter (· != name) }

/-- The local is assigned the value, or something else. -/
def assign (s : FlowState) (name : String) (tainted : Bool) : FlowState :=
  if tainted then s.taint name else s.clear name

/-- A guard covers the local; nothing changes for one that does not hold the
value. -/
def sanitize (s : FlowState) (name : String) : FlowState :=
  if s.tainted.contains name then { s with sanitized := s.sanitized.insert name } else s

/-- How many locals are live. -/
def liveCount (s : FlowState) : Nat := (s.tainted.filter fun n => !s.sanitized.contains n).length

/-- Where two paths meet, a local holds the value if it does on one of them,
and it is covered only if it is live on neither. -/
def join (a b : FlowState) : FlowState :=
  let tainted := a.tainted ++ b.tainted.filter fun n => !a.tainted.contains n
  { tainted, sanitized := tainted.filter fun n => !a.isLive n && !b.isLive n }

/-- The join of states that may be missing: a missing state is that of a path
nothing arrives on. -/
def merge : Option FlowState → Option FlowState → Option FlowState
  | some a, some b => some (a.join b)
  | some a, none => some a
  | none, b => b

end FlowState

end JavaMend
