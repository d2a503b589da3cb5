import JavaMend.Flow.Walk
import Mathlib.Data.Set.Basic

/-!
# Courses

A course is one way in which control can go through a body. Where a walk merges
what it knows, a course decides: it takes one branch of every condition and goes
round every loop so and so often, with one set of locals that hold the followed
value. It records the expressions that carry the value on the way.

`Ways α` is a part of a body as seen by courses: from the locals that hold the
value before it, all the steps that it can take. A course that goes round a loop
once more can always be looked at before it has left the loop; it then ends in
`Ending.circles`.

There is no rule for `try`: a statement of that form has no course.
-/

namespace JavaMend

/-- Which locals hold the followed value at a point of a course. -/
abbrev Live := String → Bool

namespace Live

/-- No local holds the value. -/
def nothing : Live := fun _ => false

/-- The last write to a local wins. -/
def assign (live : Live) (name : String) (value : Bool) : Live :=
  fun x => if x = name then value else live x

@[simp] theorem assign_self (live : Live) (name : String) (value : Bool) :
    live.assign name value name = value := if_pos rfl

theorem assign_of_ne (live : Live) {name x : String} (ne : x ≠ name) (value : Bool) :
    live.assign name value x = live x := if_neg ne

/-- The locals without some that a guard covers. -/
def drop (live : Live) (names : List String) : Live := fun x => live x && !names.contains x

end Live

/-- What a course does in a part of a body. -/
structure Step (α : Type) where
  value : α
  /-- The locals that hold the value afterwards. -/
  live : Live
  /-- The expressions whose value carried the flow, in order. -/
  carried : List Occurrence

/-- All steps that a part of a body can take. -/
def Ways (α : Type) : Type := Live → Set (Step α)

namespace Ways

variable {α β : Type}

instance : Monad Ways where
  pure a := fun live => {⟨a, live, []⟩}
  bind first rest := fun live =>
    {r | ∃ a ∈ first live, ∃ b ∈ rest a.value a.live,
      r = ⟨b.value, b.live, a.carried ++ b.carried⟩}

instance : LawfulMonad Ways := LawfulMonad.mk' Ways
  (by
    intro α ways
    funext live
    ext r
    constructor
    · intro h
      obtain ⟨a, ha, _, rfl, rfl⟩ := h
      rwa [List.append_nil]
    · intro hr
      exact ⟨r, hr, _, rfl, by rw [List.append_nil]; rfl⟩)
  (by
    intro α β a rest
    funext live
    ext r
    constructor
    · intro h
      obtain ⟨_, rfl, b, hb, rfl⟩ := h
      exact hb
    · intro hr
      exact ⟨_, rfl, r, hr, rfl⟩)
  (by
    intro α β γ first next last
    funext live
    ext r
    constructor
    · intro h
      obtain ⟨_, ⟨a, ha, b, hb, rfl⟩, c, hc, rfl⟩ := h
      exact ⟨a, ha, _, ⟨b, hb, c, hc, rfl⟩, by rw [List.append_assoc]⟩
    · intro h
      obtain ⟨a, ha, _, ⟨b, hb, c, hc, rfl⟩, rfl⟩ := h
      exact ⟨_, ⟨a, ha, b, hb, rfl⟩, c, hc, by rw [List.append_assoc]⟩)

/-- Does a local hold the value? -/
def read (name : String) : Ways Bool := fun live => {⟨live name, live, []⟩}

def assign (name : String) (value : Bool) : Ways Unit :=
  fun live => {⟨(), live.assign name value, []⟩}

def drop (names : List String) : Ways Unit := fun live => {⟨(), live.drop names, []⟩}

/-- An expression carries the value. -/
def carry (node : Occurrence) : Ways Unit := fun live => {⟨(), live, [node]⟩}

/-- One of two ways is taken. -/
def either (first second : Ways α) : Ways α := fun live => first live ∪ second live

end Ways

/-- How control leaves a statement. -/
inductive Ending where
  | falls
  | breaks
  | continues
  /-- It leaves the body, by `return` or `throw`. -/
  | leaves
  /-- It has not left: it is at the head of a loop. -/
  | circles
deriving DecidableEq

/-- Going round a loop. A round ends at the head again or leaves the loop. -/
inductive Rounds (round : Ways (Option Ending)) : Live → Step Ending → Prop
  | circling (live : Live) : Rounds round live ⟨.circles, live, []⟩
  | out {live : Live} {r : Step (Option Ending)} {ending : Ending} (turn : r ∈ round live)
      (value : r.value = some ending) : Rounds round live ⟨ending, r.live, r.carried⟩
  | again {live : Live} {r : Step (Option Ending)} {q : Step Ending} (turn : r ∈ round live)
      (value : r.value = none) (more : Rounds round r.live q) :
      Rounds round live ⟨q.value, q.live, r.carried ++ q.carried⟩

def Ways.rounds (round : Ways (Option Ending)) : Ways Ending :=
  fun live => {r | Rounds round live r}

namespace FlowSpec

/-! ## Conditions -/

/-- The locals that a condition covers by coming out as `branch`, where the
condition is no composition of others. -/
def droppedBy (spec : FlowSpec) (here : List Node) (branch : Bool) (e : Expr) : List String :=
  match spec.sanitizes with
  | none => []
  | some sanitizes => if sanitizes ⟨e, ⟨here⟩⟩ branch then e.localReads else []

/-- The locals that a condition covers by coming out as `branch`. -/
def dropped (spec : FlowSpec) (above : List Node) (branch : Bool) (e : Expr) : List String :=
  let here := Node.expr e :: above
  match e with
  | ⟨_, _, .parens inner⟩ => spec.dropped here branch inner
  | ⟨_, _, .unary .not operand⟩ => spec.dropped here (!branch) operand
  | ⟨_, _, .binary op left right⟩ =>
    if (op == .and && branch) || (op == .or && !branch) then
      spec.dropped here branch left ++ spec.dropped here branch right
    else spec.droppedBy here branch e
  | e => spec.droppedBy here branch e

/-! ## Expressions -/

/-- Does an expression carry the value whenever a part of it does? -/
def passesOn (spec : FlowSpec) (e : Expr) : Bool :=
  match e.form with
  | .field _ _ => spec.kind == .taint
  | .call _ _ _ _ => spec.kind == .taint
  | .create _ _ _ => spec.kind == .taint
  | .binary op _ _ => spec.kind == .taint && op == .add && e.ty.isString
  | .parens _ => true
  | .cast _ _ => true
  | _ => false

/-- Does an assignment give the value to a local? A plain one does if what is
assigned carries it; a compound one makes something new of both sides. -/
def assigns (spec : FlowSpec) (op : Option BinaryOp) (before value : Bool) : Bool :=
  match op with
  | none => value
  | some _ => spec.kind == .taint && (before || value)

/-- The end of an evaluation: an expression carries the value if its parts make
it do so or if it is where the value starts. -/
def settleWays (node : Occurrence) (isSource derived : Bool) : Ways Bool :=
  if derived || isSource then do
    Ways.carry node
    pure true
  else pure false

mutual

/-- The ways to evaluate an expression: does its value carry the flow? -/
def evalWays (spec : FlowSpec) (source : Expr) (above : List Node) (e : Expr) : Ways Bool :=
  let here := Node.expr e :: above
  let derived : Ways Bool := match e with
    | ⟨_, _, .ident name none⟩ => Ways.read name
    | ⟨_, _, .ident _ (some _)⟩ => pure false
    | ⟨_, _, .literal _⟩ => pure false
    | ⟨_, _, .field target _⟩ => do
      pure (spec.passesOn e && (← spec.evalWays source here target))
    | ⟨_, _, .call none _ args _⟩ => do
      pure (spec.passesOn e && (← spec.anyWays source here args))
    | ⟨_, _, .call (some receiver) _ args _⟩ => do
      let receiver ← spec.evalWays source here receiver
      let args ← spec.anyWays source here args
      pure (spec.passesOn e && (receiver || args))
    | ⟨_, _, .create _ args _⟩ => do
      pure (spec.passesOn e && (← spec.anyWays source here args))
    | ⟨_, _, .array _ size⟩ => do
      pure (spec.passesOn e && (← spec.evalWays source here size))
    | ⟨_, _, .binary _ left right⟩ => do
      let left ← spec.evalWays source here left
      let right ← spec.evalWays source here right
      pure (spec.passesOn e && (left || right))
    | ⟨_, _, .unary _ operand⟩ => do
      pure (spec.passesOn e && (← spec.evalWays source here operand))
    | ⟨_, _, .assign op target value⟩ =>
      match target.localName? with
      | none => do
        let _ ← spec.evalWays source here target
        spec.evalWays source here value
      | some name => do
        let before ← Ways.read name
        let value ← spec.evalWays source here value
        Ways.assign name (spec.assigns op before value)
        pure (spec.assigns op before value)
    | ⟨_, _, .parens inner⟩ => do
      pure (spec.passesOn e && (← spec.evalWays source here inner))
    | ⟨_, _, .cast _ operand⟩ => do
      pure (spec.passesOn e && (← spec.evalWays source here operand))
    | ⟨_, _, .ternary condition onTrue onFalse⟩ => do
      let _ ← spec.evalWays source here condition
      Ways.either
        (do Ways.drop (spec.dropped here true condition); spec.evalWays source here onTrue)
        (do Ways.drop (spec.dropped here false condition); spec.evalWays source here onFalse)
  derived >>= settleWays ⟨e, ⟨here⟩⟩ (e.same source)

/-- The ways to evaluate expressions one after the other: does one of them
carry the flow? -/
def anyWays (spec : FlowSpec) (source : Expr) (above : List Node) (es : List Expr) : Ways Bool :=
  match es with
  | [] => pure false
  | e :: rest => do
    let first ← spec.evalWays source above e
    let more ← spec.anyWays source above rest
    pure (first || more)

end

/-! ## Statements -/

/-- The ways to declare variables. -/
def declareWays (spec : FlowSpec) (source : Expr) (above : List Node) :
    List Variable → Ways Unit
  | [] => pure ()
  | v :: rest => do
    let value ← match v.init with
      | some init => spec.evalWays source (.var v :: above) init
      | none => pure false
    Ways.assign v.name value
    spec.declareWays source above rest

/-- What comes after a statement: the next one, if control falls through. -/
def thenWays (next : Ways Ending) : Ending → Ways Ending
  | .falls => next
  | ending => pure ending

/-- What is left of a round after the body of the loop has ended. -/
def closeRound (next : Ways (Option Ending)) : Ending → Ways (Option Ending)
  | .falls => next
  | .continues => next
  | .breaks => pure (some .falls)
  | ending => pure (some ending)

/-- A round of a `while` or `for` loop: the condition, the body, the updates. -/
def loopWays (spec : FlowSpec) (source : Expr) (here : List Node) (condition : Option Expr)
    (update : List Expr) (body : Ways Ending) : Ways (Option Ending) :=
  let turn : Ways (Option Ending) := do
    closeRound (do let _ ← spec.anyWays source here update; pure none) (← body)
  match condition with
  | none => turn
  | some c => do
    let _ ← spec.evalWays source here c
    Ways.either (do Ways.drop (spec.dropped here true c); turn)
      (do Ways.drop (spec.dropped here false c); pure (some .falls))

/-- A round of a loop over items. After it there is a next item or there is
none. -/
def itemWays (item : String) (value : Bool) (body : Ways Ending) : Ways (Option Ending) := do
  Ways.assign item value
  closeRound (Ways.either (pure none) (pure (some .falls))) (← body)

mutual

/-- The ways through a statement. -/
def execWays (spec : FlowSpec) (source : Expr) (above : List Node) (stmt : Stmt) : Ways Ending :=
  let here := Node.stmt stmt :: above
  match stmt with
  | ⟨_, .declare decl⟩ => do
    spec.declareWays source here decl.vars
    return .falls
  | ⟨_, .expr e⟩ => do
    let _ ← spec.evalWays source here e
    return .falls
  | ⟨_, .ifElse condition onTrue none⟩ => do
    let _ ← spec.evalWays source here condition
    Ways.either
      (do Ways.drop (spec.dropped here true condition); spec.execWays source here onTrue)
      (do Ways.drop (spec.dropped here false condition); return .falls)
  | ⟨_, .ifElse condition onTrue (some onFalse)⟩ => do
    let _ ← spec.evalWays source here condition
    Ways.either
      (do Ways.drop (spec.dropped here true condition); spec.execWays source here onTrue)
      (do Ways.drop (spec.dropped here false condition); spec.execWays source here onFalse)
  | ⟨_, .whileLoop condition body⟩ =>
    Ways.rounds (spec.loopWays source here (some condition) [] (spec.execWays source here body))
  | ⟨_, .forLoop init condition update body⟩ =>
    spec.execAllWays source here init >>= thenWays
      (Ways.rounds (spec.loopWays source here condition update (spec.execWays source here body)))
  | ⟨_, .forEach _ item iterable body⟩ => do
    let value ← spec.evalWays source here iterable
    Ways.either (pure .falls)
      (Ways.rounds (itemWays item.name value (spec.execWays source here body)))
  | ⟨_, .tryCatch _ _ _ _⟩ => fun _ => ∅
  | ⟨_, .block body⟩ => spec.blockWays source here body
  | ⟨_, .returnStmt value⟩ => do
    let _ ← spec.anyWays source here value.toList
    return .leaves
  | ⟨_, .throwStmt value⟩ => do
    let _ ← spec.evalWays source here value
    return .leaves
  | ⟨_, .breakStmt⟩ => return .breaks
  | ⟨_, .continueStmt⟩ => return .continues
  | ⟨_, .method _ _⟩ => return .falls
  | ⟨_, .cls _ _⟩ => return .falls

/-- The ways through statements one after the other, as far as control gets. -/
def execAllWays (spec : FlowSpec) (source : Expr) (above : List Node) (stmts : List Stmt) :
    Ways Ending :=
  match stmts with
  | [] => return .falls
  | stmt :: rest =>
    spec.execWays source above stmt >>= thenWays (spec.execAllWays source above rest)

/-- The ways through the statements of a block. -/
def blockWays (spec : FlowSpec) (source : Expr) (above : List Node) (block : Block) :
    Ways Ending :=
  let here := Node.block block :: above
  match block with
  | ⟨_, _, stmts⟩ => spec.execAllWays source here stmts

end

end FlowSpec

end JavaMend
