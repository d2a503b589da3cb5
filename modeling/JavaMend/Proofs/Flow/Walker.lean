import JavaMend.Flow.Walk

/-!
# A walker that keeps its place

The walk of a body takes the place where it stands as an argument and answers the jumps
out of a statement. A walker can also keep both by hand: it has a stack that a node is
pushed on before it is walked and popped off after it, a counter of the statements around,
and a frame for every loop around, which collects the states that jump out of its body.

Here is the same walk written for such a walker. That it answers and finds the same, and
puts back what it has changed, is shown in `JavaMend.Proofs.Flow.Places`.
-/

namespace JavaMend

/-- The states in which the body of a loop was left by `break` and by `continue`. -/
structure LoopFrame where
  breaks : Option FlowState
  continues : Option FlowState

/-- A walker and what it has found. -/
structure Walker where
  /-- The nodes from the current one outward. -/
  stack : List Node
  /-- How many statements are being walked. -/
  depth : Nat
  /-- The loops around, the innermost first. -/
  loops : List LoopFrame
  trace : Trace

/-- A part of a walk by hand. -/
abbrev WalkerM := StateM Walker

namespace Walker

variable {α : Type}

/-! ## Keeping the place -/

/-- Does what is done at a place where the walker stands. -/
def here (action : List Node → FlowM α) : WalkerM α := do
  let w ← get
  let (answer, trace) := action w.stack w.trace
  set { w with trace }
  return answer

/-- Walks with a node on the stack. -/
def within (n : Node) (action : WalkerM α) : WalkerM α := do
  modify fun w => { w with stack := n :: w.stack }
  let answer ← action
  modify fun w => { w with stack := w.stack.tail }
  return answer

/-- Walks with one more statement counted. -/
def deeper (action : WalkerM α) : WalkerM α := do
  modify fun w => { w with depth := w.depth + 1 }
  let answer ← action
  modify fun w => { w with depth := w.depth - 1 }
  return answer

/-- The frames of loops after control has jumped out of a statement in them. A jump that
no loop is around of is lost. -/
def receive : List LoopFrame → Exits → List LoopFrame
  | [], _ => []
  | frame :: outer, exits =>
    { breaks := FlowState.merge frame.breaks exits.breaks
      continues := FlowState.merge frame.continues exits.continues } :: outer

/-- Control leaves a statement. -/
def leave (exits : Exits) : WalkerM (Option FlowState) := do
  modify fun w => { w with loops := receive w.loops exits }
  return exits.normal

/-- Walks the body of a loop with a frame of its own. -/
def inLoop (body : WalkerM (Option FlowState)) : WalkerM Exits := do
  modify fun w => { w with loops := ⟨none, none⟩ :: w.loops }
  let normal ← body
  let frame := (← get).loops.head?.getD ⟨none, none⟩
  modify fun w => { w with loops := w.loops.tail }
  return ⟨normal, frame.breaks, frame.continues⟩

def isDone (run : FlowRun) : WalkerM Bool := here fun _ => run.isDone

/-- Are statements passed over here? -/
def isDeep (run : FlowRun) : WalkerM Bool := return run.limits.maxDepth ≤ (← get).depth

section

variable {β : Type} (w : Walker)

theorem bind_apply (action : WalkerM α) (next : α → WalkerM β) :
    (action >>= next) w = next (action w).1 (action w).2 := rfl

theorem within_apply (n : Node) (action : WalkerM α) :
    within n action w =
      let r := action { w with stack := n :: w.stack }
      (r.1, { r.2 with stack := r.2.stack.tail }) := rfl

theorem deeper_apply (action : WalkerM α) :
    deeper action w =
      let r := action { w with depth := w.depth + 1 }
      (r.1, { r.2 with depth := r.2.depth - 1 }) := rfl

theorem inLoop_apply (body : WalkerM (Option FlowState)) :
    inLoop body w =
      let r := body { w with loops := ⟨none, none⟩ :: w.loops }
      let frame := r.2.loops.head?.getD ⟨none, none⟩
      (⟨r.1, frame.breaks, frame.continues⟩, { r.2 with loops := r.2.loops.tail }) := rfl

end

/-! ## Conditions and expressions -/

/-- The state for the paths on which a condition came out as `branch`. -/
def assume (run : FlowRun) (branch : Bool) (e : Expr) (s : FlowState) : WalkerM FlowState :=
  within (.expr e) <|
    match e with
    | ⟨_, _, .parens inner⟩ => assume run branch inner s
    | ⟨_, _, .unary .not operand⟩ => assume run (!branch) operand s
    | ⟨_, _, .binary op left right⟩ =>
      if (op == .and && branch) || (op == .or && !branch) then do
        assume run branch right (← assume run branch left s)
      else here fun stack => run.assumeAtom stack e branch s
    | e => here fun stack => run.assumeAtom stack e branch s

/-- Evaluates an expression around the evaluation of its parts. -/
def settle (run : FlowRun) (e : Expr) (s : FlowState) (parts : WalkerM (Bool × FlowState)) :
    WalkerM (Bool × FlowState) := do
  if ← isDone run then return (false, s)
  within (.expr e) do
    let (derived, s) ← parts
    let tainted := derived || e.same run.source
    if tainted then here fun stack => run.offer stack e
    return (tainted, s)

mutual

/-- Walks an expression in evaluation order. -/
def eval (run : FlowRun) (e : Expr) (s : FlowState) : WalkerM (Bool × FlowState) :=
  settle run e s <|
    match e with
    | ⟨_, _, .ident name none⟩ => pure (s.isLive name, s)
    | ⟨_, _, .ident _ (some _)⟩ => pure (false, s)
    | ⟨_, _, .literal _⟩ => pure (false, s)
    | ⟨_, _, .field target _⟩ => do
      let (target, s) ← eval run target s
      pure (run.isTaint && target, s)
    | ⟨_, _, .call none _ args _⟩ => do
      let (args, s) ← evalAny run args s
      pure (run.isTaint && args, s)
    | ⟨_, _, .call (some receiver) _ args _⟩ => do
      let (receiver, s) ← eval run receiver s
      let (args, s) ← evalAny run args s
      pure (run.isTaint && (receiver || args), s)
    | ⟨_, _, .create _ args _⟩ => do
      let (args, s) ← evalAny run args s
      pure (run.isTaint && args, s)
    | ⟨_, _, .array _ size⟩ => do
      let (_, s) ← eval run size s
      pure (false, s)
    | ⟨_, ty, .binary op left right⟩ => do
      let (left, s) ← eval run left s
      let (right, s) ← eval run right s
      pure (run.isTaint && op == .add && ty.isString && (left || right), s)
    | ⟨_, _, .unary _ operand⟩ => do
      let (_, s) ← eval run operand s
      pure (false, s)
    | ⟨_, _, .assign op target value⟩ =>
      match target.localName? with
      | none => do
        let (_, s) ← eval run target s
        eval run value s
      | some name => do
        let wasLive := s.isLive name
        let (value, s) ← eval run value s
        let result := match op with
          | none => value
          | some _ => run.isTaint && (wasLive || value)
        pure (result, s.assign name result)
    | ⟨_, _, .parens inner⟩ => eval run inner s
    | ⟨_, _, .cast _ operand⟩ => eval run operand s
    | ⟨_, _, .ternary condition onTrue onFalse⟩ => do
      let (_, s) ← eval run condition s
      let (yes, whenTrue) ← eval run onTrue (← assume run true condition s)
      let (no, whenFalse) ← eval run onFalse (← assume run false condition s)
      pure (yes || no, whenTrue.join whenFalse)

/-- Walks expressions one after the other. -/
def evalAny (run : FlowRun) (es : List Expr) (s : FlowState) : WalkerM (Bool × FlowState) :=
  match es with
  | [] => pure (false, s)
  | e :: rest => do
    let (first, s) ← eval run e s
    let (more, s) ← evalAny run rest s
    return (first || more, s)

end

/-! ## Statements -/

/-- The state after declaring variables. -/
def declare (run : FlowRun) (vars : List Variable) (s : FlowState) : WalkerM FlowState :=
  match vars with
  | [] => pure s
  | v :: rest => do
    let (tainted, s) ← within (.var v) <| match v.init with
      | some init => eval run init s
      | none => pure (false, s)
    declare run rest (s.assign v.name tainted)

/-- Walks a loop until the state at its head no longer changes. -/
def iterate (run : FlowRun)
    (round : FlowState → Option FlowState → WalkerM (Option FlowState × Option FlowState)) :
    Nat → FlowState → Option FlowState → WalkerM (Option FlowState)
  | 0, _, exit => return exit
  | n + 1, head, exit => do
    let (exit, back) ← round head exit
    let next := match back with
      | some back => head.join back
      | none => head
    if next == head || (← isDone run) then return exit
    else iterate run round n next exit

/-- The part of a round before the body. -/
def enterLoop (run : FlowRun) (condition : Option Expr) (head : FlowState)
    (exit : Option FlowState) : WalkerM (FlowState × Option FlowState) :=
  match condition with
  | none => return (head, exit)
  | some c => do
    let (_, s) ← eval run c head
    let inside ← assume run true c s
    let outside ← assume run false c s
    return (inside, FlowState.merge exit (some outside))

/-- A round of a `while` or `for` loop around a walk of its body. -/
def loopRound (run : FlowRun) (condition : Option Expr) (update : List Expr)
    (body : FlowState → WalkerM (Option FlowState)) (head : FlowState)
    (exit : Option FlowState) : WalkerM (Option FlowState × Option FlowState) := do
  let (inside, exit) ← enterLoop run condition head exit
  let exits ← inLoop (body inside)
  let back ← match FlowState.merge exits.normal exits.continues with
    | some back => do pure (some (← evalAny run update back).2)
    | none => pure none
  return (FlowState.merge exit exits.breaks, back)

/-- A round of a loop over items around a walk of its body. -/
def itemRound (item : String) (tainted : Bool) (body : FlowState → WalkerM (Option FlowState))
    (head : FlowState) (exit : Option FlowState) :
    WalkerM (Option FlowState × Option FlowState) := do
  let exits ← inLoop (body (head.assign item tainted))
  let back := FlowState.merge exits.normal exits.continues
  return (FlowState.merge (FlowState.merge exit exits.breaks) back, back)

/-- Walks a statement around the walk of its parts, unless the walk is over or the
statement is nested too deep. -/
def enter (run : FlowRun) (stmt : Stmt) (s : FlowState) (parts : WalkerM (Option FlowState)) :
    WalkerM (Option FlowState) :=
  within (.stmt stmt) do
    if (← isDone run) || (← isDeep run) then return some s
    deeper parts

mutual

/-- Walks a statement: the state in which control falls through it, if it does. -/
def exec (run : FlowRun) (stmt : Stmt) (s : FlowState) : WalkerM (Option FlowState) :=
  enter run stmt s <|
    match stmt with
    | ⟨_, .declare decl⟩ => return some (← declare run decl.vars s)
    | ⟨_, .expr e⟩ => return some (← eval run e s).2
    | ⟨_, .ifElse condition onTrue none⟩ => do
      let (_, s) ← eval run condition s
      let yes ← exec run onTrue (← assume run true condition s)
      let whenFalse ← assume run false condition s
      return FlowState.merge yes (some whenFalse)
    | ⟨_, .ifElse condition onTrue (some onFalse)⟩ => do
      let (_, s) ← eval run condition s
      let yes ← exec run onTrue (← assume run true condition s)
      let no ← exec run onFalse (← assume run false condition s)
      return FlowState.merge yes no
    | ⟨_, .whileLoop condition body⟩ =>
      let round := loopRound run (some condition) [] fun s => exec run body s
      iterate run round run.limits.maxLoopIterations s none
    | ⟨_, .forLoop init condition update body⟩ => do
      match ← execAll run init s with
      | none => return none
      | some s =>
        let round := loopRound run condition update fun s => exec run body s
        iterate run round run.limits.maxLoopIterations s none
    | ⟨_, .forEach _ item iterable body⟩ => do
      let (tainted, s) ← eval run iterable s
      let round := itemRound item.name tainted fun s => exec run body s
      iterate run round run.limits.maxLoopIterations s (some s)
    | ⟨_, .tryCatch resources body catches finish⟩ => do
      let s ← declare run (resources.flatMap (·.vars)) s
      let tried ← execBlock run body s
      let handlerIn := match tried with
        | some t => s.join t
        | none => s
      let caught ← execCatches run catches handlerIn tried
      execFinish run finish handlerIn caught
    | ⟨_, .block body⟩ => execBlock run body s
    | ⟨_, .returnStmt value⟩ => do
      let _ ← evalAny run value.toList s
      return none
    | ⟨_, .throwStmt value⟩ => do
      let _ ← eval run value s
      return none
    | ⟨_, .breakStmt⟩ => leave ⟨none, some s, none⟩
    | ⟨_, .continueStmt⟩ => leave ⟨none, none, some s⟩
    | ⟨_, .method _ _⟩ => return some s
    | ⟨_, .cls _ _⟩ => return some s

/-- Walks statements one after the other, as far as control gets. -/
def execAll (run : FlowRun) (stmts : List Stmt) (s : FlowState) : WalkerM (Option FlowState) :=
  match stmts with
  | [] => return some s
  | stmt :: rest => do
    if ← isDone run then return some s
    match ← exec run stmt s with
    | none => return none
    | some s => execAll run rest s

/-- Walks the statements of a block. -/
def execBlock (run : FlowRun) (block : Block) (s : FlowState) : WalkerM (Option FlowState) :=
  within (.block block) <|
    match block with
    | ⟨_, _, stmts⟩ => execAll run stmts s

/-- Walks handlers, each from the same state. -/
def execCatches (run : FlowRun) (clauses : List (CatchClause Variable Block)) (s : FlowState)
    (out : Option FlowState) : WalkerM (Option FlowState) :=
  match clauses with
  | [] => return out
  | ⟨_, _, parameter, body⟩ :: rest => do
    let caught ← execBlock run body (s.clear parameter.name)
    execCatches run rest s (FlowState.merge out caught)

/-- Walks a `finally` block. -/
def execFinish (run : FlowRun) (finish : Option Block) (handlerIn : FlowState)
    (out : Option FlowState) : WalkerM (Option FlowState) :=
  match finish with
  | none => return out
  | some body =>
    match out with
    | some s => execBlock run body s
    | none => do
      let _ ← execBlock run body handlerIn
      return none

end

end Walker

namespace FlowQuery

/-- What a query walks, if its start is a source that stands in a body. -/
def walked? (query : FlowQuery) (spec : FlowSpec) (stopAtFirst : Bool) :
    Option (FlowRun × Path × Block) :=
  match query.start.value? with
  | some (.expr source) =>
    if spec.isSource ⟨source, query.start⟩ then
      query.start.outerBody?.map fun (index, body) =>
        ({ spec, limits := query.limits, source, stopAtFirst }, query.start.upTo (index + 1), body)
    else none
  | _ => none

/-- What a query finds if its walker starts in the body, in no statement and in no loop. -/
def traceByHand (query : FlowQuery) (spec : FlowSpec) (stopAtFirst : Bool) : Trace :=
  match query.walked? spec stopAtFirst with
  | some (run, place, body) =>
    (Walker.execAll run body.stmts .empty ⟨place.outward, 0, [], ⟨[], [], []⟩⟩).2.trace
  | none => ⟨[], [], []⟩

theorem trace_eq (query : FlowQuery) (spec : FlowSpec) (stopAtFirst : Bool) :
    query.trace spec stopAtFirst =
      match query.walked? spec stopAtFirst with
      | some (run, place, body) =>
        (run.execAll place.outward 0 body.stmts .empty ⟨[], [], []⟩).2
      | none => ⟨[], [], []⟩ := by
  unfold trace walked?
  cases query.start.value? with
  | none => rfl
  | some n =>
    cases n with
    | expr source =>
      by_cases isSource : spec.isSource ⟨source, query.start⟩ = true
      · simp only [isSource, if_true]
        cases query.start.outerBody? <;> rfl
      · simp only [isSource]
        rfl
    | _ => rfl

end FlowQuery

end JavaMend
