import JavaMend.Flow.Query

/-!
# Following a value

A forward walk over the body of one method or initializer. There is no control
flow graph: statements are interpreted in order, over one `FlowState` a path.

- A branch starts from the state that the condition leaves on its side, and a
  branch that completes abruptly does not arrive at the join.
- The body of a loop is walked again until the state at its head no longer
  changes, or the limit is reached.
- The last write to a local wins; assigning something else ends the flow.
- Nested methods and classes are bodies of their own and passed over.

Each statement answers its `Exits`: the states in which control leaves it by
falling through, by `break` and by `continue`. A loop takes the last two in.

The walk carries a `Trace` of what it has found. Where it stands is an
argument of every function, the nodes from the current one outward, so that a
position is forgotten by returning from it.
-/

namespace JavaMend

/-- What stays the same during a walk. -/
structure FlowRun where
  spec : FlowSpec
  limits : FlowLimits
  /-- Where the value starts. -/
  source : Expr
  /-- Is one sink enough? -/
  stopAtFirst : Bool

/-- What a walk has found. -/
structure Trace where
  /-- The expressions offered to the sink predicate, each once. -/
  offered : List Occurrence
  /-- Those of them that are sinks, in the order they were found. -/
  sinks : List Occurrence
  /-- The conditions the sanitizer was asked about, with the branch. -/
  guards : List (Occurrence × Bool)

/-- A part of a walk. -/
abbrev FlowM := StateM Trace

/-- The states in which control leaves a statement. -/
structure Exits where
  /-- By falling through to the next statement. -/
  normal : Option FlowState
  breaks : Option FlowState
  continues : Option FlowState

namespace Exits

/-- Control only falls through. -/
def falls (state : Option FlowState) : Exits := ⟨state, none, none⟩

/-- What follows `first`, with the jumps out of `first` kept. -/
def after (first next : Exits) : Exits :=
  { normal := next.normal
    breaks := FlowState.merge first.breaks next.breaks
    continues := FlowState.merge first.continues next.continues }

end Exits

namespace FlowRun

/-- Has a sink been found, and is one enough? -/
def isDone (run : FlowRun) : FlowM Bool := do
  return run.stopAtFirst && !(← get).sinks.isEmpty

def isTaint (run : FlowRun) : Bool := run.spec.kind == .taint

/-! ## Conditions -/

/-- The state for the paths on which the condition, which is no composition of
others, came out as `branch`. -/
def assumeAtom (run : FlowRun) (here : List Node) (e : Expr) (branch : Bool) (s : FlowState) :
    FlowM FlowState := do
  match run.spec.sanitizes with
  | none => return s
  | some sanitizes =>
    if s.liveCount == 0 then return s
    else
      let guard : Occurrence := ⟨e, ⟨here⟩⟩
      modify fun t => { t with guards := t.guards ++ [(guard, branch)] }
      return if sanitizes guard branch then e.localReads.foldl FlowState.sanitize s else s

/-- The state for the paths on which a condition came out as `branch`.
Parentheses and negations are seen through; of a conjunction that holds, and of
a disjunction that does not, both sides count. -/
def assume (run : FlowRun) (above : List Node) (branch : Bool) (e : Expr) (s : FlowState) :
    FlowM FlowState :=
  let here := Node.expr e :: above
  match e with
  | ⟨_, _, .parens inner⟩ => run.assume here branch inner s
  | ⟨_, _, .unary .not operand⟩ => run.assume here (!branch) operand s
  | ⟨_, _, .binary op left right⟩ =>
    if (op == .and && branch) || (op == .or && !branch) then do
      run.assume here branch right (← run.assume here branch left s)
    else run.assumeAtom here e branch s
  | e => run.assumeAtom here e branch s

/-! ## Expressions -/

/-- Offers an expression that carries the value to the sink predicate, unless
it was offered before. -/
def offer (run : FlowRun) (here : List Node) (e : Expr) : FlowM Unit :=
  modify fun t =>
    if t.offered.any (·.expr.same e) then t
    else
      let node : Occurrence := ⟨e, ⟨here⟩⟩
      { t with
        offered := t.offered ++ [node]
        sinks := if run.spec.isSink node then t.sinks ++ [node] else t.sinks }

mutual

/-- Walks an expression in evaluation order: does its value carry the flow, and
what is the state after it? -/
def eval (run : FlowRun) (above : List Node) (e : Expr) (s : FlowState) :
    FlowM (Bool × FlowState) := do
  if ← run.isDone then return (false, s)
  let here := Node.expr e :: above
  let (derived, s) ← match e with
    | ⟨_, _, .ident name none⟩ => pure (s.isLive name, s)
    | ⟨_, _, .ident _ (some _)⟩ => pure (false, s)
    | ⟨_, _, .literal _⟩ => pure (false, s)
    | ⟨_, _, .field target _⟩ => do
      let (target, s) ← run.eval here target s
      pure (run.isTaint && target, s)
    | ⟨_, _, .call none _ args _⟩ => do
      let (args, s) ← run.evalAny here args s
      pure (run.isTaint && args, s)
    | ⟨_, _, .call (some receiver) _ args _⟩ => do
      let (receiver, s) ← run.eval here receiver s
      let (args, s) ← run.evalAny here args s
      pure (run.isTaint && (receiver || args), s)
    | ⟨_, _, .create _ args _⟩ => do
      let (args, s) ← run.evalAny here args s
      pure (run.isTaint && args, s)
    | ⟨_, _, .array _ size⟩ => do
      let (_, s) ← run.eval here size s
      pure (false, s)
    | ⟨_, ty, .binary op left right⟩ => do
      let (left, s) ← run.eval here left s
      let (right, s) ← run.eval here right s
      pure (run.isTaint && op == .add && ty.isString && (left || right), s)
    | ⟨_, _, .unary _ operand⟩ => do
      let (_, s) ← run.eval here operand s
      pure (false, s)
    | ⟨_, _, .assign op target value⟩ =>
      match target.localName? with
      | none => do
        let (_, s) ← run.eval here target s
        run.eval here value s
      | some name => do
        let wasLive := s.isLive name
        let (value, s) ← run.eval here value s
        let result := match op with
          | none => value
          | some _ => run.isTaint && (wasLive || value)
        pure (result, s.assign name result)
    | ⟨_, _, .parens inner⟩ => run.eval here inner s
    | ⟨_, _, .cast _ operand⟩ => run.eval here operand s
    | ⟨_, _, .ternary condition onTrue onFalse⟩ => do
      let (_, s) ← run.eval here condition s
      let (yes, whenTrue) ← run.eval here onTrue (← run.assume here true condition s)
      let (no, whenFalse) ← run.eval here onFalse (← run.assume here false condition s)
      pure (yes || no, whenTrue.join whenFalse)
  let tainted := derived || e.same run.source
  if tainted then run.offer here e
  return (tainted, s)

/-- Walks expressions one after the other: does one of them carry the flow? -/
def evalAny (run : FlowRun) (above : List Node) (es : List Expr) (s : FlowState) :
    FlowM (Bool × FlowState) :=
  match es with
  | [] => pure (false, s)
  | e :: rest => do
    let (first, s) ← run.eval above e s
    let (more, s) ← run.evalAny above rest s
    return (first || more, s)

end

/-! ## Statements -/

/-- The state after declaring variables. -/
def declare (run : FlowRun) (above : List Node) (vars : List Variable) (s : FlowState) :
    FlowM FlowState :=
  match vars with
  | [] => pure s
  | v :: rest => do
    let (tainted, s) ← match v.init with
      | some init => run.eval (.var v :: above) init s
      | none => pure (false, s)
    run.declare above rest (s.assign v.name tainted)

/-- The state after the declarations of several groups of variables. -/
def declareAll (run : FlowRun) (above : List Node) (decls : List (Declaration Variable))
    (s : FlowState) : FlowM FlowState :=
  run.declare above (decls.flatMap (·.vars)) s

/-- Walks a loop until the state at its head no longer changes. One round takes
the state at the head and what has left the loop so far, and answers what has
left it by then and what comes back to the head. -/
def iterate (run : FlowRun)
    (round : FlowState → Option FlowState → FlowM (Option FlowState × Option FlowState)) :
    Nat → FlowState → Option FlowState → FlowM (Option FlowState)
  | 0, _, exit => return exit
  | n + 1, head, exit => do
    let (exit, back) ← round head exit
    let next := match back with
      | some back => head.join back
      | none => head
    if next == head || (← run.isDone) then return exit
    else run.iterate round n next exit

/-- The part of a round before the body: the state in which the body is
entered, and what has left the loop when its condition fails. -/
def enterLoop (run : FlowRun) (here : List Node) (condition : Option Expr) (head : FlowState)
    (exit : Option FlowState) : FlowM (FlowState × Option FlowState) :=
  match condition with
  | none => return (head, exit)
  | some c => do
    let (_, s) ← run.eval here c head
    let inside ← run.assume here true c s
    let outside ← run.assume here false c s
    return (inside, FlowState.merge exit (some outside))

/-- A round of a `while` or `for` loop around a walk of its body. -/
def loopRound (run : FlowRun) (here : List Node) (condition : Option Expr) (update : List Expr)
    (body : FlowState → FlowM Exits) (head : FlowState) (exit : Option FlowState) :
    FlowM (Option FlowState × Option FlowState) := do
  let (inside, exit) ← run.enterLoop here condition head exit
  let exits ← body inside
  let back ← match FlowState.merge exits.normal exits.continues with
    | some back => do pure (some (← run.evalAny here update back).2)
    | none => pure none
  return (FlowState.merge exit exits.breaks, back)

/-- A round of a loop over items around a walk of its body. -/
def itemRound (item : String) (tainted : Bool) (body : FlowState → FlowM Exits)
    (head : FlowState) (exit : Option FlowState) :
    FlowM (Option FlowState × Option FlowState) := do
  let exits ← body (head.assign item tainted)
  let back := FlowState.merge exits.normal exits.continues
  return (FlowState.merge (FlowState.merge exit exits.breaks) back, back)

mutual

/-- Walks a statement. -/
def exec (run : FlowRun) (above : List Node) (depth : Nat) (stmt : Stmt) (s : FlowState) :
    FlowM Exits := do
  if (← run.isDone) || run.limits.maxDepth ≤ depth then return .falls (some s)
  let here := Node.stmt stmt :: above
  match stmt with
  | ⟨_, .declare decl⟩ => return .falls (some (← run.declare here decl.vars s))
  | ⟨_, .expr e⟩ => return .falls (some (← run.eval here e s).2)
  | ⟨_, .ifElse condition onTrue none⟩ => do
    let (_, s) ← run.eval here condition s
    let yes ← run.exec here (depth + 1) onTrue (← run.assume here true condition s)
    let whenFalse ← run.assume here false condition s
    return yes.after (.falls (FlowState.merge yes.normal (some whenFalse)))
  | ⟨_, .ifElse condition onTrue (some onFalse)⟩ => do
    let (_, s) ← run.eval here condition s
    let yes ← run.exec here (depth + 1) onTrue (← run.assume here true condition s)
    let no ← run.exec here (depth + 1) onFalse (← run.assume here false condition s)
    return yes.after { no with normal := FlowState.merge yes.normal no.normal }
  | ⟨_, .whileLoop condition body⟩ => do
    let round := run.loopRound here (some condition) [] fun s => run.exec here (depth + 1) body s
    return .falls (← run.iterate round run.limits.maxLoopIterations s none)
  | ⟨_, .forLoop init condition update body⟩ => do
    let first ← run.execAll here (depth + 1) init s
    match first.normal with
    | none => return first
    | some s =>
      let round := run.loopRound here condition update fun s => run.exec here (depth + 1) body s
      return first.after (.falls (← run.iterate round run.limits.maxLoopIterations s none))
  | ⟨_, .forEach _ item iterable body⟩ => do
    let (tainted, s) ← run.eval here iterable s
    let round := itemRound item.name tainted fun s => run.exec here (depth + 1) body s
    return .falls (← run.iterate round run.limits.maxLoopIterations s (some s))
  | ⟨_, .tryCatch resources body catches finish⟩ => do
    let s ← run.declareAll here resources s
    let tried ← run.execBlock here (depth + 1) body s
    -- A handler may be entered from any point of the body.
    let handlerIn := match tried.normal with
      | some t => s.join t
      | none => s
    let caught ← run.execCatches here (depth + 1) catches handlerIn tried
    run.execFinish here (depth + 1) finish handlerIn caught
  | ⟨_, .block body⟩ => run.execBlock here (depth + 1) body s
  | ⟨_, .returnStmt value⟩ => do
    let _ ← run.evalAny here value.toList s
    return .falls none
  | ⟨_, .throwStmt value⟩ => do
    let _ ← run.eval here value s
    return .falls none
  | ⟨_, .breakStmt⟩ => return ⟨none, some s, none⟩
  | ⟨_, .continueStmt⟩ => return ⟨none, none, some s⟩
  | ⟨_, .method _ _⟩ => return .falls (some s)
  | ⟨_, .cls _ _⟩ => return .falls (some s)

/-- Walks statements one after the other, as far as control gets. -/
def execAll (run : FlowRun) (above : List Node) (depth : Nat) (stmts : List Stmt)
    (s : FlowState) : FlowM Exits :=
  match stmts with
  | [] => return .falls (some s)
  | stmt :: rest => do
    if ← run.isDone then return .falls (some s)
    let first ← run.exec above depth stmt s
    match first.normal with
    | none => return first
    | some s => return first.after (← run.execAll above depth rest s)

/-- Walks the statements of a block. -/
def execBlock (run : FlowRun) (above : List Node) (depth : Nat) (block : Block) (s : FlowState) :
    FlowM Exits :=
  let here := Node.block block :: above
  match block with
  | ⟨_, _, stmts⟩ => run.execAll here depth stmts s

/-- Walks handlers, each from the same state, and adds what leaves them to what
has left the body. -/
def execCatches (run : FlowRun) (above : List Node) (depth : Nat)
    (clauses : List (CatchClause Variable Block)) (s : FlowState) (out : Exits) : FlowM Exits :=
  match clauses with
  | [] => return out
  | ⟨_, _, parameter, body⟩ :: rest => do
    let caught ← run.execBlock above depth body (s.clear parameter.name)
    let out := out.after { caught with normal := FlowState.merge out.normal caught.normal }
    run.execCatches above depth rest s out

/-- Walks a `finally` block. When nothing falls through the rest of the
statement it is walked from the state of a handler, and nothing falls through
it either. -/
def execFinish (run : FlowRun) (above : List Node) (depth : Nat) (finish : Option Block)
    (handlerIn : FlowState) (out : Exits) : FlowM Exits :=
  match finish with
  | none => return out
  | some body =>
    match out.normal with
    | some s => return out.after (← run.execBlock above depth body s)
    | none => do
      let exits ← run.execBlock above depth body handlerIn
      return out.after { exits with normal := none }

end

end FlowRun

/-! ## Queries -/

/-- A query: the path to where the value starts, and how far to follow it. -/
structure FlowQuery where
  start : Path
  limits : FlowLimits

namespace FlowQuery

/-- What a walk finds. A start that is no source, or that stands outside of
every body, reaches nothing. -/
def trace (query : FlowQuery) (spec : FlowSpec) (stopAtFirst : Bool) : Trace :=
  match query.start.value? with
  | some (.expr source) =>
    if spec.isSource ⟨source, query.start⟩ then
      match query.start.outerBody? with
      | some (index, body) =>
        let run : FlowRun := { spec, limits := query.limits, source, stopAtFirst }
        (run.execAll (query.start.upTo (index + 1)).outward 0 body.stmts .empty ⟨[], [], []⟩).2
      | none => ⟨[], [], []⟩
    else ⟨[], [], []⟩
  | _ => ⟨[], [], []⟩

/-- All sinks that the value reaches without crossing a sanitizing guard. -/
def findSinks (query : FlowQuery) (spec : FlowSpec) : FlowResult :=
  let t := query.trace spec false
  { source := query.start, sinks := t.sinks, guards := t.guards }

/-- Does the value reach a sink? The walk ends at the first. -/
def reachesSink (query : FlowQuery) (spec : FlowSpec) : Bool :=
  !(query.trace spec true).sinks.isEmpty

end FlowQuery

end JavaMend
