import JavaMend.Proofs.Flow.Passing

/-!
# Handlers

The handlers of a `try` are entered in a join of two states: the one before the body
and the one in which control falls out of it. A local that is live in one of these is
live in every handler that does not take it for its parameter, and the sinks that it
reaches there are found (`FlowQuery.Follows.entersLive_handlers`). What is live only in between,
or where an exception leaves the body, is not seen.
-/

namespace JavaMend

variable {α : Type}

/-- The state in which one local alone is live. -/
def FlowState.only (x : String) : FlowState := FlowState.empty.taint x

theorem FlowState.only_below {s : FlowState} {x : String} (live : s.isLive x = true) :
    (FlowState.only x).Below s := by
  intro y alone
  rw [only, isLive_taint] at alone
  by_cases same : y = x
  · rw [same, live]
  · rw [if_neg same] at alone
    cases alone

theorem FlowState.isLive_joinBack (s : FlowState) (back : Option FlowState) (x : String) :
    (s.joinBack back).isLive x = true ↔ s.isLive x = true ∨ ∃ b ∈ back, b.isLive x = true := by
  cases back with
  | none => simp [joinBack]
  | some b => simp [joinBack]

namespace FlowRun

variable {run : FlowRun} {above : List Node} {depth : Nat} {s : FlowState}

/-- Every handler of a list is walked, from one state less its own parameter. -/
theorem comes_execCatches (whole : run.stopAtFirst = false)
    {clauses : List (CatchClause Variable Block)} {clause : CatchClause Variable Block}
    (mem : clause ∈ clauses) (out : Exits) :
    ∃ after, run.Comes (run.execBlock above depth clause.body (s.clear clause.parameter.name)) after
      (run.execCatches above depth clauses s out) := by
  induction clauses generalizing out with
  | nil => cases mem
  | cons first rest ih =>
    obtain ⟨typeNames, types, parameter, body⟩ := first
    rw [execCatches]
    rcases List.mem_cons.mp mem with rfl | mem
    · exact ⟨_, comes_first _ fun _ => steady_execCatches whole rest _⟩
    · obtain ⟨after, comes⟩ := ih mem _
      exact ⟨after, comes.later (steady_execBlock whole body)⟩

/-- The end of a `try` is walked from where control falls to it, or else from where
handlers are entered. -/
theorem comes_execFinish {block : Block} (out : Exits) :
    ∃ after, run.Comes (run.execBlock above depth block (out.normal.getD s)) after
      (run.execFinish above depth (some block) s out) := by
  rw [execFinish]
  cases out.normal with
  | none => exact ⟨_, comes_first _ fun _ => steady_pure _⟩
  | some t => exact ⟨_, comes_first _ fun _ => steady_pure _⟩

/-- A `try` that is not nested too deep: its resources, its body, its handlers, its end. -/
theorem exec_tryCatch (whole : run.stopAtFirst = false) (shallow : depth < run.limits.maxDepth)
    {stmt : Stmt} {resources : List (Declaration Variable)} {body : Block}
    {catches : List (CatchClause Variable Block)} {finish : Option Block}
    (form : stmt.form = .tryCatch resources body catches finish) :
    run.exec above depth stmt s =
      run.isDone >>= fun _ => run.declareAll (.stmt stmt :: above) resources s >>= fun s =>
      run.execBlock (.stmt stmt :: above) (depth + 1) body s >>= fun tried =>
      run.execCatches (.stmt stmt :: above) (depth + 1) catches (s.joinBack tried.normal) tried >>=
      run.execFinish (.stmt stmt :: above) (depth + 1) finish (s.joinBack tried.normal) := by
  obtain ⟨id, _⟩ := stmt
  cases form
  have deep : decide (run.limits.maxDepth ≤ depth) = false := by simpa using shallow
  rw [exec, (yields_isDone whole).bind_eq]
  simp only [deep, Bool.or_self, Bool.false_eq_true, if_false]
  rfl

variable {stmt : Stmt} {resources : List (Declaration Variable)} {body : Block}
  {catches : List (CatchClause Variable Block)} {finish : Option Block}

/-- The state before the body of a `try`. -/
def beforeBody (run : FlowRun) (here : List Node) (resources : List (Declaration Variable))
    (s : FlowState) : FlowState :=
  FlowM.answer (run.declareAll here resources s)

/-- How control leaves the body of a `try`. -/
def bodyExits (run : FlowRun) (here : List Node) (depth : Nat)
    (resources : List (Declaration Variable)) (body : Block) (s : FlowState) : Exits :=
  FlowM.answer (run.execBlock here (depth + 1) body (run.beforeBody here resources s))

/-- What a `try` does after its body comes to all parts of that. -/
theorem comes_exec_tryCatch (whole : run.stopAtFirst = false)
    (shallow : depth < run.limits.maxDepth)
    (form : stmt.form = .tryCatch resources body catches finish) {here : List Node}
    (here_eq : here = .stmt stmt :: above) {part : FlowM α} {after : α → FlowM Exits}
    (comes : run.Comes part after
      (run.execCatches here (depth + 1) catches
        ((run.beforeBody here resources s).joinBack
          (run.bodyExits here depth resources body s).normal)
        (run.bodyExits here depth resources body s) >>=
      run.execFinish here (depth + 1) finish
        ((run.beforeBody here resources s).joinBack
          (run.bodyExits here depth resources body s).normal))) :
    run.Comes part after (run.exec above depth stmt s) := by
  subst here_eq
  rw [exec_tryCatch whole shallow form]
  refine .later ⟨false, [], yields_isDone whole⟩ (.later (steady_declare whole _) ?_)
  exact .later (steady_execBlock whole body) comes

/-- Handlers are entered in the join of the state before the body with the one in which
control falls out of it. -/
theorem comes_handler (whole : run.stopAtFirst = false) (shallow : depth < run.limits.maxDepth)
    (form : stmt.form = .tryCatch resources body catches finish) {here : List Node}
    (here_eq : here = .stmt stmt :: above) {clause : CatchClause Variable Block}
    (mem : clause ∈ catches) :
    ∃ after, run.Comes (run.execBlock here (depth + 1) clause.body
      (((run.beforeBody here resources s).joinBack
        (run.bodyExits here depth resources body s).normal).clear clause.parameter.name)) after
      (run.exec above depth stmt s) := by
  obtain ⟨after, comes⟩ := comes_execCatches whole mem (run.bodyExits here depth resources body s)
  exact ⟨_, comes_exec_tryCatch whole shallow form here_eq
    (comes.followed fun _ => steady_execFinish whole finish _)⟩

/-- Without handlers, the end is walked from where control falls out of the body, or else
from where handlers would be entered. -/
theorem comes_finish (whole : run.stopAtFirst = false) (shallow : depth < run.limits.maxDepth)
    {block : Block} (form : stmt.form = .tryCatch resources body [] (some block))
    {here : List Node} (here_eq : here = .stmt stmt :: above) :
    ∃ after, run.Comes (run.execBlock here (depth + 1) block
      ((run.bodyExits here depth resources body s).normal.getD
        (run.beforeBody here resources s))) after (run.exec above depth stmt s) := by
  obtain ⟨after, comes⟩ : ∃ after, run.Comes _ after (run.execFinish here (depth + 1) (some block)
      ((run.beforeBody here resources s).joinBack (run.bodyExits here depth resources body s).normal)
      (run.bodyExits here depth resources body s)) := comes_execFinish _
  have entry : (run.bodyExits here depth resources body s).normal.getD
      ((run.beforeBody here resources s).joinBack (run.bodyExits here depth resources body s).normal) =
      (run.bodyExits here depth resources body s).normal.getD (run.beforeBody here resources s) := by
    cases (run.bodyExits here depth resources body s).normal <;> rfl
  rw [entry] at comes
  refine ⟨after, comes_exec_tryCatch whole shallow form here_eq ?_⟩
  rw [execCatches, pure_bind]
  exact comes

/-- Control falls out of the body of a `try` through all of its statements. -/
theorem normal_bodyExits (whole : run.stopAtFirst = false) {here inside : List Node}
    (inside_eq : inside = .block body :: here) {front rest : List Stmt}
    (split : body.stmts = front ++ rest) :
    (run.bodyExits here depth resources body s).normal =
      (FlowM.answer (run.execAll inside (depth + 1) front
        (run.beforeBody here resources s))).normal.bind fun t =>
        (FlowM.answer (run.execAll inside (depth + 1) rest t)).normal := by
  subst inside_eq
  rw [← normal_execAll_append whole, ← split]
  obtain ⟨id, isStatic, stmts⟩ := body
  rw [bodyExits, execBlock]

end FlowRun

/-- The handlers and the end of a `try` are parts of it. -/
theorem Node.mem_children_of_tryCatch {stmt : Stmt} {resources : List (Declaration Variable)}
    {body block : Block} {catches : List (CatchClause Variable Block)} {finish : Option Block}
    (form : stmt.form = .tryCatch resources body catches finish)
    (part : (∃ clause ∈ catches, block = clause.body) ∨ block ∈ finish) :
    Node.block block ∈ (Node.stmt stmt).children := by
  obtain ⟨id, _⟩ := stmt
  cases form
  rcases part with ⟨clause, mem, rfl⟩ | mem
  · apply List.mem_append_left
    apply List.mem_append_right
    exact List.mem_flatMap.mpr ⟨clause, mem, List.mem_cons_of_mem _ List.mem_cons_self⟩
  · apply List.mem_append_right
    exact List.mem_map_of_mem (Option.mem_toList.mpr mem)

namespace FlowQuery

/-- The walk of a query enters a block with a local live. So it finds every sink in the
block that is found from that local alone. -/
structure EntersLive (query : FlowQuery) (spec : FlowSpec) (source : Expr) (above : List Node)
    (body : Block) (here : List Node) (depth : Nat) (block : Block) (x : String) : Prop where
  entered : ∃ s after, (query.run spec source).Comes
    ((query.run spec source).execBlock here depth block s) after
    (query.walk spec source above body) ∧ s.isLive x = true
  found : ((query.run spec source).execBlock here depth block (.only x) ⟨[], [], []⟩).2.sinks ⊆
    (query.findSinks spec).sinks

variable {query : FlowQuery} {spec : FlowSpec} {source : Expr} {top above here : List Node}
  {body tried : Block} {depth : Nat} {s t : FlowState} {x : String}

/-- Entering a block of the body with more than one local live finds no less in it. -/
theorem Follows.entersLive (follows : query.Follows spec source top body) {block : Block}
    {after : Exits → FlowM Exits}
    (comes : (query.run spec source).Comes ((query.run spec source).execBlock here depth block s)
      after (query.walk spec source top body)) (live : s.isLive x = true)
    (stands : (Node.block block).occurrences here ⊆ body.occurrences top) :
    query.EntersLive spec source top body here depth block x := by
  refine ⟨⟨s, after, comes, live⟩, fun o found => ?_⟩
  have identified := Block.identified_occurrences follows.unshared top
  obtain ⟨_, log, exits, more, ⟨_, walks⟩, yields, sub, inside, _⟩ :=
    follows.sound.walked (.block block) here depth ⟨fun o ho => stands ho, fun _ _ _ _ => trivial⟩
      _ _ (FlowState.only_below live)
  rw [walks, mem_sinks_foldl identified log (List.Subset.trans sub inside) FlowRun.filtered_nil]
    at found
  obtain ⟨offered, sink⟩ := found
  have mem : o ∈ log := offered.resolve_left List.not_mem_nil
  obtain ⟨_, rest, goesOn⟩ := comes.goesOn exits
  obtain ⟨before, whole⟩ := comes.yields yields goesOn
  have mem_whole : o ∈ before ++ (more ++ rest) := by simp [sub mem]
  exact follows.mem_sinks whole mem_whole (inside (sub mem)) sink

/-- A local that is live between two statements of the body of a `try` is live in every
handler that does not take it for its parameter, and, where there are no handlers, in the
end of the `try`. The point must be the beginning of the body, or the local must still be
live where control falls out of the body; for the end, it must be live there if control
falls out of the body at all. -/
theorem Follows.entersLive_handlers (follows : query.Follows spec source top body) {stmt : Stmt}
    {resources : List (Declaration Variable)} {catches : List (CatchClause Variable Block)}
    {finish : Option Block} (form : stmt.form = .tryCatch resources tried catches finish)
    {after : Exits → FlowM Exits}
    (comes : (query.run spec source).Comes ((query.run spec source).exec above depth stmt s) after
      (query.walk spec source top body))
    (shallow : depth < query.limits.maxDepth)
    (stands : (Node.stmt stmt).occurrences above ⊆ body.occurrences top)
    {inside : List Node} (inside_eq : inside = .block tried :: .stmt stmt :: above)
    {front rest : List Stmt} (split : tried.stmts = front ++ rest)
    (reached : (FlowM.answer ((query.run spec source).execAll inside (depth + 1) front
      ((query.run spec source).beforeBody (.stmt stmt :: above) resources s))).normal = some t)
    (live : t.isLive x = true)
    (stays : front = [] ∨ ∃ last ∈ (FlowM.answer
      ((query.run spec source).execAll inside (depth + 1) rest t)).normal, last.isLive x = true) :
    (∀ clause ∈ catches, clause.parameter.name ≠ x →
      query.EntersLive spec source top body (.stmt stmt :: above) (depth + 1) clause.body x) ∧
    (catches = [] → (∀ last ∈ (FlowM.answer
        ((query.run spec source).execAll inside (depth + 1) rest t)).normal,
        last.isLive x = true) →
      ∀ block ∈ finish,
        query.EntersLive spec source top body (.stmt stmt :: above) (depth + 1) block x) := by
  have whole : (query.run spec source).stopAtFirst = false := rfl
  have falls : ((query.run spec source).bodyExits (.stmt stmt :: above) depth resources tried
      s).normal = _ := FlowRun.normal_bodyExits whole inside_eq split
  rw [reached, Option.bind_some] at falls
  have begins (first : front = []) :
      ((query.run spec source).beforeBody (.stmt stmt :: above) resources s).isLive x = true := by
    subst first
    rw [FlowRun.execAll] at reached
    cases reached
    exact live
  have open_ : (Node.stmt stmt).isNested = false := by
    obtain ⟨id, _⟩ := stmt
    cases form
    rfl
  have below {block : Block} (part : (∃ clause ∈ catches, block = clause.body) ∨ block ∈ finish) :
      (Node.block block).occurrences (.stmt stmt :: above) ⊆ body.occurrences top := by
    intro o ho
    apply stands
    exact Node.mem_occurrences_of_child open_ (Node.mem_children_of_tryCatch form part) ho
  constructor
  · intro clause mem other
    obtain ⟨after', comes'⟩ := FlowRun.comes_handler whole shallow form rfl mem
    apply follows.entersLive (comes'.trans comes) ?_ (below (.inl ⟨clause, mem, rfl⟩))
    rw [FlowState.isLive_clear, if_neg other.symm, FlowState.isLive_joinBack, falls]
    exact stays.imp_left begins
  · intro uncaught falling block mem
    subst uncaught
    cases mem
    obtain ⟨after', comes'⟩ := FlowRun.comes_finish whole shallow form rfl
    apply follows.entersLive (comes'.trans comes) ?_ (below (.inr rfl))
    rw [falls]
    cases last : (FlowM.answer
      ((query.run spec source).execAll inside (depth + 1) rest t)).normal with
    | some last' => exact falling last' last
    | none =>
      rw [last] at stays
      have first : front = [] := by
        apply stays.resolve_right
        rintro ⟨_, absent, _⟩
        cases absent
      exact begins first

end FlowQuery

namespace CaughtText

/-- `"x"` -/
def text : Expr := ⟨0, .string, .literal (.string "x")⟩

/-- `s = "x";` -/
def assignment : Stmt :=
  ⟨1, .expr ⟨2, .string, .assign none ⟨3, .string, .ident "s" none⟩ text⟩⟩

/-- `log();` -/
def log : Stmt := ⟨4, .expr ⟨5, .unknown, .call none "log" [] none⟩⟩

def tried : Block := ⟨6, false, [assignment, log]⟩

/-- `catch (IOException e) { s; }` -/
def handler : CatchClause Variable Block :=
  ⟨["IOException"], [.known "java.io.IOException"], ⟨7, "e", .known "java.io.IOException", none⟩,
    ⟨8, false, [⟨9, .expr ⟨10, .string, .ident "s" none⟩⟩]⟩⟩

/-- `try { s = "x"; log(); } catch (IOException e) { s; }` -/
def attempt : Stmt := ⟨11, .tryCatch [] tried [handler] none⟩

def body : Block := ⟨12, false, [attempt]⟩

def method : Stmt := ⟨13, .method ⟨[], some "void", "attempt", [], []⟩ (some body)⟩

def query : FlowQuery where
  start := ⟨[.expr text, .expr ⟨2, .string, .assign none ⟨3, .string, .ident "s" none⟩ text⟩,
    .stmt assignment, .block tried, .stmt attempt, .block body, .stmt method]⟩
  limits := .standard

/-- To anything that carries the text. -/
def spec : FlowSpec where
  kind := .value
  isSource _ := true
  isSink _ := true
  sanitizes := none

theorem follows : query.Follows spec text [.block body, .stmt method] body where
  starts := rfl
  isSource := rfl
  inBody := ⟨1, rfl, rfl⟩
  unshared := by
    unfold Block.Unshared
    decide +kernel

/-- The local is assigned by the first statement and still live after the second. -/
theorem handlers_caughtText :
    query.Follows spec text [.block body, .stmt method] body ∧
      query.EntersLive spec text [.block body, .stmt method] body
        [.stmt attempt, .block body, .stmt method] 1 handler.body "s" := by
  obtain ⟨after, comes⟩ : ∃ after, (query.run spec text).Comes
      ((query.run spec text).exec [.block body, .stmt method] 0 attempt .empty) after
      (query.walk spec text [.block body, .stmt method] body) :=
    FlowRun.comes_execAll rfl [] attempt [] rfl
  have stands : (Node.stmt attempt).occurrences [.block body, .stmt method] ⊆
      body.occurrences [.block body, .stmt method] :=
    fun o ho => List.mem_flatMap.mpr ⟨attempt, List.mem_cons_self, ho⟩
  have reached : (FlowM.answer ((query.run spec text).execAll
      [.block tried, .stmt attempt, .block body, .stmt method] 1 [assignment]
      ((query.run spec text).beforeBody [.stmt attempt, .block body, .stmt method] []
        .empty))).normal = some (.only "s") := rfl
  have live : (FlowState.only "s").isLive "s" = true := by decide
  have seen := follows.entersLive_handlers rfl comes (by decide) stands rfl
    (rfl : tried.stmts = [assignment] ++ [log]) reached live (.inr ⟨.only "s", rfl, live⟩)
  exact ⟨follows, seen.1 handler List.mem_cons_self (by decide)⟩

example : (query.findSinks spec).sinks.map (·.expr.id) = [0, 2, 10] := by
  decide +kernel

end CaughtText

end JavaMend
