import JavaMend.Proofs.Flow.Early
import JavaMend.Proofs.Flow.Places

/-!
# What completes abruptly

Whether the statement after another one can be reached is decided in two ways. A fix reads
it off the statement (`Stmt.completesAbruptly`); a walk comes to it or does not. The two
agree in one direction: no state falls through what completes abruptly
(`Walker.bars_of_completesAbruptly`). The other direction fails, since a loop that is never
left does not count as abrupt.

Nothing is said of a walk that is over before it is through, and of statements that are
nested too deep to be walked: both fall through whatever they are. Up to its first sink a
walk that may be over early is the one that is not (`FlowRun.stopping_sound`), so the
induction over the tree is made for that one (`FlowRun.barred`).
-/

namespace JavaMend

variable {α β : Type}

/-! ## Answers of a walk -/

/-- Whatever was found before, the answer of the walk meets `post`. -/
def FlowM.Always (post : α → Prop) (walk : FlowM α) : Prop := ∀ t, post (walk t).1

namespace FlowM

variable {mid : α → Prop} {post : β → Prop}

theorem always_pure {b : β} (h : post b) : Always post (pure b : FlowM β) := fun _ => h

theorem Always.bind {walk : FlowM α} {next : α → FlowM β} (first : Always mid walk)
    (more : ∀ a, mid a → Always post (next a)) : Always post (walk >>= next) :=
  fun t => more _ (first t) _

/-- A step whose answer does not matter. -/
theorem Always.then_ {walk : FlowM α} {next : α → FlowM β} (more : ∀ a, Always post (next a)) :
    Always post (walk >>= next) :=
  fun _ => more _ _

end FlowM

/-- No state falls through. -/
def Exits.Bars (exits : Exits) : Prop := exits.normal = none

open FlowM

/-! ## Walks that are not over early -/

namespace FlowRun

variable {run : FlowRun} {above : List Node} {depth : Nat} {stmt : Stmt} {s : FlowState}

theorem always_isDone (whole : run.stopAtFirst = false) : Always (· = false) run.isDone := by
  intro t
  show (run.stopAtFirst && !t.sinks.isEmpty) = false
  rw [whole, Bool.false_and]

/-- What is walked at a statement that is entered bars the statement. -/
theorem exec_bars {walk : FlowM Exits} (whole : run.stopAtFirst = false)
    (room : depth < run.limits.maxDepth) (inner : Always Exits.Bars walk)
    (walks : run.exec above depth stmt s = run.isDone >>= fun done =>
      if (done || decide (run.limits.maxDepth ≤ depth)) = true then pure (.falls (some s))
      else walk) :
    Always Exits.Bars (run.exec above depth stmt s) := by
  have entered : decide (run.limits.maxDepth ≤ depth) = false :=
    decide_eq_false (Nat.not_le_of_gt room)
  rw [walks]
  refine (always_isDone whole).bind fun done undone => ?_
  rw [undone, entered]
  exact inner

/-- The last of several statements bars the way out of them. -/
theorem execAll_bars {stmts : List Stmt} (whole : run.stopAtFirst = false)
    (abrupt : lastCompletesAbruptly stmts = true)
    (last : ∀ stmt ∈ stmts, stmt.completesAbruptly = true → ∀ s,
      Always Exits.Bars (run.exec above depth stmt s)) (s : FlowState) :
    Always Exits.Bars (run.execAll above depth stmts s) := by
  induction stmts generalizing s with
  | nil => cases abrupt
  | cons stmt rest ih =>
    rw [execAll]
    refine (always_isDone whole).bind fun done undone => ?_
    rw [undone]
    cases rest with
    | nil =>
      refine (last stmt List.mem_cons_self abrupt s).bind fun first bars => ?_
      rw [show first.normal = none from bars]
      exact always_pure bars
    | cons next more =>
      refine .then_ fun first => ?_
      cases falls : first.normal with
      | none => exact always_pure falls
      | some t =>
        have later := ih abrupt (fun stmt mem => last stmt (List.mem_cons_of_mem _ mem)) t
        exact later.bind fun _ bars => always_pure bars

/-- Two branches that bar the way bar it together. -/
theorem branches_bar (run : FlowRun) (above : List Node) (condition : Expr)
    {yes no : FlowState → FlowM Exits}
    (onTrue : ∀ s, Always Exits.Bars (yes s)) (onFalse : ∀ s, Always Exits.Bars (no s))
    (s : FlowState) :
    Always Exits.Bars
      (run.eval above condition s >>= fun r => run.assume above true condition r.2 >>= fun s₁ =>
        yes s₁ >>= fun one => run.assume above false condition r.2 >>= fun s₂ =>
        no s₂ >>= fun other =>
          pure (one.after { other with normal := FlowState.merge one.normal other.normal })) := by
  refine .then_ fun r => .then_ fun s₁ => ?_
  refine (onTrue s₁).bind fun one bars => .then_ fun s₂ => ?_
  refine (onFalse s₂).bind fun other bars' => always_pure ?_
  show FlowState.merge one.normal other.normal = none
  rw [show one.normal = none from bars, show other.normal = none from bars']
  rfl

/-- Wherever the statement or the block stands, if it completes abruptly and is not nested too
deep, it bars the way. -/
def Barred (run : FlowRun) (depth : Nat) (n : Node) : Prop :=
  depth + n.nesting ≤ run.limits.maxDepth →
    match n with
    | .stmt stmt => stmt.completesAbruptly = true → ∀ above s,
        Always Exits.Bars (run.exec above depth stmt s)
    | .block block => block.completesAbruptly = true → ∀ above s,
        Always Exits.Bars (run.execAll above depth block.stmts s)
    | _ => True

theorem barred_stmt (whole : run.stopAtFirst = false)
    (parts : ∀ c ∈ stmt.children, run.Barred (depth + 1) c) : run.Barred depth (.stmt stmt) := by
  intro room abrupt above s
  have entered : depth < run.limits.maxDepth := by
    rw [Node.nesting_eq] at room
    exact Nat.lt_of_lt_of_le (Nat.lt_add_of_pos_right (Nat.le_add_right 1 _)) room
  have below {c : Node} (open_ : (Node.stmt stmt).isNested = false) (mem : c ∈ stmt.children) :
      depth + 1 + c.nesting ≤ run.limits.maxDepth := by
    have inside : 1 + c.nesting ≤ (Node.stmt stmt).nesting := Node.nesting_le_of_child open_ mem
    omega
  obtain ⟨id, form⟩ := stmt
  cases form with
  | ifElse condition onTrue onFalse =>
    cases onFalse with
    | none => cases abrupt
    | some onFalse =>
      obtain ⟨yes, no⟩ := Bool.and_eq_true_iff.mp abrupt
      let stmt : Stmt := ⟨id, .ifElse condition onTrue (some onFalse)⟩
      have memTrue : .stmt onTrue ∈ stmt.children := List.mem_cons_of_mem _ List.mem_cons_self
      have memFalse : .stmt onFalse ∈ stmt.children :=
        List.mem_cons_of_mem _ (List.mem_cons_of_mem _ List.mem_cons_self)
      have first := parts _ memTrue (below rfl memTrue) yes (.stmt stmt :: above)
      have second := parts _ memFalse (below rfl memFalse) no (.stmt stmt :: above)
      have inner := branches_bar run (.stmt stmt :: above) condition first second s
      exact exec_bars whole entered inner (by rw [exec])
  | block body =>
    have inner := parts (.block body) List.mem_cons_self (below rfl List.mem_cons_self) abrupt
    have bars (above : List Node) :
        Always Exits.Bars (run.execBlock above (depth + 1) body s) := by
      obtain ⟨bodyId, isStatic, stmts⟩ := body
      rw [execBlock]
      exact inner _ s
    exact exec_bars whole entered (bars _) (by rw [exec])
  | returnStmt value =>
    have inner : Always Exits.Bars (run.evalAny (.stmt ⟨id, .returnStmt value⟩ :: above)
        value.toList s >>= fun _ => pure (.falls none)) := .then_ fun _ => always_pure rfl
    exact exec_bars whole entered inner (by rw [exec])
  | throwStmt value =>
    have inner : Always Exits.Bars (run.eval (.stmt ⟨id, .throwStmt value⟩ :: above) value s >>=
        fun _ => pure (.falls none)) := .then_ fun _ => always_pure rfl
    exact exec_bars whole entered inner (by rw [exec])
  | breakStmt =>
    have inner : Always Exits.Bars (pure ⟨none, some s, none⟩) := always_pure rfl
    exact exec_bars whole entered inner (by rw [exec])
  | continueStmt =>
    have inner : Always Exits.Bars (pure ⟨none, none, some s⟩) := always_pure rfl
    exact exec_bars whole entered inner (by rw [exec])
  | _ => cases abrupt

/-- In a walk that is not over early, every statement and every block that completes abruptly
bars the way, unless it is nested too deep. -/
theorem barred (whole : run.stopAtFirst = false) (n : Node) (depth : Nat) :
    run.Barred depth n := by
  induction n using Node.inductionOn generalizing depth with
  | step n ih =>
    cases n with
    | stmt stmt => exact barred_stmt whole fun c mem => ih c mem _
    | block block =>
      intro room abrupt above s
      refine execAll_bars whole ?_ (fun stmt mem abrupt s => ?_) s
      · obtain ⟨id, isStatic, stmts⟩ := block
        exact abrupt
      · have child : Node.stmt stmt ∈ (Node.block block).children := List.mem_map_of_mem mem
        have inside : 0 + (Node.stmt stmt).nesting ≤ (Node.block block).nesting :=
          Node.nesting_le_of_child rfl child
        exact ih (.stmt stmt) child depth (by omega) abrupt above s
    | _ => exact fun _ => trivial

/-! ## Walks that may be over early -/

/-- The walk is not over: one sink is not enough, or none was found. -/
def GoesOn (run : FlowRun) (t : Trace) : Prop := (run.isDone t).1 = false

theorem goesOn_iff {t : Trace} : run.GoesOn t ↔ (run.stopAtFirst = true → t.sinks = []) := by
  show (run.stopAtFirst && !t.sinks.isEmpty) = false ↔ _
  cases run.stopAtFirst <;> cases t.sinks <;> simp

/-- A walk that is not over in the end falls through where the one falls through that is never
over early. -/
theorem normal_of_goesOn {walk : FlowRun → FlowM Exits} {t : Trace}
    (alike : FirstAlike run.stopping.Leaves (walk { run with stopAtFirst := true })
      (walk { run with stopAtFirst := false }))
    (goesOn : run.GoesOn (walk run t).2) :
    (walk run t).1.normal = (walk { run with stopAtFirst := false } t).1.normal := by
  obtain ⟨spec, limits, source, stopAtFirst⟩ := run
  cases stopAtFirst with
  | false => rfl
  | true =>
    have none : (walk ⟨spec, limits, source, true⟩ t).2.sinks = [] := goesOn_iff.mp goesOn rfl
    have clean : t.sinks = [] := List.prefix_nil.mp (none ▸ alike.keeps t)
    have first := alike.first t clean
    rw [none] at first
    have leaves := (alike.same t clean (List.head?_eq_none_iff.mp first.symm)).2
    exact rel_eq_iff.mp leaves.normal

end FlowRun

/-! ## Walks and walks by hand -/

namespace Walker

/-- Unless the walk is over in the end, no state falls through: not where it is walked from its
place, and not where it is walked by hand. -/
def Bars (run : FlowRun) (w : Walker) (walk : FlowM Exits) (action : WalkerM (Option FlowState)) :
    Prop :=
  run.GoesOn (walk w.trace).2 → (walk w.trace).1.normal = none ∧ (action w).1 = none

theorem bars_of_always {run : FlowRun} {w : Walker} {action : WalkerM (Option FlowState)}
    (walk : FlowRun → FlowM Exits)
    (byHand : Jumps (fun _ => True) w.stack w.depth (.falls none) (walk run) action)
    (alike : FirstAlike run.stopping.Leaves (walk { run with stopAtFirst := true })
      (walk { run with stopAtFirst := false }))
    (always : Always Exits.Bars (walk { run with stopAtFirst := false })) :
    Bars run w (walk run) action := by
  intro goesOn
  have barred : (walk run w.trace).1.normal = none :=
    (FlowRun.normal_of_goesOn alike goesOn).trans (always w.trace)
  rw [byHand.apply]
  exact ⟨barred, barred⟩

/-- No state falls through a statement or a block that completes abruptly, from whatever state
and wherever it is walked, unless the walk is over in the end. As many statements as stand in
each other in it, itself included, have to be let in by the depth that remains.

The statements of the block are walked where the block itself is on the stack already. -/
theorem bars_of_completesAbruptly (run : FlowRun) (s : FlowState) (w : Walker) :
    (∀ stmt : Stmt, stmt.completesAbruptly = true →
      w.depth + (Node.stmt stmt).nesting ≤ run.limits.maxDepth →
      Bars run w (run.exec w.stack w.depth stmt s) (exec run stmt s)) ∧
    ∀ block : Block, block.completesAbruptly = true →
      w.depth + (Node.block block).nesting ≤ run.limits.maxDepth →
      Bars run w (run.execAll w.stack w.depth block.stmts s) (execAll run block.stmts s) := by
  -- Where the walker stands does not matter.
  have anywhere : Descends fun _ => True := ⟨fun _ _ => trivial⟩
  have byHand (stmt : Stmt) : Walked (fun _ => True) run w.stack w.depth (.stmt stmt) :=
    walked anywhere run (.stmt stmt) w.stack w.depth trivial
  have alike (stmt : Stmt) : run.stopping.Walked w.stack w.depth (.stmt stmt) :=
    run.stopping_sound.walked (.stmt stmt) _ _ ⟨fun _ _ => trivial, fun _ _ _ _ => trivial⟩
  have barred (n : Node) : FlowRun.Barred { run with stopAtFirst := false } w.depth n :=
    FlowRun.barred rfl n w.depth
  refine ⟨fun stmt abrupt room => ?_, fun block abrupt room => ?_⟩
  · exact bars_of_always (fun run => run.exec w.stack w.depth stmt s) (byHand stmt s)
      (alike stmt s s rfl) (barred (.stmt stmt) room abrupt w.stack s)
  · exact bars_of_always (fun run => run.execAll w.stack w.depth block.stmts s)
      (jumps_execAll run block.stmts s fun stmt _ => byHand stmt)
      (run.stopping_sound.execAll w.depth block.stmts (fun stmt _ => alike stmt) rfl)
      (barred (.block block) room abrupt w.stack s)

end Walker

namespace LeftBranches

/-- `flag` -/
def flag : Expr := ⟨0, .boolean, .ident "flag" none⟩

/-- `{ while (flag) break; return; }` -/
def onTrue : Stmt :=
  ⟨1, .block ⟨2, false, [⟨3, .whileLoop flag ⟨4, .breakStmt⟩⟩, ⟨5, .returnStmt none⟩]⟩⟩

/-- `if (flag) { while (flag) break; return; } else continue;` -/
def stmt : Stmt := ⟨6, .ifElse flag onTrue (some ⟨7, .continueStmt⟩)⟩

/-- One sink is enough, but nothing is one; six statements may stand in each other. -/
def run : FlowRun where
  spec := { kind := .value, isSource := fun _ => true, isSink := fun _ => false, sanitizes := none }
  limits := { maxDepth := 6, maxLoopIterations := 8 }
  source := flag
  stopAtFirst := true

/-- In the body of a loop, below two other statements. -/
def walker : Walker := ⟨[], 2, [⟨none, none⟩], ⟨[], [], []⟩⟩

/-- `flag` holds the value. -/
def state : FlowState := FlowState.empty.taint "flag"

/-- Four statements stand in each other, and both branches are left by a jump. -/
theorem bars_leftBranches :
    stmt.completesAbruptly = true ∧
      walker.depth + (Node.stmt stmt).nesting ≤ run.limits.maxDepth ∧
      run.GoesOn (run.exec walker.stack walker.depth stmt state walker.trace).2 ∧
      (run.exec walker.stack walker.depth stmt state walker.trace).1.normal = none ∧
      (Walker.exec run stmt state walker).1 = none := by
  have abrupt : stmt.completesAbruptly = true := rfl
  have room : walker.depth + (Node.stmt stmt).nesting ≤ run.limits.maxDepth := by decide +kernel
  have goesOn : run.GoesOn (run.exec walker.stack walker.depth stmt state walker.trace).2 := by
    show (run.isDone _).1 = false
    decide +kernel
  exact ⟨abrupt, room, goesOn,
    (Walker.bars_of_completesAbruptly run state walker).1 stmt abrupt room goesOn⟩

end LeftBranches

end JavaMend
