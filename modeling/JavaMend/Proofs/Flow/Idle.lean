import JavaMend.Proofs.Flow.Loop
import JavaMend.Proofs.Flow.Sinkless
import JavaMend.Proofs.Traversal.Rebuild
import JavaMend.Proofs.Tree.Places

/-!
# Idle nodes

Where no local is live and the source does not stand, there is no value to
follow. A node is idle if a walk that comes to it with nothing live finds no sink
in it and leaves nothing live. A statement or a block is idle if its children are,
whatever the limits of the walk (`FlowRun.idle_of_children`); so a tree without
the source is idle (`FlowRun.idle_of_free`), and a tree with the source in one
place is idle if one of the nodes around that place is (`FlowRun.idle_around`).
-/

namespace JavaMend

open FlowM

namespace FlowRun

variable {run : FlowRun} {above here : List Node} {s : FlowState}

/-! ## Loops -/

/-- What a round of a loop answers: what has left the loop, and what comes back
to its head. -/
structure IdleRound (r : Option FlowState × Option FlowState) : Prop where
  exit : LiveInOption [] r.1
  back : LiveInOption [] r.2

/-- A loop whose rounds find nothing finds nothing, however often it is walked. -/
theorem iterate_idle (run : FlowRun)
    {round : FlowState → Option FlowState → FlowM (Option FlowState × Option FlowState)}
    (h : ∀ head exit, head.LiveIn [] → LiveInOption [] exit → Sinkless IdleRound (round head exit))
    (n : Nat) {head : FlowState} {exit : Option FlowState} (dead : head.LiveIn [])
    (left : LiveInOption [] exit) : Sinkless (LiveInOption []) (run.iterate round n head exit) := by
  induction n generalizing head exit with
  | zero => exact .pure left
  | succ n ih =>
    rw [iterate_succ]
    refine (h head exit dead left).bind fun r idles => ?_
    apply Sinkless.unlessDone
    have next_dead : (head.joinBack r.2).LiveIn [] := by
      cases back : r.2 with
      | none => exact dead
      | some b => exact dead.join (idles.back b back)
    split
    · exact .pure idles.exit
    · exact ih next_dead idles.exit

/-- A walk of a statement, a block or an item that finds nothing. -/
def IdleBody (body : FlowState → FlowM Exits) : Prop :=
  ∀ s, s.LiveIn [] → Sinkless (Exits.LiveIn []) (body s)

theorem loopRound_idle {condition : Option Expr} {update : List Expr}
    {body : FlowState → FlowM Exits}
    (guards : ∀ c ∈ condition, ∀ s, s.LiveIn [] → Sinkless (Idles []) (run.eval here c s))
    (updates : ∀ e ∈ update, ∀ s, s.LiveIn [] → Sinkless (Idles []) (run.eval here e s))
    (idle : IdleBody body) {head : FlowState} {exit : Option FlowState} (dead : head.LiveIn [])
    (left : LiveInOption [] exit) :
    Sinkless IdleRound (run.loopRound here condition update body head exit) := by
  have entered : Sinkless (fun r : FlowState × Option FlowState =>
      r.1.LiveIn [] ∧ LiveInOption [] r.2) (run.enterLoop here condition head exit) := by
    cases condition with
    | none => exact .pure ⟨dead, left⟩
    | some c =>
      refine (guards c rfl head dead).bind fun r idles => ?_
      refine (assume_sinkless c true idles.state).bind fun inside inside_dead => ?_
      refine (assume_sinkless c false idles.state).bind fun outside outside_dead => ?_
      exact .pure ⟨inside_dead, left.merge outside_dead.some⟩
  refine entered.bind fun r h => ?_
  refine (idle r.1 h.1).bind fun exits exits_dead => ?_
  have back_dead := exits_dead.normal.merge exits_dead.continues
  cases back : FlowState.merge exits.normal exits.continues with
  | none => exact .pure ⟨h.2.merge exits_dead.breaks, liveInOption_none⟩
  | some b =>
    have updated := evalAny_idles (back_dead b back) updates
    exact updated.bind fun r' idles => .pure ⟨h.2.merge exits_dead.breaks, idles.state.some⟩

theorem itemRound_idle {body : FlowState → FlowM Exits} (idle : IdleBody body) (item : String)
    {head : FlowState} {exit : Option FlowState} (dead : head.LiveIn [])
    (left : LiveInOption [] exit) : Sinkless IdleRound (itemRound item false body head exit) := by
  refine (idle _ (dead.clear item)).bind fun exits exits_dead => .pure ?_
  have back_dead := exits_dead.normal.merge exits_dead.continues
  exact ⟨(left.merge exits_dead.breaks).merge back_dead, back_dead⟩

/-! ## Statements -/

/-- From a state in which nothing is live, a walk of the node at a depth finds
nothing and leaves nothing live. What stands above the body is not walked. -/
def Idle (run : FlowRun) (depth : Nat) : Node → Prop
  | .stmt stmt => ∀ above, IdleBody (run.exec above depth stmt)
  | .block block => ∀ above, IdleBody (run.execAll above depth block.stmts)
  | .var v => ∀ e ∈ v.init, ∀ above s, s.LiveIn [] → Sinkless (Idles []) (run.eval above e s)
  | .expr e => ∀ above s, s.LiveIn [] → Sinkless (Idles []) (run.eval above e s)
  | .unit _ => True
  | .cls _ => True

variable {depth : Nat}

theorem execBlock_idle {block : Block} (idle : run.Idle depth (.block block)) (above : List Node) :
    IdleBody (run.execBlock above depth block) := by
  intro s dead
  obtain ⟨id, isStatic, stmts⟩ := block
  rw [execBlock]
  exact idle _ s dead

theorem declare_idle (above : List Node) (vars : List Variable) (h : s.LiveIn [])
    (parts : ∀ v ∈ vars, run.Idle depth (.var v)) :
    Sinkless (FlowState.LiveIn []) (run.declare above vars s) := by
  induction vars generalizing s with
  | nil => exact .pure h
  | cons v rest ih =>
    have rest_idle := fun (s : FlowState) (h : s.LiveIn []) =>
      ih h fun v hv => parts v (List.mem_cons_of_mem _ hv)
    rw [declare]
    cases init : v.init with
    | none => exact rest_idle _ (h.clear v.name)
    | some e =>
      refine (parts v List.mem_cons_self e init _ s h).bind fun r idles => ?_
      obtain ⟨carried, s'⟩ := r
      have off : carried = false := idles.value
      subst off
      exact rest_idle _ (idles.state.clear v.name)

theorem execAll_nil_idle (above : List Node) : IdleBody (run.execAll above depth []) := by
  intro s dead
  rw [execAll]
  exact .pure (Exits.liveIn_falls dead.some)

/-- The first statement may leave locals live for the others, as long as it does
not jump with them. -/
theorem execAll_cons_sinkless {held : List String} {stmt : Stmt} {rest : List Stmt}
    (first : Sinkless (fun exits => LiveInOption held exits.normal ∧
      LiveInOption [] exits.breaks ∧ LiveInOption [] exits.continues)
      (run.exec above depth stmt s))
    (more : ∀ s', s'.LiveIn held → Sinkless (Exits.LiveIn []) (run.execAll above depth rest s')) :
    Sinkless (Exits.LiveIn []) (run.execAll above depth (stmt :: rest) s) := by
  rw [execAll]
  apply Sinkless.unlessDone
  refine first.bind fun exits leaves => ?_
  obtain ⟨falls, breaks, continues⟩ := leaves
  cases normal : exits.normal with
  | none => exact .pure ⟨normal ▸ liveInOption_none, breaks, continues⟩
  | some s' =>
    refine (more s' (falls s' normal)).bind fun next next_dead => .pure ?_
    exact ⟨next_dead.normal, breaks.merge next_dead.breaks, continues.merge next_dead.continues⟩

theorem execAll_cons_idle {stmt : Stmt} {rest : List Stmt} (first : run.Idle depth (.stmt stmt))
    (more : IdleBody (run.execAll above depth rest)) :
    IdleBody (run.execAll above depth (stmt :: rest)) := by
  intro s dead
  refine execAll_cons_sinkless ((first above s dead).mono fun exits h => ?_) more
  exact ⟨h.normal, h.breaks, h.continues⟩

theorem execAll_append_idle {front rest : List Stmt}
    (parts : ∀ stmt ∈ front, run.Idle depth (.stmt stmt))
    (more : IdleBody (run.execAll above depth rest)) :
    IdleBody (run.execAll above depth (front ++ rest)) := by
  induction front with
  | nil => exact more
  | cons stmt front ih =>
    exact execAll_cons_idle (parts stmt List.mem_cons_self)
      (ih fun stmt hs => parts stmt (List.mem_cons_of_mem _ hs))

theorem execAll_idle (above : List Node) {stmts : List Stmt}
    (parts : ∀ stmt ∈ stmts, run.Idle depth (.stmt stmt)) :
    IdleBody (run.execAll above depth stmts) := by
  have whole := execAll_append_idle parts (execAll_nil_idle above)
  rwa [List.append_nil] at whole

theorem execCatches_idle {clauses : List (CatchClause Variable Block)} {out : Exits}
    (parts : ∀ clause ∈ clauses, run.Idle depth (.block clause.body)) (dead : s.LiveIn [])
    (left : out.LiveIn []) :
    Sinkless (Exits.LiveIn []) (run.execCatches above depth clauses s out) := by
  induction clauses generalizing out with
  | nil =>
    rw [execCatches]
    exact .pure left
  | cons clause rest ih =>
    obtain ⟨typeNames, types, parameter, body⟩ := clause
    have caught := execBlock_idle (parts _ List.mem_cons_self) above _ (dead.clear parameter.name)
    rw [execCatches]
    refine caught.bind fun exits exits_dead => ?_
    exact ih (fun clause hc => parts clause (List.mem_cons_of_mem _ hc)) (left.beside exits_dead)

theorem execFinish_idle {finish : Option Block} {handlerIn : FlowState} {out : Exits}
    (parts : ∀ body ∈ finish, run.Idle depth (.block body)) (dead : handlerIn.LiveIn [])
    (left : out.LiveIn []) :
    Sinkless (Exits.LiveIn []) (run.execFinish above depth finish handlerIn out) := by
  cases finish with
  | none =>
    rw [execFinish]
    exact .pure left
  | some body =>
    rw [execFinish]
    cases normal : out.normal with
    | none =>
      have finished := execBlock_idle (parts body rfl) above handlerIn dead
      refine finished.bind fun exits exits_dead => .pure (left.after ?_)
      exact ⟨liveInOption_none, exits_dead.breaks, exits_dead.continues⟩
    | some s =>
      have finished := execBlock_idle (parts body rfl) above s (left.normal s normal)
      exact finished.bind fun exits exits_dead => .pure (left.after exits_dead)

/-- A statement that is nested too deep is passed over, so it is idle if it is
idle when it is walked. -/
theorem exec_idle {stmt : Stmt} {walk : FlowM Exits} (dead : s.LiveIn [])
    (h : Sinkless (Exits.LiveIn []) walk)
    (walks : run.exec above depth stmt s = run.isDone >>= fun done =>
      if (done || decide (run.limits.maxDepth ≤ depth)) = true then pure (.falls (some s))
      else walk) :
    Sinkless (Exits.LiveIn []) (run.exec above depth stmt s) := by
  rw [walks]
  apply Sinkless.unlessDone
  split
  · exact .pure (Exits.liveIn_falls dead.some)
  · exact h

/-- A statement is idle if its parts are. Methods and classes are not walked. -/
theorem idle_stmt {stmt : Stmt} (parts : ∀ c ∈ stmt.children, run.Idle (depth + 1) c) :
    run.Idle depth (.stmt stmt) := by
  intro above s dead
  have value : ∀ {e : Expr}, Node.expr e ∈ stmt.children → ∀ s, s.LiveIn [] →
      Sinkless (Idles []) (run.eval (.stmt stmt :: above) e s) :=
    fun mem s => parts _ mem _ s
  obtain ⟨id, form⟩ := stmt
  cases form with
  | declare decl =>
    have declared := declare_idle (.stmt ⟨id, .declare decl⟩ :: above) decl.vars dead fun v hv =>
      parts (.var v) (List.mem_map_of_mem hv)
    refine exec_idle dead (declared.bind fun s' dead' => .pure (Exits.liveIn_falls dead'.some)) ?_
    rw [exec]
  | expr e =>
    have e_idles := value List.mem_cons_self s dead
    refine exec_idle dead
      (e_idles.bind fun r idles => .pure (Exits.liveIn_falls idles.state.some)) ?_
    rw [exec]
  | ifElse condition onTrue onFalse =>
    have condition_idles := value List.mem_cons_self s dead
    have onTrue_idle := parts (.stmt onTrue) (List.mem_cons_of_mem _ List.mem_cons_self)
      (.stmt ⟨id, .ifElse condition onTrue onFalse⟩ :: above)
    cases onFalse with
    | none =>
      refine exec_idle dead (condition_idles.bind fun r idles => ?_) (by rw [exec])
      refine (assume_sinkless condition true idles.state).bind fun s₁ dead₁ => ?_
      refine (onTrue_idle s₁ dead₁).bind fun yes yes_dead => ?_
      refine (assume_sinkless condition false idles.state).bind fun s₂ dead₂ => .pure ?_
      exact yes_dead.beside (Exits.liveIn_falls dead₂.some)
    | some onFalse =>
      have onFalse_idle := parts (.stmt onFalse)
        (List.mem_cons_of_mem _ (List.mem_cons_of_mem _ List.mem_cons_self))
        (.stmt ⟨id, .ifElse condition onTrue onFalse⟩ :: above)
      refine exec_idle dead (condition_idles.bind fun r idles => ?_) (by rw [exec])
      refine (assume_sinkless condition true idles.state).bind fun s₁ dead₁ => ?_
      refine (onTrue_idle s₁ dead₁).bind fun yes yes_dead => ?_
      refine (assume_sinkless condition false idles.state).bind fun s₂ dead₂ => ?_
      exact (onFalse_idle s₂ dead₂).bind fun no no_dead => .pure (yes_dead.beside no_dead)
  | whileLoop condition body =>
    have guards : ∀ c ∈ some condition, ∀ s, s.LiveIn [] → Sinkless (Idles [])
        (run.eval (.stmt ⟨id, .whileLoop condition body⟩ :: above) c s) := by
      intro c hc
      cases hc
      exact value List.mem_cons_self
    have body_idle := parts (.stmt body) (List.mem_cons_of_mem _ List.mem_cons_self)
      (.stmt ⟨id, .whileLoop condition body⟩ :: above)
    have loop := iterate_idle run
      (fun head exit => loopRound_idle guards (fun e he => (List.not_mem_nil he).elim) body_idle)
      run.limits.maxLoopIterations dead liveInOption_none
    refine exec_idle dead (loop.bind fun exit left => .pure (Exits.liveIn_falls left)) ?_
    rw [exec]
  | forLoop init condition update body =>
    have init_idle := execAll_idle (.stmt ⟨id, .forLoop init condition update body⟩ :: above)
      fun stmt hs => parts (.stmt stmt) (List.mem_append_left _ (List.mem_append_left _
        (List.mem_append_left _ (List.mem_map_of_mem hs))))
    have guards : ∀ c ∈ condition, ∀ s, s.LiveIn [] → Sinkless (Idles [])
        (run.eval (.stmt ⟨id, .forLoop init condition update body⟩ :: above) c s) := by
      intro c hc
      refine value (List.mem_append_left _ (List.mem_append_left _ (List.mem_append_right _ ?_)))
      exact List.mem_map_of_mem (Option.mem_toList.mpr hc)
    have updates : ∀ e ∈ update, ∀ s, s.LiveIn [] → Sinkless (Idles [])
        (run.eval (.stmt ⟨id, .forLoop init condition update body⟩ :: above) e s) := by
      intro e he
      exact value (List.mem_append_left _ (List.mem_append_right _ (List.mem_map_of_mem he)))
    have body_idle := parts (.stmt body) (List.mem_append_right _ List.mem_cons_self)
      (.stmt ⟨id, .forLoop init condition update body⟩ :: above)
    refine exec_idle dead ((init_idle s dead).bind fun first first_dead => ?_) (by rw [exec])
    cases normal : first.normal with
    | none => exact .pure first_dead
    | some s' =>
      have loop := iterate_idle run
        (fun head exit => loopRound_idle guards updates body_idle)
        run.limits.maxLoopIterations (first_dead.normal s' normal) liveInOption_none
      exact loop.bind fun exit left => .pure (first_dead.after (Exits.liveIn_falls left))
  | forEach typeName item iterable body =>
    have iterable_idles := value (List.mem_cons_of_mem _ List.mem_cons_self) s dead
    have body_idle := parts (.stmt body)
      (List.mem_cons_of_mem _ (List.mem_cons_of_mem _ List.mem_cons_self))
      (.stmt ⟨id, .forEach typeName item iterable body⟩ :: above)
    refine exec_idle dead (iterable_idles.bind fun r idles => ?_) (by rw [exec])
    obtain ⟨carried, s'⟩ := r
    have off : carried = false := idles.value
    subst off
    have loop := iterate_idle run
      (fun head exit => itemRound_idle body_idle item.name)
      run.limits.maxLoopIterations idles.state idles.state.some
    exact loop.bind fun exit left => .pure (Exits.liveIn_falls left)
  | tryCatch resources body catches finish =>
    have declared := declare_idle (.stmt ⟨id, .tryCatch resources body catches finish⟩ :: above)
      (resources.flatMap (·.vars)) dead fun v hv => by
        obtain ⟨decl, hdecl, hv⟩ := List.mem_flatMap.mp hv
        refine parts (.var v) (List.mem_append_left _ (List.mem_append_left _
          (List.mem_append_left _ (List.mem_flatMap.mpr ⟨decl, hdecl, ?_⟩))))
        exact List.mem_map_of_mem hv
    have body_idle := execBlock_idle (parts (.block body) (List.mem_append_left _
      (List.mem_append_left _ (List.mem_append_right _ List.mem_cons_self))))
      (.stmt ⟨id, .tryCatch resources body catches finish⟩ :: above)
    have catches_idle : ∀ clause ∈ catches, run.Idle (depth + 1) (.block clause.body) := by
      intro clause hc
      refine parts (.block clause.body) (List.mem_append_left _ (List.mem_append_right _
        (List.mem_flatMap.mpr ⟨clause, hc, ?_⟩)))
      exact List.mem_cons_of_mem _ List.mem_cons_self
    have finish_idle : ∀ last ∈ finish, run.Idle (depth + 1) (.block last) := by
      intro last hl
      refine parts (.block last) (List.mem_append_right _ ?_)
      exact List.mem_map_of_mem (Option.mem_toList.mpr hl)
    refine exec_idle dead (declared.bind fun s' dead' => ?_) (by rw [exec]; rfl)
    refine (body_idle s' dead').bind fun tried tried_dead => ?_
    have handlerIn_dead : (s'.joinBack tried.normal).LiveIn [] := by
      cases normal : tried.normal with
      | none => exact dead'
      | some t => exact dead'.join (tried_dead.normal t normal)
    refine (execCatches_idle catches_idle handlerIn_dead tried_dead).bind fun caught left => ?_
    exact execFinish_idle finish_idle handlerIn_dead left
  | block body =>
    have body_idle := execBlock_idle (parts (.block body) List.mem_cons_self)
      (.stmt ⟨id, .block body⟩ :: above)
    exact exec_idle dead (body_idle s dead) (by rw [exec])
  | returnStmt result =>
    have result_idles := evalAny_idles dead fun e he => value (List.mem_map_of_mem he)
    refine exec_idle dead
      (result_idles.bind fun r idles => .pure (Exits.liveIn_falls liveInOption_none)) ?_
    rw [exec]
  | throwStmt thrown =>
    have thrown_idles := value List.mem_cons_self s dead
    refine exec_idle dead
      (thrown_idles.bind fun r idles => .pure (Exits.liveIn_falls liveInOption_none)) ?_
    rw [exec]
  | breakStmt =>
    exact exec_idle dead (.pure ⟨liveInOption_none, dead.some, liveInOption_none⟩) (by rw [exec])
  | continueStmt =>
    exact exec_idle dead (.pure ⟨liveInOption_none, liveInOption_none, dead.some⟩) (by rw [exec])
  | method head body =>
    exact exec_idle dead (.pure (Exits.liveIn_falls dead.some)) (by rw [exec])
  | cls head body =>
    exact exec_idle dead (.pure (Exits.liveIn_falls dead.some)) (by rw [exec])

/-- A class is not walked, whatever stands in it. -/
theorem idle_class {n : Node} (isClass : n.class?.isSome) : run.Idle depth n := by
  cases n with
  | cls _ => trivial
  | stmt stmt =>
    obtain ⟨id, form⟩ := stmt
    cases form with
    | cls head body =>
      intro above s dead
      exact exec_idle dead (.pure (Exits.liveIn_falls dead.some)) (by rw [exec])
    | _ => cases isClass
  | _ => cases isClass

/-- A node that is no expression is idle if its children are. -/
theorem idle_of_children {n : Node} (kind : n.expr? = none)
    (parts : ∀ c ∈ n.children, run.Idle (depth + n.stmt?.toList.length) c) : run.Idle depth n := by
  cases n with
  | unit _ | cls _ => trivial
  | block block =>
    intro above
    exact execAll_idle above fun stmt hs => parts (.stmt stmt) (List.mem_map_of_mem hs)
  | stmt stmt => exact idle_stmt parts
  | var v =>
    intro e init
    exact parts (.expr e) (List.mem_map_of_mem (Option.mem_toList.mpr init))
  | expr e => cases kind

end FlowRun

/-! ## Trees without the source -/

/-- An expression without the source avoids it. -/
theorem Node.avoids_of_copies {e source : Expr} (free : (Node.expr e).copies source = 0)
    {held : List String}
    (unread : ∀ x ∈ e.localReads, x ∉ held) : e.Avoids source held := by
  intro sub below
  refine ⟨copies_eq_zero_iff.mp free _ (expr_mem_subtree below), fun x reads => ?_⟩
  exact unread x (List.mem_filterMap.mpr ⟨sub, below, reads⟩)

namespace FlowRun

variable {run : FlowRun}

/-- A tree without the source is idle. -/
theorem idle_of_free {n : Node} (free : n.copies run.source = 0) (depth : Nat) :
    run.Idle depth n := by
  induction n using Node.inductionOn generalizing depth with
  | step n ih =>
    cases kind : n.expr? with
    | none =>
      apply idle_of_children kind
      intro c hc
      exact ih c hc (Node.copies_eq_zero_of_mem free hc) _
    | some e =>
      cases n with
      | expr e' =>
        intro above s dead
        exact eval_avoiding e' above
          (Node.avoids_of_copies free fun x _ => List.not_mem_nil) dead
      | _ => cases kind

/-- A tree with the source in one place is idle if a node around that place is.
The induction goes from that node outward: next to it there is no source. -/
theorem idle_around {n top : Node} {around : List Node} {depth : Nat} (kind : n.expr? = none)
    (genuine : Path.GenuineList (n :: around)) (last : (n :: around).getLast? = some top)
    (once : top.copies run.source ≤ 1) (here : 1 ≤ n.copies run.source)
    (idle : run.Idle (depth + Node.stmtCount around) n) : run.Idle depth top := by
  induction around generalizing n with
  | nil =>
    cases last
    exact idle
  | cons parent around ih =>
    have last : (parent :: around).getLast? = some top := by
      rwa [List.getLast?_cons_cons] at last
    have parent_once : parent.copies run.source ≤ 1 :=
      Nat.le_trans (Path.copies_le_of_genuine genuine.2 last) once
    have parent_kind : parent.expr? = none := Node.expr?_of_child genuine.1 kind
    refine ih parent_kind genuine.2 last
      (Nat.le_trans here (Node.copies_le_of_mem genuine.1)) ?_
    apply idle_of_children parent_kind
    intro c hc
    rcases Node.eq_or_copies_eq_zero parent_once genuine.1 here hc with same | free
    · rw [same, Nat.add_assoc, ← Node.stmtCount_cons]
      exact idle
    · exact idle_of_free free _

/-- The body around a block is idle if the block is, and if the source stands in
one place of the body. -/
theorem idle_body {block body : Block} {above : List Node} {index : Nat}
    (genuine : Path.GenuineList (.block block :: above))
    (found : Path.outerBody?.go (.block block :: above) = some (index, body))
    (once : (Node.block body).copies run.source ≤ 1)
    (here : 1 ≤ (Node.block block).copies run.source)
    (idle : run.Idle (Path.nestingInBody (.block block :: above)) (.block block)) :
    run.Idle 0 (.block body) := by
  obtain ⟨around, genuine, last, count⟩ := Path.outerBody?_go_around genuine found
  rw [← count] at idle
  refine idle_around rfl genuine last once here ?_
  rw [Nat.zero_add]
  exact idle

end FlowRun

end JavaMend
