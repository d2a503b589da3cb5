import JavaMend.Proofs.Flow.Idle
import JavaMend.Remedy.PathTraversal

/-!
# Guards close flows

A containment guard after the declaration of a path leaves nothing of the path to
follow.
-/

namespace JavaMend

open FlowM

/-! ## What creates no file -/

/-- A method that no sink for the creation of files describes. -/
def MethodRef.CreatesNoFile (m : MethodRef) : Prop :=
  ∀ sink ∈ Sink.createFile, sink.signature.accepts m = false

theorem CallMatcher.isSinkOf_eq_false {matcher : CallMatcher} {p : Path} {sinks : List Sink}
    (h : ∀ call operand, p.callWithOperand? = some (call, operand) →
      ∀ sink ∈ sinks, matcher.accepts call sink.signature = false) :
    matcher.isSinkOf p sinks = false := by
  simp only [CallMatcher.isSinkOf, List.any_eq_false, Bool.not_eq_true]
  intro sink mem
  cases around : p.callWithOperand? with
  | none => cases sink.operand <;> simp only [isArgumentOf, isReceiverOf, around]
  | some found =>
    obtain ⟨call, operand⟩ := found
    have refused := h call operand around sink mem
    cases sink.operand <;> simp only [isArgumentOf, isReceiverOf, around, refused, Bool.and_false]

/-- Nothing that is no operand of a call is a sink. -/
theorem CallMatcher.isSinkOf_of_no_call {matcher : CallMatcher} {p : Path} {sinks : List Sink}
    (h : p.callWithOperand? = none) : matcher.isSinkOf p sinks = false := by
  apply isSinkOf_eq_false
  intro call operand found
  rw [h] at found
  cases found

/-- No operand of a call that creates no file is a sink. -/
theorem CallMatcher.isSinkOf_of_createsNoFile {e : Expr} {id : NodeId} {ty : Ty}
    {receiver : Option Expr} {name : String} {args : List Expr} {m : MethodRef} {above : List Node}
    (h : m.CreatesNoFile) :
    CallMatcher.standard.isSinkOf
      ⟨.expr e :: .expr ⟨id, ty, .call receiver name args (some m)⟩ :: above⟩ Sink.createFile =
        false := by
  apply isSinkOf_eq_false
  intro call operand found sink mem
  cases found
  exact h sink mem

namespace PathTraversal.Guarding

/-- What is asked about a construction of a path. -/
def flowSpec (matcher : CallMatcher) (construction : Expr) : FlowSpec where
  kind := .taint
  isSource n := n.expr.same construction
  isSink n := matcher.isSinkOf n.path Sink.createFile
  sanitizes := some fun n branch => branch && checksContainment matcher n.expr

theorem isSink_flowSpec (matcher : CallMatcher) (construction : Expr) (n : Occurrence) :
    (flowSpec matcher construction).isSink n = matcher.isSinkOf n.path Sink.createFile :=
  rfl

theorem reachesSink_eq (env : PassEnv) (path : Path) (construction : Expr) :
    reachesSink env path construction =
      (env.queryFrom path).reachesSink (flowSpec env.matcher construction) :=
  rfl

end PathTraversal.Guarding

open PathTraversal.Guarding

/-! ## Walking a guard -/

/-- The local `name`, or what calls on it make of it without creating a file. -/
inductive Expr.PathOf (name : String) : Expr → Prop where
  | read {id : NodeId} {ty : Ty} : PathOf name ⟨id, ty, .ident name none⟩
  | call {id : NodeId} {ty : Ty} {receiver : Expr} {method : String} {m : MethodRef}
      (inner : PathOf name receiver) (harmless : m.CreatesNoFile) :
      PathOf name ⟨id, ty, .call (some receiver) method [] (some m)⟩

/-- A check that a path that is made of the local `name` starts with something
else. -/
inductive Expr.Checks (name : String) : Expr → Prop where
  | startsWith {id : NodeId} {ty : Ty} {receiver directory : Expr} {method : String} {m : MethodRef}
      (path : receiver.PathOf name) (other : name ∉ directory.localReads)
      (harmless : m.CreatesNoFile) (contains : pathStartsWith.any (·.accepts m) = true) :
      Checks name ⟨id, ty, .call (some receiver) method [directory] (some m)⟩

namespace Expr

variable {e c : Expr} {name : String}

theorem PathOf.mem_localReads (path : e.PathOf name) : name ∈ e.localReads := by
  induction path with
  | read => exact mem_localReads_self rfl
  | call inner harmless ih => exact mem_localReads_of_child List.mem_cons_self ih

theorem Checks.mem_localReads (checks : e.Checks name) : name ∈ e.localReads := by
  cases checks with
  | startsWith path other harmless contains =>
    exact mem_localReads_of_child List.mem_cons_self path.mem_localReads

theorem unparen_call {id : NodeId} {ty : Ty} {receiver : Option Expr} {args : List Expr}
    {m : Option MethodRef} :
    unparen ⟨id, ty, .call receiver name args m⟩ = ⟨id, ty, .call receiver name args m⟩ := by
  rw [unparen]
  simp

end Expr

/-- A guard that throws unless a check of the local `name` holds. -/
inductive Stmt.Guards (name : String) : Stmt → Prop where
  | throws {id notId blockId innerId throwId : NodeId} {ty : Ty} {isStatic : Bool}
      {check thrown : Expr} (checks : check.Checks name) (other : name ∉ thrown.localReads) :
      Guards name ⟨id, .ifElse ⟨notId, ty, .unary .not check⟩
        ⟨blockId, .block ⟨innerId, isStatic, [⟨throwId, .throwStmt thrown⟩]⟩⟩ none⟩

namespace FlowRun

variable {run : FlowRun} {construction : Expr} {held : List String} {above : List Node}
  {s : FlowState} {name : String}

/-- A method call that is no sink, whose receiver may carry the value. -/
theorem call_keeps {id : NodeId} {ty : Ty} {receiver : Expr} {method : String} {args : List Expr}
    {m : Option MethodRef}
    (no : run.spec.isSink ⟨⟨id, ty, .call (some receiver) method args m⟩,
      ⟨.expr ⟨id, ty, .call (some receiver) method args m⟩ :: above⟩⟩ = false)
    (h : Sinkless (Keeps held)
      (run.eval (.expr ⟨id, ty, .call (some receiver) method args m⟩ :: above) receiver s))
    (others : ∀ arg ∈ args, arg.Avoids run.source held) :
    Sinkless (Keeps held) (run.eval above ⟨id, ty, .call (some receiver) method args m⟩ s) := by
  have made : Sinkless (Keeps held)
      (run.eval (.expr ⟨id, ty, .call (some receiver) method args m⟩ :: above) receiver s >>=
        fun r => run.evalAny (.expr ⟨id, ty, .call (some receiver) method args m⟩ :: above) args r.2
          >>= fun r' => pure (run.isTaint && (r.1 || r'.1), r'.2)) := by
    refine h.bind fun r keeps => ?_
    refine (evalAny_idles keeps fun arg mem s => ?_).bind fun r' idles => .pure idles.state
    exact eval_avoiding arg _ (others arg mem)
  rw [eval]
  exact settle_keeps no made

/-- What is made of a live local reaches no sink. -/
theorem pathOf_keeps (spec : run.spec = flowSpec .standard construction) {e : Expr}
    (path : e.PathOf name) (h : s.LiveIn held)
    (no : run.spec.isSink ⟨e, ⟨.expr e :: above⟩⟩ = false) :
    Sinkless (Keeps held) (run.eval above e s) := by
  induction path generalizing above with
  | read =>
    have read : Sinkless (Keeps held) (pure (s.isLive name, s)) := .pure h
    rw [eval]
    exact settle_keeps no read
  | call inner harmless ih =>
    refine call_keeps no (ih ?_) fun arg mem => (List.not_mem_nil mem).elim
    rw [spec, isSink_flowSpec]
    exact CallMatcher.isSinkOf_of_createsNoFile harmless

theorem assume_call {branch : Bool} {id : NodeId} {ty : Ty} {receiver : Option Expr}
    {method : String} {args : List Expr} {m : Option MethodRef} :
    run.assume above branch ⟨id, ty, .call receiver method args m⟩ s =
      run.assumeAtom (.expr ⟨id, ty, .call receiver method args m⟩ :: above)
        ⟨id, ty, .call receiver method args m⟩ branch s := by
  rw [assume] <;> simp

theorem assume_not {branch : Bool} {id : NodeId} {ty : Ty} {operand : Expr} :
    run.assume above branch ⟨id, ty, .unary .not operand⟩ s =
      run.assume (.expr ⟨id, ty, .unary .not operand⟩ :: above) (!branch) operand s := by
  rw [assume]

/-- A condition that sanitizes covers the locals that it reads. -/
theorem assumeAtom_covers {here : List Node} {e : Expr} {branch : Bool}
    {sanitizes : Occurrence → Bool → Bool} (asked : run.spec.sanitizes = some sanitizes)
    (covers : sanitizes ⟨e, ⟨here⟩⟩ branch = true) (h : s.LiveIn held)
    (reads : ∀ x ∈ held, x ∈ e.localReads) :
    Sinkless (FlowState.LiveIn []) (run.assumeAtom here e branch s) := by
  unfold assumeAtom
  simp only [asked]
  by_cases dead : (s.liveCount == 0) = true
  · simp only [dead, if_true]
    refine .pure fun x live => ?_
    rw [FlowState.liveCount_eq_zero_iff.mp (by simpa using dead) x] at live
    cases live
  · simp only [dead, if_false, Bool.false_eq_true, covers, if_true]
    intro t clean
    refine ⟨clean, fun x live => ?_⟩
    change (e.localReads.foldl FlowState.sanitize s).isLive x = true at live
    rw [FlowState.isLive_foldl_sanitize, Bool.and_eq_true] at live
    have read := List.contains_iff_mem.mpr (reads x (h x live.1))
    rw [read] at live
    cases live.2

theorem avoids_one {e source : Expr} (free : (Node.expr e).copies source = 0)
    (unread : name ∉ e.localReads) : e.Avoids source [name] := by
  apply Node.avoids_of_copies free
  intro x reads held
  rw [List.mem_singleton.mp held] at reads
  exact unread reads

/-- A check reaches no sink, though the path that it checks is live. -/
theorem check_keeps (spec : run.spec = flowSpec .standard construction) {check : Expr}
    (checks : check.Checks name) (free : (Node.expr check).copies run.source = 0)
    (h : s.LiveIn [name]) (no : run.spec.isSink ⟨check, ⟨.expr check :: above⟩⟩ = false) :
    Sinkless (Keeps [name]) (run.eval above check s) := by
  cases checks with
  | startsWith path other harmless contains =>
    refine call_keeps no (pathOf_keeps spec path h ?_) fun arg mem => ?_
    · rw [spec, isSink_flowSpec]
      exact CallMatcher.isSinkOf_of_createsNoFile harmless
    · rw [List.mem_singleton.mp mem]
      refine avoids_one (Node.copies_eq_zero_of_mem free ?_) other
      exact List.mem_map_of_mem (List.mem_cons_of_mem _ List.mem_cons_self)

/-- On the branch on which a check holds, nothing is live any more. -/
theorem assume_check (spec : run.spec = flowSpec .standard construction) {check : Expr}
    (checks : check.Checks name) (h : s.LiveIn [name]) (above : List Node) :
    Sinkless (FlowState.LiveIn []) (run.assume above true check s) := by
  have reads := checks.mem_localReads
  cases checks with
  | startsWith path other harmless contains =>
    rw [assume_call]
    have asked : run.spec.sanitizes =
        some fun n branch => branch && checksContainment .standard n.expr := by rw [spec]; rfl
    refine assumeAtom_covers asked ?_ h fun x held => List.mem_singleton.mp held ▸ reads
    show (checksContainment .standard _) = true
    rw [checksContainment, Expr.unparen_call, Bool.or_eq_true]
    exact .inl contains

/-- The throw of a guard is walked, and control ends there. -/
theorem throw_leaves {thrown : Expr} (depth : Nat) (deep : depth + 1 < run.limits.maxDepth)
    (h : s.LiveIn held) (other : thrown.Avoids run.source held) (above : List Node)
    (blockId innerId throwId : NodeId) (isStatic : Bool) :
    Sinkless (· = Exits.falls none)
      (run.exec above depth
        ⟨blockId, .block ⟨innerId, isStatic, [⟨throwId, .throwStmt thrown⟩]⟩⟩ s) := by
  have walked : ∀ {d}, d ≤ depth + 1 → decide (run.limits.maxDepth ≤ d) = false :=
    fun le => decide_eq_false (by omega)
  rw [exec]
  apply Sinkless.unlessDone
  rw [walked (Nat.le_succ depth)]
  simp only [Bool.or_self, Bool.false_eq_true, if_false]
  rw [execBlock, execAll]
  apply Sinkless.unlessDone
  simp only [Bool.false_eq_true, if_false]
  have thrown_idles := fun above => eval_avoiding thrown above other h
  have leaves : ∀ above, Sinkless (· = Exits.falls none)
      (run.exec above (depth + 1) ⟨throwId, .throwStmt thrown⟩ s) := by
    intro above
    rw [exec]
    apply Sinkless.unlessDone
    rw [walked (Nat.le_refl _)]
    exact (thrown_idles _).bind fun _ _ => .pure rfl
  refine (leaves _).bind fun exits left => ?_
  rw [left]
  exact .pure rfl

/-- Behind a guard nothing is live: where its check fails control leaves, and
where it holds the path is covered. -/
theorem guard_closes (spec : run.spec = flowSpec .standard construction) {guard : Stmt}
    (guards : guard.Guards name) (free : (Node.stmt guard).copies run.source = 0) {depth : Nat}
    (deep : depth + 2 < run.limits.maxDepth) (h : s.LiveIn [name]) :
    Sinkless (Exits.LiveIn []) (run.exec above depth guard s) := by
  cases guards with
  | @throws id notId blockId innerId throwId ty isStatic check thrown checks other =>
    have condition_free := Node.copies_eq_zero_of_mem free List.mem_cons_self
    have check_free : (Node.expr check).copies run.source = 0 :=
      Node.copies_eq_zero_of_mem condition_free List.mem_cons_self
    have thrown_free : (Node.expr thrown).copies run.source = 0 := by
      have onTrue_free := Node.copies_eq_zero_of_mem free
        (List.mem_cons_of_mem _ List.mem_cons_self)
      have block_free := Node.copies_eq_zero_of_mem onTrue_free List.mem_cons_self
      have throw_free := Node.copies_eq_zero_of_mem block_free List.mem_cons_self
      exact Node.copies_eq_zero_of_mem throw_free List.mem_cons_self
    have condition_keeps : ∀ here, Sinkless (Keeps [name])
        (run.eval (.stmt here :: above) ⟨notId, ty, .unary .not check⟩ s) := by
      intro here
      have no : run.spec.isSink ⟨check, ⟨.expr check :: .expr ⟨notId, ty, .unary .not check⟩ ::
          .stmt here :: above⟩⟩ = false := by
        rw [spec, isSink_flowSpec]
        exact CallMatcher.isSinkOf_of_no_call rfl
      have negated : Sinkless (Keeps [name]) (run.eval (.expr ⟨notId, ty, .unary .not check⟩ ::
          .stmt here :: above) check s >>= fun r => pure (false, r.2)) :=
        (check_keeps spec checks check_free h no).bind fun _ keeps => .pure keeps
      rw [eval]
      refine settle_keeps ?_ negated
      rw [spec, isSink_flowSpec]
      exact CallMatcher.isSinkOf_of_no_call rfl
    rw [exec]
    apply Sinkless.unlessDone
    rw [decide_eq_false (by omega)]
    refine (condition_keeps _).bind fun r keeps => ?_
    refine (assume_sinkless _ true keeps).bind fun s₁ h₁ => ?_
    have leaves := throw_leaves (depth + 1) (by omega) h₁ (avoids_one thrown_free other)
    refine (leaves _ _ _ _ _).bind fun yes left => ?_
    have covered := assume_check spec checks keeps
    rw [assume_not]
    refine (covered _).bind fun s₂ dead => ?_
    rw [left]
    exact .pure (Exits.liveIn_falls dead.some)

/-! ## Walking a guarded declaration -/

/-- The source with nothing live in front of it. -/
theorem source_keeps {e : Expr} (free : ∀ c ∈ e.children, (Node.expr c).copies run.source = 0)
    (h : s.LiveIn []) (no : run.spec.isSink ⟨e, ⟨.expr e :: above⟩⟩ = false) :
    Sinkless (Keeps []) (run.eval above e s) := by
  have parts : ∀ c ∈ e.children, ∀ s', s'.LiveIn [] →
      Sinkless (Idles []) (run.eval (.expr e :: above) c s') := by
    intro c hc s' h'
    exact eval_avoiding c _ (Node.avoids_of_copies (free c hc) fun _ _ => List.not_mem_nil) h'
  obtain ⟨walk, same, idles⟩ := eval_eq_settle (fun _ _ => List.not_mem_nil) h parts
  rw [same]
  exact settle_keeps no (idles.mono fun r h => h.state)

/-- The source in parentheses that stand in no call. -/
theorem wrapped_keeps (spec : run.spec = flowSpec .standard construction) {e : Expr}
    (free : ∀ c ∈ e.unparen.children, (Node.expr c).copies run.source = 0) (h : s.LiveIn [])
    (outside : ∀ value, callAround? value above = none) :
    Sinkless (Keeps []) (run.eval above e s) := by
  have no : ∀ (e : Expr) above, (∀ value, callAround? value above = none) →
      run.spec.isSink ⟨e, ⟨.expr e :: above⟩⟩ = false := by
    intro e above outside
    rw [spec, isSink_flowSpec]
    exact CallMatcher.isSinkOf_of_no_call (outside e)
  fun_induction Expr.unparen e generalizing above with
  | case1 id ty inner ih =>
    have inner_keeps : Sinkless (Keeps [])
        (run.eval (.expr ⟨id, ty, .parens inner⟩ :: above) inner s) :=
      ih free fun value => outside _
    rw [eval]
    exact settle_keeps (no _ _ outside) inner_keeps
  | case2 e plain => exact source_keeps free h (no _ _ outside)

/-- After the declaration only its variable can be live. -/
theorem declare_holds (spec : run.spec = flowSpec .standard construction) {v : Variable}
    {init : Expr} (initialized : v.init = some init)
    (free : ∀ c ∈ init.unparen.children, (Node.expr c).copies run.source = 0) (h : s.LiveIn []) :
    Sinkless (FlowState.LiveIn [v.name]) (run.declare above [v] s) := by
  rw [declare]
  simp only [initialized]
  refine (wrapped_keeps spec free h fun _ => rfl).bind fun r keeps => .pure ?_
  refine FlowState.LiveIn.assign (fun x live => ?_) fun _ => List.mem_singleton_self _
  exact (List.not_mem_nil (keeps x live)).elim

/-- A block in which a guard follows the declaration of a path is idle. -/
theorem guarded_idle (spec : run.spec = flowSpec .standard construction) {front back : List Stmt}
    {v : Variable} {init : Expr} {guard : Stmt} {depth : Nat} (initialized : v.init = some init)
    (free : ∀ c ∈ init.unparen.children, (Node.expr c).copies run.source = 0)
    (guards : guard.Guards v.name) (deep : depth + 2 < run.limits.maxDepth)
    (others : ∀ stmt ∈ front ++ guard :: back, (Node.stmt stmt).copies run.source = 0)
    (id : NodeId) (modifiers : List Modifier) (typeName : String) (above : List Node) :
    IdleBody (run.execAll above depth
      (front ++ ⟨id, .declare ⟨modifiers, typeName, [v]⟩⟩ :: guard :: back)) := by
  apply execAll_append_idle
  · intro stmt mem
    exact idle_of_free (others stmt (List.mem_append_left _ mem)) depth
  · intro s dead
    have declared : Sinkless (FlowState.LiveIn [v.name])
        (run.declare (.stmt ⟨id, .declare ⟨modifiers, typeName, [v]⟩⟩ :: above) [v] s) :=
      declare_holds spec initialized free dead
    have closed : ∀ s', s'.LiveIn [v.name] →
        Sinkless (Exits.LiveIn []) (run.execAll above depth (guard :: back) s') := by
      intro s' held
      have guard_free := others guard (List.mem_append_right _ List.mem_cons_self)
      have guard_closed : Sinkless (Exits.LiveIn []) (run.exec above depth guard s') :=
        guard_closes spec guards guard_free deep held
      have back_idle := execAll_idle above fun stmt mem =>
        idle_of_free (others stmt (List.mem_append_right _ (List.mem_cons_of_mem _ mem))) depth
      exact execAll_cons_sinkless
        (guard_closed.mono fun exits h => ⟨h.normal, h.breaks, h.continues⟩) back_idle
    refine execAll_cons_sinkless ?_ closed
    rw [exec]
    apply Sinkless.unlessDone
    rw [decide_eq_false (by omega)]
    exact declared.bind fun s' held => .pure ⟨held.some, liveInOption_none, liveInOption_none⟩

end FlowRun

end JavaMend
