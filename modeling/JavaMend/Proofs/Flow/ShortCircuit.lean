import JavaMend.Proofs.Flow.Passing

/-!
# Operands that may be skipped

Java evaluates the right operand of `&&` and `||` only if the left one does not settle
the result. A walk evaluates both, one after the other, in one state: what the right
operand does to a local is taken for granted. A local that it leaves alone
(`FlowSpec.Spares`) is as live after the whole expression as after the left operand
(`FlowRun.isLive_eval_binary`), and the sinks that it reaches afterwards are found
(`FlowQuery.Follows.isLive_operands`).
-/

namespace JavaMend

variable {α β : Type}

/-! ## Answers -/

/-- Whatever was found before, what the walk answers is as `post` says. -/
def FlowM.Answers (post : α → Prop) (walk : FlowM α) : Prop := ∀ t, post (walk t).1

namespace FlowM

variable {post : α → Prop}

theorem answers_pure {a : α} (h : post a) : Answers post (pure a) := fun _ => h

theorem Answers.bind {post' : β → Prop} {walk : FlowM α} {next : α → FlowM β}
    (first : Answers post walk) (more : ∀ a, post a → Answers post' (next a)) :
    Answers post' (walk >>= next) := by
  intro t
  exact more (walk t).1 (first t) (walk t).2

/-- What is done first may answer anything. -/
theorem Answers.after {post' : β → Prop} {walk : FlowM α} {next : α → FlowM β}
    (more : ∀ a, Answers post' (next a)) : Answers post' (walk >>= next) := by
  intro t
  exact more (walk t).1 (walk t).2

end FlowM

/-! ## Locals left alone -/

/-- The evaluation of an expression leaves a local alone: nothing in it is assigned to the
local, and no branch of a conditional in it covers the local. -/
structure FlowSpec.Spares (spec : FlowSpec) (x : String) (above : List Node) (e : Expr) : Prop where
  unwritten : ∀ n ∈ (Node.expr e).own, n.written? ≠ some x
  uncovered : ∀ o ∈ (Node.expr e).occurrences above, ∀ condition onTrue onFalse,
    o.expr.form = .ternary condition onTrue onFalse →
      ∀ branch, x ∉ spec.dropped o.path.outward branch condition

theorem FlowSpec.Spares.child {spec : FlowSpec} {x : String} {above : List Node} {e d : Expr}
    (h : spec.Spares x above e) (mem : d ∈ e.children) : spec.Spares x (.expr e :: above) d where
  unwritten n hn := h.unwritten n (Node.mem_own_of_child rfl (List.mem_map_of_mem mem) hn)
  uncovered o ho := h.uncovered o (Node.mem_occurrences_of_child rfl (List.mem_map_of_mem mem) ho)

/-- Without guards nothing is covered. -/
theorem FlowSpec.dropped_eq_nil {spec : FlowSpec} (unguarded : spec.sanitizes = none)
    (above : List Node) (branch : Bool) (e : Expr) : spec.dropped above branch e = [] := by
  fun_induction FlowSpec.dropped spec above branch e with
  | case1 above branch id ty inner here ih => exact ih
  | case2 above branch id ty operand here ih => exact ih
  | case3 above branch id ty op left right both here ihLeft ihRight => rw [ihLeft, ihRight]; rfl
  | case4 | case5 => rw [FlowSpec.droppedBy, unguarded]

/-- Without guards an expression leaves every local alone that it does not assign. -/
theorem FlowSpec.spares_of_unwritten {spec : FlowSpec} (unguarded : spec.sanitizes = none)
    {x : String} {e : Expr} (unwritten : ∀ n ∈ (Node.expr e).own, n.written? ≠ some x)
    (above : List Node) : spec.Spares x above e where
  unwritten := unwritten
  uncovered o _ condition _ _ _ branch := by
    rw [FlowSpec.dropped_eq_nil unguarded]
    exact List.not_mem_nil

namespace FlowRun

open FlowM

variable {run : FlowRun} {above here : List Node} {x : String} {live : Bool} {s : FlowState}

/-- A condition covers the locals that a course drops there, and no others. -/
theorem assume_answers (branch : Bool) (e : Expr) (s : FlowState) :
    Answers (fun t => t.isLive x = (s.isLive x && !(run.spec.dropped above branch e).contains x))
      (run.assume above branch e s) := by
  fun_induction FlowSpec.dropped run.spec above branch e generalizing s with
  | case1 above branch id ty inner here ih =>
    rw [assume]
    exact ih s
  | case2 above branch id ty operand here ih =>
    rw [assume]
    exact ih s
  | case3 above branch id ty op left right both here ihLeft ihRight =>
    rw [assume, if_pos both]
    refine (ihLeft s).bind fun t covered => ?_
    intro trace
    rw [ihRight t trace, covered]
    simp [Bool.and_assoc]
  | case4 above branch id ty op left right single here =>
    rw [assume, if_neg single]
    obtain ⟨t, ⟨_, walks⟩, covered⟩ := assumeAtom_yields run _ _ branch s
    intro trace
    rw [walks]
    exact covered x
  | case5 above branch e noParens noNot noBinary here =>
    have atom : run.assume above branch e s = run.assumeAtom (.expr e :: above) e branch s := by
      rw [assume] <;> assumption
    obtain ⟨t, ⟨_, walks⟩, covered⟩ := assumeAtom_yields run (.expr e :: above) e branch s
    intro trace
    rw [atom, walks]
    exact covered x

/-- The local is live afterwards or not, as said. -/
def Untouched (x : String) (live : Bool) (walk : FlowM (Bool × FlowState)) : Prop :=
  Answers (fun r => r.2.isLive x = live) walk

theorem untouched_pure {value : Bool} (h : s.isLive x = live) : Untouched x live (pure (value, s)) :=
  answers_pure h

/-- A value that is made of another. -/
theorem Untouched.value {walk : FlowM (Bool × FlowState)} (h : Untouched x live walk)
    (f : Bool → Bool) : Untouched x live (walk >>= fun r => pure (f r.1, r.2)) :=
  h.bind fun _ kept => answers_pure kept

/-- A value that is made of two others, one after the other. -/
theorem Untouched.both {walk : FlowM (Bool × FlowState)}
    {next : FlowState → FlowM (Bool × FlowState)} (first : Untouched x live walk)
    (second : ∀ s : FlowState, s.isLive x = live → Untouched x live (next s))
    (f : Bool → Bool → Bool) :
    Untouched x live (walk >>= fun r => next r.2 >>= fun q => pure (f r.1 q.1, q.2)) :=
  first.bind fun r kept => (second r.2 kept).value (f r.1)

theorem Untouched.settle {e : Expr} {walk : FlowM (Bool × FlowState)} (before : s.isLive x = live)
    (h : Untouched x live walk) : Untouched x live (run.settle here e s walk) := by
  refine .after fun done => ?_
  split
  · exact answers_pure before
  · refine Answers.bind h fun r kept => ?_
    split
    · exact .after fun _ => answers_pure kept
    · exact answers_pure kept

theorem evalAny_untouched {es : List Expr}
    (parts : ∀ e ∈ es, ∀ s : FlowState, s.isLive x = live → Untouched x live (run.eval above e s))
    (before : s.isLive x = live) : Untouched x live (run.evalAny above es s) := by
  induction es generalizing s with
  | nil =>
    rw [evalAny]
    exact untouched_pure before
  | cons e rest ih =>
    rw [evalAny]
    have first := parts e List.mem_cons_self s before
    have more := fun (s : FlowState) => ih (s := s) fun d hd => parts d (List.mem_cons_of_mem _ hd)
    exact first.both more (· || ·)

/-- A conditional leaves a local alone if its parts do and neither branch covers it. -/
theorem untouched_branches {condition : Expr} {yes no : FlowState → FlowM (Bool × FlowState)}
    (first : Untouched x live (run.eval here condition s))
    (free : ∀ branch, x ∉ run.spec.dropped here branch condition)
    (onTrue : ∀ s : FlowState, s.isLive x = live → Untouched x live (yes s))
    (onFalse : ∀ s : FlowState, s.isLive x = live → Untouched x live (no s)) :
    Untouched x live (run.eval here condition s >>= fun r =>
      run.assume here true condition r.2 >>= fun s₁ => yes s₁ >>= fun a =>
      run.assume here false condition r.2 >>= fun s₂ => no s₂ >>= fun b =>
        pure (a.1 || b.1, a.2.join b.2)) := by
  have enter (branch : Bool) {s : FlowState} (before : s.isLive x = live) :
      Answers (fun t => t.isLive x = live) (run.assume here branch condition s) := by
    intro t
    rw [assume_answers branch condition s t, before]
    simp [free branch]
  refine Answers.bind first fun r kept => ?_
  refine (enter true kept).bind fun s₁ entered₁ => ?_
  refine Answers.bind (onTrue s₁ entered₁) fun a kept₁ => ?_
  refine (enter false kept).bind fun s₂ entered₂ => ?_
  refine Answers.bind (onFalse s₂ entered₂) fun b kept₂ => untouched_pure ?_
  rw [FlowState.isLive_join, kept₁, kept₂, Bool.or_self]

/-- An expression leaves a local alone if its parts do. -/
theorem eval_untouched_of_children {e : Expr} (spares : run.spec.Spares x above e)
    (parts : ∀ d ∈ e.children, ∀ s : FlowState, s.isLive x = live →
      Untouched x live (run.eval (.expr e :: above) d s))
    (before : s.isLive x = live) : Untouched x live (run.eval above e s) := by
  have around {walk : FlowM (Bool × FlowState)}
      (same : run.eval above e s = run.settle (.expr e :: above) e s walk)
      (h : Untouched x live walk) : Untouched x live (run.eval above e s) := same ▸ h.settle before
  obtain ⟨id, ty, form⟩ := e
  cases form with
  | ident name owner =>
    cases owner with
    | none => exact around (by rw [eval]; rfl) (untouched_pure before)
    | some owner => exact around (by rw [eval]; rfl) (untouched_pure before)
  | literal value => exact around (by rw [eval]; rfl) (untouched_pure before)
  | field target name =>
    have target_keeps := parts target List.mem_cons_self s before
    exact around (by rw [eval]; rfl) (target_keeps.value (run.isTaint && ·))
  | call receiver name args method =>
    cases receiver with
    | none =>
      have args_keep := evalAny_untouched parts before
      exact around (by rw [eval]; rfl) (args_keep.value (run.isTaint && ·))
    | some receiver =>
      have receiver_keeps := parts receiver List.mem_cons_self s before
      have args_keep (s : FlowState) := evalAny_untouched (s := s) fun d hd =>
        parts d (List.mem_cons_of_mem _ hd)
      have made := receiver_keeps.both args_keep fun r args => run.isTaint && (r || args)
      exact around (by rw [eval]; rfl) made
  | create className args method =>
    exact around (by rw [eval]; rfl) ((evalAny_untouched parts before).value (run.isTaint && ·))
  | array element size =>
    have size_keeps := parts size List.mem_cons_self s before
    exact around (by rw [eval]; rfl) (size_keeps.value fun _ => false)
  | binary op left right =>
    have left_keeps := parts left List.mem_cons_self s before
    have right_keeps := parts right (List.mem_cons_of_mem _ List.mem_cons_self)
    have made := left_keeps.both right_keeps fun left right =>
      run.isTaint && op == .add && ty.isString && (left || right)
    exact around (by rw [eval]; rfl) made
  | unary op operand =>
    have operand_keeps := parts operand List.mem_cons_self s before
    exact around (by rw [eval]; rfl) (operand_keeps.value fun _ => false)
  | assign op target value =>
    have value_keeps := parts value (List.mem_cons_of_mem _ List.mem_cons_self)
    cases local_ : target.localName? with
    | none =>
      have target_keeps := parts target List.mem_cons_self s before
      refine around ?_ (target_keeps.both value_keeps fun _ value => value)
      rw [eval]
      simp only [local_]
      rfl
    | some name =>
      have other : x ≠ name := by
        rintro rfl
        exact spares.unwritten _ Node.mem_own_self local_
      have stored (walk : FlowM (Bool × FlowState)) (f : Bool → Bool) (h : Untouched x live walk) :
          Untouched x live (walk >>= fun r => pure (f r.1, r.2.assign name (f r.1))) := by
        refine Answers.bind h fun r kept => answers_pure ?_
        rw [FlowState.isLive_assign, if_neg other, kept]
      cases op with
      | none =>
        refine around ?_ (stored _ (fun value => value) (value_keeps s before))
        rw [eval]
        simp only [local_]
        rfl
      | some op =>
        refine around ?_ (stored _ (fun value => run.isTaint && (s.isLive name || value))
          (value_keeps s before))
        rw [eval]
        simp only [local_]
        rfl
  | parens inner => exact around (by rw [eval]; rfl) (parts inner List.mem_cons_self s before)
  | cast typeName operand =>
    exact around (by rw [eval]; rfl) (parts operand List.mem_cons_self s before)
  | ternary condition onTrue onFalse =>
    have condition_keeps := parts condition List.mem_cons_self s before
    have yes_keeps := parts onTrue (List.mem_cons_of_mem _ List.mem_cons_self)
    have no_keeps :=
      parts onFalse (List.mem_cons_of_mem _ (List.mem_cons_of_mem _ List.mem_cons_self))
    have free := spares.uncovered _ Node.mem_occurrences_self condition onTrue onFalse rfl
    exact around (by rw [eval]; rfl) (untouched_branches condition_keeps free yes_keeps no_keeps)

/-- The evaluation of an expression that leaves a local alone. -/
theorem eval_untouched (e : Expr) (above : List Node) (spares : run.spec.Spares x above e)
    {s : FlowState} (before : s.isLive x = live) : Untouched x live (run.eval above e s) :=
  eval_untouched_of_children spares
    (fun d mem _ before' => eval_untouched d _ (spares.child mem) before') before
termination_by sizeOf e
decreasing_by exact Expr.sizeOf_lt_of_mem_children mem

/-- What is done around the parts of an expression changes no local. -/
theorem answer_settle (whole : run.stopAtFirst = false) {e : Expr} {walk : FlowM (Bool × FlowState)}
    (steady : run.Steady walk) :
    (FlowM.answer (run.settle here e s walk)).2 = (FlowM.answer walk).2 := by
  obtain ⟨log, yields⟩ := steady.yields_answer
  obtain ⟨_, more, offers⟩ :
      run.Steady (run.announce here e ((FlowM.answer walk).1 || e.same run.source)) := by
    unfold announce
    split
    · exact ⟨(), _, yields_offer here e⟩
    · exact steady_pure ()
  have all : run.Yields (run.settle here e s walk)
      ((FlowM.answer walk).1 || e.same run.source, (FlowM.answer walk).2) (log ++ (more ++ [])) := by
    rw [settle_eq]
    refine (yields_isDone whole).bind_silent ?_
    simp only [Bool.false_eq_true, if_false]
    exact yields.bind (offers.bind (yields_pure _))
  rw [all.answer]

/-- Both operands of an operator are evaluated, the right one from where the left one ends. -/
theorem answer_eval_binary (whole : run.stopAtFirst = false) {e left right : Expr} {op : BinaryOp}
    (form : e.form = .binary op left right) :
    (FlowM.answer (run.eval above e s)).2 = (FlowM.answer (run.eval (.expr e :: above) right
      (FlowM.answer (run.eval (.expr e :: above) left s)).2)).2 := by
  obtain ⟨id, ty, _⟩ := e
  cases form
  have steady (e : Expr) (above : List Node) (t : FlowState) : run.Steady (run.eval above e t) :=
    steady_eval whole e
  have parts (above : List Node) : run.Steady (run.eval above left s >>= fun r =>
      run.eval above right r.2 >>= fun q =>
        pure (run.isTaint && op == .add && ty.isString && (r.1 || q.1), q.2)) :=
    (steady left above s).bind fun r => (steady right above r.2).bind fun q => steady_pure _
  rw [eval]
  refine (answer_settle whole (parts _)).trans ?_
  rw [(steady left _ s).answer_bind ((steady right _ _).bind fun _ => steady_pure _),
    (steady right _ _).answer_map]

/-- A local that the right operand leaves alone is as live after both operands as after
the left one. -/
theorem isLive_eval_binary (whole : run.stopAtFirst = false) {e left right : Expr} {op : BinaryOp}
    (form : e.form = .binary op left right) (spares : run.spec.Spares x (.expr e :: above) right) :
    (FlowM.answer (run.eval above e s)).2.isLive x =
      (FlowM.answer (run.eval (.expr e :: above) left s)).2.isLive x := by
  rw [answer_eval_binary whole form]
  exact eval_untouched right _ spares rfl ⟨[], [], []⟩

end FlowRun

namespace FlowQuery

variable {query : FlowQuery} {spec : FlowSpec} {source : Expr} {top above : List Node}
  {body : Block} {s : FlowState} {x : String}

/-- A local that is live after the left operand, and that the right one leaves alone, is
live after the whole expression, wherever this stands in the body. A sink that the rest of
the walk reaches with the local live is found. -/
theorem Follows.isLive_operands (follows : query.Follows spec source top body) {e left right : Expr}
    {op : BinaryOp} (form : e.form = .binary op left right)
    {after : Bool × FlowState → FlowM Exits}
    (comes : (query.run spec source).Comes ((query.run spec source).eval above e s) after
      (query.walk spec source top body))
    (live : (FlowM.answer
      ((query.run spec source).eval (.expr e :: above) left s)).2.isLive x = true)
    (spares : spec.Spares x (.expr e :: above) right) :
    (FlowM.answer ((query.run spec source).eval above e s)).2.isLive x = true ∧
      ∀ o ∈ body.occurrences top, spec.isSink o = true →
        (∀ r, r.2.isLive x = true → o ∈ (after r ⟨[], [], []⟩).2.offered) →
          o ∈ (query.findSinks spec).sinks := by
  have whole : (query.run spec source).stopAtFirst = false := rfl
  have live_after : (FlowM.answer ((query.run spec source).eval above e s)).2.isLive x = true := by
    rw [FlowRun.isLive_eval_binary whole form spares, live]
  refine ⟨live_after, fun o stands sink later => ?_⟩
  have steady : (query.run spec source).Steady ((query.run spec source).eval above e s) :=
    FlowRun.steady_eval whole e
  obtain ⟨log, yields⟩ := steady.yields_answer
  obtain ⟨exits, more, goesOn⟩ :=
    comes.goesOn (FlowM.answer ((query.run spec source).eval above e s))
  obtain ⟨before, all⟩ := comes.yields yields goesOn
  have offered := later _ live_after
  obtain ⟨_, walks⟩ := goesOn
  rw [walks] at offered
  have mem : o ∈ more := (FlowRun.mem_of_offered_foldl offered).resolve_left List.not_mem_nil
  exact follows.mem_sinks all (by simp [mem]) stands sink

end FlowQuery

namespace SkippedText

/-- `"x"` -/
def text : Expr := ⟨0, .string, .literal (.string "x")⟩

/-- `s = "x"` -/
def assignment : Expr := ⟨1, .string, .assign none ⟨2, .string, .ident "s" none⟩ text⟩

/-- `(s = "x") != null` -/
def left : Expr :=
  ⟨3, .boolean, .binary .ne ⟨4, .string, .parens assignment⟩ ⟨5, .null, .literal .null⟩⟩

/-- `(t = "y") != null` -/
def right : Expr :=
  ⟨6, .boolean, .binary .ne
    ⟨7, .string, .parens ⟨8, .string, .assign none ⟨9, .string, .ident "t" none⟩
      ⟨10, .string, .literal (.string "y")⟩⟩⟩
    ⟨11, .null, .literal .null⟩⟩

/-- `(s = "x") != null && (t = "y") != null` -/
def both : Expr := ⟨12, .boolean, .binary .and left right⟩

def read : Expr := ⟨13, .string, .ident "s" none⟩

def flag : Variable := ⟨14, "both", .boolean, some both⟩

/-- `boolean both = (s = "x") != null && (t = "y") != null;` -/
def declaration : Stmt := ⟨15, .declare ⟨[], "boolean", [flag]⟩⟩

/-- `s;` -/
def reading : Stmt := ⟨16, .expr read⟩

def body : Block := ⟨17, false, [declaration, reading]⟩

def method : Stmt := ⟨18, .method ⟨[], some "void", "skip", [], []⟩ (some body)⟩

/-- What stands around the statements. -/
def top : List Node := [.block body, .stmt method]

def query : FlowQuery where
  start := ⟨[.expr text, .expr assignment, .expr ⟨4, .string, .parens assignment⟩, .expr left,
    .expr both, .var flag, .stmt declaration] ++ top⟩
  limits := .standard

/-- To anything that carries the text. -/
def spec : FlowSpec where
  kind := .value
  isSource _ := true
  isSink _ := true
  sanitizes := none

theorem follows : query.Follows spec text top body where
  starts := rfl
  isSource := rfl
  inBody := ⟨1, rfl, rfl⟩
  unshared := by
    unfold Block.Unshared
    decide +kernel

theorem spares : spec.Spares "s" (.expr both :: .var flag :: .stmt declaration :: top) right := by
  apply FlowSpec.spares_of_unwritten rfl
  decide +kernel

theorem live_left : (FlowM.answer ((query.run spec text).eval
    (.expr both :: .var flag :: .stmt declaration :: top) left .empty)).2.isLive "s" = true := by
  decide +kernel

/-- The walk goes on from the operands to the local that is read, and offers it if it is
live. -/
theorem comes : ∃ after, (query.run spec text).Comes
    ((query.run spec text).eval (.var flag :: .stmt declaration :: top) both .empty) after
    (query.walk spec text top body) ∧
    ∀ r, r.2.isLive "s" = true →
      (⟨read, ⟨.expr read :: .stmt reading :: top⟩⟩ : Occurrence) ∈ (after r ⟨[], [], []⟩).2.offered := by
  have whole : (query.run spec text).stopAtFirst = false := rfl
  have done : (query.run spec text).Steady (query.run spec text).isDone :=
    ⟨false, [], FlowRun.yields_isDone whole⟩
  have declares : (query.run spec text).exec top 0 declaration .empty =
      (query.run spec text).isDone >>= fun _ =>
        (query.run spec text).eval (.var flag :: .stmt declaration :: top) both .empty >>= fun r =>
          pure (.falls (some (r.2.assign "both" r.1))) := by
    rfl
  have walks : query.walk spec text top body = (query.run spec text).isDone >>= fun _ =>
      (query.run spec text).exec top 0 declaration .empty >>= _ := FlowRun.execAll_cons whole _ _
  have reads (t : FlowState) (live : t.isLive "s" = true) :
      ((query.run spec text).execAll top 0 [reading] t ⟨[], [], []⟩).2.offered =
        [⟨read, ⟨.expr read :: .stmt reading :: top⟩⟩] := by
    have evaluated : (query.run spec text).eval (.stmt reading :: top) read t =
        (query.run spec text).settle (.expr read :: .stmt reading :: top) read t
          (pure (t.isLive "s", t)) := by
      rw [read, FlowRun.eval]
      rfl
    have walked : (query.run spec text).exec top 0 reading t =
        (query.run spec text).isDone >>= fun _ =>
          (query.run spec text).eval (.stmt reading :: top) read t >>= fun r =>
            pure (.falls (some r.2)) := by
      rfl
    rw [FlowRun.execAll_cons whole, walked, evaluated, live]
    rfl
  rw [declares] at walks
  rw [walks]
  refine ⟨_, .later done (.followed (.later done
    (FlowRun.comes_first _ fun r => FlowRun.steady_pure _)) (FlowRun.steady_rest whole _)),
    fun r live => ?_⟩
  have still : (r.2.assign "both" r.1).isLive "s" = true := by simp [live]
  show _ ∈ ((query.run spec text).execAll top 0 [reading] (r.2.assign "both" r.1)
    ⟨[], [], []⟩).2.offered
  rw [reads _ still]
  exact List.mem_singleton_self _

theorem operands_skippedText :
    query.Follows spec text top body ∧
      (FlowM.answer ((query.run spec text).eval
        (.expr both :: .var flag :: .stmt declaration :: top) left .empty)).2.isLive "s" = true ∧
      spec.Spares "s" (.expr both :: .var flag :: .stmt declaration :: top) right ∧
      (⟨read, ⟨.expr read :: .stmt reading :: top⟩⟩ : Occurrence) ∈ (query.findSinks spec).sinks := by
  obtain ⟨after, comes, later⟩ := comes
  have stands : (⟨read, ⟨.expr read :: .stmt reading :: top⟩⟩ : Occurrence) ∈ body.occurrences top :=
    List.mem_flatMap.mpr ⟨reading, List.mem_cons_of_mem _ List.mem_cons_self,
      Node.mem_occurrences_of_child rfl List.mem_cons_self Node.mem_occurrences_self⟩
  have found := follows.isLive_operands rfl comes live_left spares
  exact ⟨follows, live_left, spares, found.2 _ stands rfl later⟩

end SkippedText

end JavaMend
