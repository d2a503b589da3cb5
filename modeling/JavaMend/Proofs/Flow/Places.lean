import JavaMend.Proofs.Flow.Comparison
import JavaMend.Proofs.Flow.Walker
import JavaMend.Proofs.Traversal.Positions

/-!
# Places of a walk

A walk that is told where it stands and a walker that keeps its place by hand do the same.
`Walker.Keeps` relates the two for what falls through, conditions and expressions: by hand
the answer and the trace are those of the walk, and stack, depth and loops are as they were.
`Walker.Jumps` does for statements, where the jumps that the walk answers are by hand in the
frames of the loops; it is a relation after the jumps of what was walked before, so that one
statement after the other is one rule (`Jumps.andThen`).

Both also say that whatever the walk asks the specification about comes with a path that
ends at it and goes a permitted way. A way is permitted by a predicate of outward lists that
is kept by going to a child (`Descends`); that every walk descends is all that is used of it.
So if the start of a query is a path that a tree has, all paths that it hands out are: they
come from the same root, go from parent to child, and end at what is asked about
(`FlowQuery.keepsPlaces`).
-/

namespace JavaMend

/-- Outward lists from which one may go on to a child. -/
structure Descends (way : List Node → Prop) : Prop where
  child : ∀ {n m above}, way (n :: above) → m ∈ n.children → way (m :: n :: above)

/-- The path leads to the expression, by a way. -/
structure Occurrence.Placed (way : List Node → Prop) (o : Occurrence) : Prop where
  way : way o.path.outward
  ends : o.path.value? = some (.expr o.expr)

namespace Trace

/-- What a walk has asked the specification about. -/
def asked (t : Trace) : List Occurrence := t.offered ++ t.guards.map Prod.fst

/-- All that was asked about has its path. -/
def Placed (way : List Node → Prop) (t : Trace) : Prop := ∀ o ∈ t.asked, o.Placed way

theorem Placed.offer {way : List Node → Prop} {t : Trace} {o : Occurrence} {sinks : List Occurrence}
    (placed : t.Placed way) (there : o.Placed way) :
    Placed way { t with offered := t.offered ++ [o], sinks } := by
  intro p hp
  rcases List.mem_append.mp hp with offered | guard
  · rcases List.mem_append.mp offered with old | new
    · exact placed p (List.mem_append_left _ old)
    · exact List.mem_singleton.mp new ▸ there
  · exact placed p (List.mem_append_right _ guard)

theorem Placed.guard {way : List Node → Prop} {t : Trace} {o : Occurrence} {branch : Bool}
    (placed : t.Placed way) (there : o.Placed way) :
    Placed way { t with guards := t.guards ++ [(o, branch)] } := by
  intro p hp
  rcases List.mem_append.mp hp with offered | guard
  · exact placed p (List.mem_append_left _ offered)
  · rw [List.map_append] at guard
    rcases List.mem_append.mp guard with old | new
    · exact placed p (List.mem_append_right _ old)
    · exact List.mem_singleton.mp new ▸ there

end Trace

namespace Walker

variable {α β : Type} {way : List Node → Prop} {run : FlowRun} {above : List Node}
  {depth : Nat} {n : Node} {e : Expr} {s : FlowState} {stmt : Stmt}

/-! ## What leaves the walker as it was -/

/-- A walk from a place and the same by hand: both answer and find the same, the place is kept,
and what is asked about is asked with its path. -/
structure Keeps (way : List Node → Prop) (above : List Node) (depth : Nat) (walk : FlowM α)
    (action : WalkerM α) : Prop where
  same : ∀ loops t,
    action ⟨above, depth, loops, t⟩ = ((walk t).1, ⟨above, depth, loops, (walk t).2⟩)
  placed : ∀ t, t.Placed way → (walk t).2.Placed way

theorem keeps_pure (a : α) : Keeps way above depth (pure a) (pure a) :=
  ⟨fun _ _ => rfl, fun _ placed => placed⟩

theorem Keeps.bind {walk : FlowM α} {action : WalkerM α} {next : α → FlowM β}
    {next' : α → WalkerM β} (first : Keeps way above depth walk action)
    (more : ∀ a, Keeps way above depth (next a) (next' a)) :
    Keeps way above depth (walk >>= next) (action >>= next') where
  same loops t := by
    rw [bind_apply, first.same]
    exact (more _).same _ _
  placed t placed := (more _).placed _ (first.placed t placed)

theorem Keeps.ite {c : Prop} [Decidable c] {yes no : FlowM α} {yes' no' : WalkerM α}
    (then_ : Keeps way above depth yes yes') (else_ : Keeps way above depth no no') :
    Keeps way above depth (if c then yes else no) (if c then yes' else no') := by
  by_cases c : c
  · rwa [if_pos c, if_pos c]
  · rwa [if_neg c, if_neg c]

theorem Keeps.within {walk : FlowM α} {action : WalkerM α}
    (inner : Keeps way (n :: above) depth walk action) :
    Keeps way above depth walk (within n action) where
  same loops t := by
    rw [within_apply, inner.same]
    rfl
  placed := inner.placed

theorem keeps_here (action : List Node → FlowM α)
    (placed : ∀ t : Trace, t.Placed way → (action above t).2.Placed way) :
    Keeps way above depth (action above) (here action) :=
  ⟨fun _ _ => rfl, placed⟩

theorem keeps_isDone (run : FlowRun) : Keeps way above depth run.isDone (isDone run) :=
  keeps_here (fun _ => run.isDone) fun _ placed => placed

theorem keeps_isDeep (run : FlowRun) :
    Keeps way above depth (pure (decide (run.limits.maxDepth ≤ depth))) (isDeep run) :=
  ⟨fun _ _ => rfl, fun _ placed => placed⟩

theorem keeps_offer (run : FlowRun) (there : way (.expr e :: above)) :
    Keeps way (.expr e :: above) depth (run.offer (.expr e :: above) e)
      (here fun stack => run.offer stack e) := by
  refine keeps_here (fun stack => run.offer stack e) fun t placed => ?_
  show Trace.Placed way (if _ then t else _)
  split
  · exact placed
  · exact placed.offer ⟨there, rfl⟩

theorem keeps_assumeAtom (run : FlowRun) (branch : Bool) (s : FlowState)
    (there : way (.expr e :: above)) :
    Keeps way (.expr e :: above) depth (run.assumeAtom (.expr e :: above) e branch s)
      (here fun stack => run.assumeAtom stack e branch s) := by
  refine keeps_here (fun stack => run.assumeAtom stack e branch s) fun t placed => ?_
  unfold FlowRun.assumeAtom
  cases run.spec.sanitizes with
  | none => exact placed
  | some sanitizes =>
    by_cases clean : (s.liveCount == 0) = true
    · simp only [clean, if_true]
      exact placed
    · simp only [clean]
      exact placed.guard ⟨there, rfl⟩

/-! ## Conditions and expressions -/

theorem keeps_settle {walk : FlowM (Bool × FlowState)} {parts : WalkerM (Bool × FlowState)}
    (there : way (.expr e :: above)) (inner : Keeps way (.expr e :: above) depth walk parts) :
    Keeps way above depth (run.settle (.expr e :: above) e s walk) (settle run e s parts) := by
  refine (keeps_isDone run).bind fun done => ?_
  cases done with
  | true => exact keeps_pure _
  | false =>
    refine .within (inner.bind fun r => ?_)
    obtain ⟨derived, s⟩ := r
    by_cases tainted : (derived || e.same run.source) = true
    · simp only [tainted, if_true]
      exact (keeps_offer run there).bind fun _ => keeps_pure _
    · simp only [tainted]
      exact keeps_pure _

theorem keeps_evalAny (es : List Expr) (s : FlowState)
    (parts : ∀ e ∈ es, ∀ s, Keeps way above depth (run.eval above e s) (eval run e s)) :
    Keeps way above depth (run.evalAny above es s) (evalAny run es s) := by
  induction es generalizing s with
  | nil =>
    rw [FlowRun.evalAny, evalAny]
    exact keeps_pure _
  | cons e rest ih =>
    rw [FlowRun.evalAny, evalAny]
    refine (parts e List.mem_cons_self s).bind fun first => ?_
    refine (ih _ fun e he => parts e (List.mem_cons_of_mem _ he)).bind fun more => ?_
    exact keeps_pure _

section

variable (descends : Descends way)

include descends

/-- Conditions are taken apart with their parts on the stack. -/
theorem keeps_assume (run : FlowRun) (branch : Bool) (s : FlowState)
    (there : way (.expr e :: above)) :
    Keeps way above depth (run.assume above branch e s) (assume run branch e s) := by
  induction above, branch, e, s using FlowRun.assume.induct with
  | case1 above branch s id ty inner here ih =>
    rw [FlowRun.assume, assume]
    exact .within (ih (descends.child there List.mem_cons_self))
  | case2 above branch s id ty operand here ih =>
    rw [FlowRun.assume, assume]
    exact .within (ih (descends.child there List.mem_cons_self))
  | case3 above branch s id ty op left right both here ih₁ ih₂ =>
    rw [FlowRun.assume, assume, if_pos both, if_pos both]
    refine .within (.bind (ih₁ (descends.child there List.mem_cons_self)) fun t => ih₂ t ?_)
    exact descends.child there (List.mem_cons_of_mem _ List.mem_cons_self)
  | case4 above branch s id ty op left right single =>
    rw [FlowRun.assume, assume, if_neg single, if_neg single]
    exact .within (keeps_assumeAtom run branch s there)
  | case5 above branch s e noParens noNot noBinary =>
    have atom : run.assume above branch e s = run.assumeAtom (.expr e :: above) e branch s := by
      rw [FlowRun.assume] <;> assumption
    have atom' : assume run branch e s =
        Walker.within (.expr e) (Walker.here fun stack => run.assumeAtom stack e branch s) := by
      rw [assume] <;> assumption
    rw [atom, atom']
    exact .within (keeps_assumeAtom run branch s there)

/-- An expression is walked alike if its parts are. -/
theorem keeps_eval_of_children (there : way (.expr e :: above))
    (parts : ∀ d ∈ e.children, ∀ s,
      Keeps way (.expr e :: above) depth (run.eval (.expr e :: above) d s) (eval run d s)) :
    Keeps way above depth (run.eval above e s) (eval run e s) := by
  have around : ∀ {walk action}, run.eval above e s = run.settle (.expr e :: above) e s walk →
      eval run e s = settle run e s action →
      Keeps way (.expr e :: above) depth walk action →
      Keeps way above depth (run.eval above e s) (eval run e s) :=
    fun eq eq' inner => eq ▸ eq' ▸ keeps_settle there inner
  obtain ⟨id, ty, form⟩ := e
  cases form with
  | ident name owner =>
    cases owner with
    | none => exact around (by rw [FlowRun.eval]; rfl) (by rw [eval]) (keeps_pure _)
    | some owner => exact around (by rw [FlowRun.eval]; rfl) (by rw [eval]) (keeps_pure _)
  | literal value => exact around (by rw [FlowRun.eval]; rfl) (by rw [eval]) (keeps_pure _)
  | field target name =>
    have made := (parts target List.mem_cons_self s).bind fun r =>
      keeps_pure (run.isTaint && r.1, r.2)
    exact around (by rw [FlowRun.eval]; rfl) (by rw [eval]) made
  | call receiver name args method =>
    cases receiver with
    | none =>
      have made := (keeps_evalAny args s parts).bind fun r => keeps_pure (run.isTaint && r.1, r.2)
      exact around (by rw [FlowRun.eval]; rfl) (by rw [eval]) made
    | some receiver =>
      have rest := fun s => keeps_evalAny args s fun d hd => parts d (List.mem_cons_of_mem _ hd)
      have made := (parts receiver List.mem_cons_self s).bind fun r =>
        (rest r.2).bind fun q => keeps_pure (run.isTaint && (r.1 || q.1), q.2)
      exact around (by rw [FlowRun.eval]; rfl) (by rw [eval]) made
  | create className args method =>
    have made := (keeps_evalAny args s parts).bind fun r => keeps_pure (run.isTaint && r.1, r.2)
    exact around (by rw [FlowRun.eval]; rfl) (by rw [eval]) made
  | array element size =>
    have made := (parts size List.mem_cons_self s).bind fun r => keeps_pure (false, r.2)
    exact around (by rw [FlowRun.eval]; rfl) (by rw [eval]) made
  | binary op first second =>
    have made := (parts first List.mem_cons_self s).bind fun r =>
      (parts second (List.mem_cons_of_mem _ List.mem_cons_self) r.2).bind fun q =>
        keeps_pure (run.isTaint && op == .add && ty.isString && (r.1 || q.1), q.2)
    exact around (by rw [FlowRun.eval]; rfl) (by rw [eval]) made
  | unary op operand =>
    have made := (parts operand List.mem_cons_self s).bind fun r => keeps_pure (false, r.2)
    exact around (by rw [FlowRun.eval]; rfl) (by rw [eval]) made
  | assign op target value =>
    have values := parts value (List.mem_cons_of_mem _ List.mem_cons_self)
    cases local_ : target.localName? with
    | none =>
      have made := (parts target List.mem_cons_self s).bind fun r => values r.2
      refine around ?_ ?_ made
      · rw [FlowRun.eval]; simp only [local_]; rfl
      · rw [eval]; simp only [local_]
    | some name =>
      cases op with
      | none =>
        have made := (values s).bind fun r => keeps_pure (r.1, r.2.assign name r.1)
        refine around ?_ ?_ made
        · rw [FlowRun.eval]; simp only [local_]; rfl
        · rw [eval]; simp only [local_]
      | some op =>
        have made := (values s).bind fun r =>
          let result := run.isTaint && (s.isLive name || r.1)
          keeps_pure (result, r.2.assign name result)
        refine around ?_ ?_ made
        · rw [FlowRun.eval]; simp only [local_]; rfl
        · rw [eval]; simp only [local_]
  | parens inner =>
    exact around (by rw [FlowRun.eval]; rfl) (by rw [eval]) (parts inner List.mem_cons_self s)
  | cast typeName operand =>
    exact around (by rw [FlowRun.eval]; rfl) (by rw [eval]) (parts operand List.mem_cons_self s)
  | ternary condition onTrue onFalse =>
    have below := descends.child there (m := .expr condition) List.mem_cons_self
    have assumed (branch : Bool) (s : FlowState) :
        Keeps way (.expr ⟨id, ty, .ternary condition onTrue onFalse⟩ :: above) depth
          (run.assume _ branch condition s) (assume run branch condition s) :=
      keeps_assume descends run branch s below
    have made := (parts condition List.mem_cons_self s).bind fun r =>
      (assumed true r.2).bind fun s₁ =>
        (parts onTrue (List.mem_cons_of_mem _ List.mem_cons_self) s₁).bind fun yes =>
          (assumed false r.2).bind fun s₂ =>
            (parts onFalse (List.mem_cons_of_mem _ (List.mem_cons_of_mem _ List.mem_cons_self))
              s₂).bind fun no => keeps_pure (yes.1 || no.1, yes.2.join no.2)
    exact around (by rw [FlowRun.eval]; rfl) (by rw [eval]) made

/-- An expression is walked by hand as it is from its place. -/
theorem keeps_eval (run : FlowRun) (e : Expr) (above : List Node) (depth : Nat) (s : FlowState)
    (there : way (.expr e :: above)) :
    Keeps way above depth (run.eval above e s) (eval run e s) :=
  keeps_eval_of_children descends there fun d hd s =>
    keeps_eval run d _ depth s (descends.child there (List.mem_map_of_mem hd))
termination_by sizeOf e
decreasing_by exact Expr.sizeOf_lt_of_mem_children hd

/-- Declared variables are on the stack while their initializers are walked. -/
theorem keeps_declare (run : FlowRun) (vars : List Variable) (s : FlowState)
    (there : ∀ v ∈ vars, way (.var v :: above)) :
    Keeps way above depth (run.declare above vars s) (declare run vars s) := by
  induction vars generalizing s with
  | nil => exact keeps_pure s
  | cons v rest ih =>
    have more := fun s => ih s fun v hv => there v (List.mem_cons_of_mem _ hv)
    have below := there v List.mem_cons_self
    rw [FlowRun.declare, declare]
    cases init : v.init with
    | none => exact (keeps_pure (false, s)).within.bind fun r => more _
    | some e =>
      have mem : Node.expr e ∈ (Node.var v).children := by
        simp only [Node.children, init]
        exact List.mem_cons_self
      have init := keeps_eval descends run e _ depth s (descends.child below mem)
      exact init.within.bind fun r => more _

end

/-! ## What jumps -/

/-- What two statements hand over to the loops, one after the other. In which state control falls
through them has no part in it. -/
theorem receive_after (loops : List LoopFrame) (first next : Exits) (normal : Option FlowState) :
    receive (receive loops first) next = receive loops { first.after next with normal } := by
  cases loops with
  | nil => rfl
  | cons frame outer => simp only [receive, Exits.after, FlowState.merge_assoc]

theorem receive_falls (loops : List LoopFrame) (s : Option FlowState) :
    receive loops (.falls s) = loops := by
  cases loops with
  | nil => rfl
  | cons frame outer => simp only [receive, Exits.falls, FlowState.merge_none]

/-- A walk of a statement after the jumps of `out`, and the same by hand: the walk answers all
jumps, by hand they are in the frames of the loops. -/
structure Jumps (way : List Node → Prop) (above : List Node) (depth : Nat) (out : Exits)
    (walk : FlowM Exits) (action : WalkerM (Option FlowState)) : Prop where
  same : ∀ loops t, action ⟨above, depth, receive loops out, t⟩ =
    ((walk t).1.normal, ⟨above, depth, receive loops (walk t).1, (walk t).2⟩)
  placed : ∀ t, t.Placed way → (walk t).2.Placed way

variable {out : Exits}

theorem Keeps.andThen {walk : FlowM α} {action : WalkerM α} {next : α → FlowM Exits}
    {next' : α → WalkerM (Option FlowState)} (first : Keeps way above depth walk action)
    (more : ∀ a, Jumps way above depth out (next a) (next' a)) :
    Jumps way above depth out (walk >>= next) (action >>= next') where
  same loops t := by
    rw [bind_apply, first.same]
    exact (more _).same _ _
  placed t placed := (more _).placed _ (first.placed t placed)

theorem Jumps.andThen {walk : FlowM Exits} {action : WalkerM (Option FlowState)}
    {next : Exits → FlowM Exits} {next' : Option FlowState → WalkerM (Option FlowState)}
    (first : Jumps way above depth out walk action)
    (more : ∀ exits, Jumps way above depth exits (next exits) (next' exits.normal)) :
    Jumps way above depth out (walk >>= next) (action >>= next') where
  same loops t := by
    rw [bind_apply, first.same]
    exact (more _).same _ _
  placed t placed := (more _).placed _ (first.placed t placed)

theorem jumps_leave (exits : Exits) :
    Jumps way above depth (.falls none) (pure exits) (leave exits) where
  same loops t := by
    rw [receive_falls]
    rfl
  placed _ placed := placed

/-- Nothing more is done. -/
theorem jumps_pure (exits : Exits) : Jumps way above depth exits (pure exits) (pure exits.normal) :=
  ⟨fun _ _ => rfl, fun _ placed => placed⟩

/-- Control falls through, and there are no more jumps. -/
theorem jumps_falls (out : Exits) (s : Option FlowState) :
    Jumps way above depth out (pure (out.after (.falls s))) (pure s) where
  same loops t := by
    have quiet : receive loops (out.after (.falls s)) = receive loops out :=
      (receive_after loops out (.falls s) s).symm.trans (receive_falls _ s)
    rw [← quiet]
    rfl
  placed _ placed := placed

theorem Jumps.within {walk : FlowM Exits} {action : WalkerM (Option FlowState)}
    (inner : Jumps way (n :: above) depth out walk action) :
    Jumps way above depth out walk (within n action) where
  same loops t := by
    rw [within_apply, inner.same]
    rfl
  placed := inner.placed

theorem Jumps.deeper {walk : FlowM Exits} {action : WalkerM (Option FlowState)}
    (inner : Jumps way above (depth + 1) out walk action) :
    Jumps way above depth out walk (deeper action) where
  same loops t := by
    rw [deeper_apply, inner.same]
    rfl
  placed := inner.placed

/-- The frame of a loop takes in all jumps out of its body. -/
theorem Jumps.inLoop {walk : FlowM Exits} {body : WalkerM (Option FlowState)}
    (inner : Jumps way above depth (.falls none) walk body) :
    Keeps way above depth walk (inLoop body) where
  same loops t := by
    have same := inner.same (⟨none, none⟩ :: loops) t
    rw [receive_falls] at same
    rw [inLoop_apply, same]
    rfl
  placed := inner.placed

/-- What is walked after `out`, with the jumps of `out` kept. -/
theorem Jumps.after {walk : FlowM Exits} {action : WalkerM (Option FlowState)}
    (inner : Jumps way above depth (.falls none) walk action) (out : Exits)
    (f : Option FlowState → Option FlowState) :
    Jumps way above depth out
      (walk >>= fun exits => pure (out.after { exits with normal := f exits.normal }))
      (action >>= fun normal => pure (f normal)) where
  same loops t := by
    have same := inner.same (receive loops out) t
    rw [receive_falls] at same
    rw [bind_apply, same, receive_after loops out _ (f (walk t).1.normal)]
    rfl
  placed := inner.placed

/-- What follows is walked from where control falls through, if it does. -/
theorem Jumps.next {walk : FlowM Exits} {action : WalkerM (Option FlowState)}
    {next : FlowState → FlowM Exits} {next' : FlowState → WalkerM (Option FlowState)}
    (first : Jumps way above depth out walk action)
    (more : ∀ s, Jumps way above depth (.falls none) (next s) (next' s)) :
    Jumps way above depth out
      (walk >>= fun exits => match exits.normal with
        | none => pure exits
        | some s => next s >>= fun q => pure (exits.after q))
      (action >>= fun normal => match normal with
        | none => pure none
        | some s => next' s) := by
  refine first.andThen fun exits => ?_
  obtain ⟨normal, breaks, continues⟩ := exits
  cases normal with
  | none => exact jumps_pure _
  | some s => exact (more s).after _ (·)

/-! ## Loops -/

/-- Loops with the same rounds are given up after the same one. -/
theorem keeps_iterate (run : FlowRun)
    {round : FlowState → Option FlowState → FlowM (Option FlowState × Option FlowState)}
    {round' : FlowState → Option FlowState → WalkerM (Option FlowState × Option FlowState)}
    (rounds : ∀ head exit, Keeps way above depth (round head exit) (round' head exit)) (n : Nat)
    (head : FlowState) (exit : Option FlowState) :
    Keeps way above depth (run.iterate round n head exit) (iterate run round' n head exit) := by
  induction n generalizing head exit with
  | zero => exact keeps_pure exit
  | succ n ih =>
    rw [FlowRun.iterate, iterate]
    refine (rounds head exit).bind fun r => ?_
    refine (keeps_isDone run).bind fun done => ?_
    exact .ite (keeps_pure r.1) (ih (head.joinBack r.2) r.1)

theorem keeps_loopRound (descends : Descends way) (run : FlowRun) {condition : Option Expr}
    (update : List Expr) {body : FlowState → FlowM Exits}
    {body' : FlowState → WalkerM (Option FlowState)}
    (guards : ∀ c ∈ condition, way (.expr c :: above))
    (updates : ∀ e ∈ update, way (.expr e :: above))
    (bodies : ∀ s, Jumps way above depth (.falls none) (body s) (body' s)) (head : FlowState)
    (exit : Option FlowState) :
    Keeps way above depth (run.loopRound above condition update body head exit)
      (loopRound run condition update body' head exit) := by
  have entered : Keeps way above depth (run.enterLoop above condition head exit)
      (enterLoop run condition head exit) := by
    cases condition with
    | none => exact keeps_pure _
    | some c =>
      have there := guards c rfl
      refine (keeps_eval descends run c above depth head there).bind fun r => ?_
      refine (keeps_assume descends run true r.2 there).bind fun inside => ?_
      exact (keeps_assume descends run false r.2 there).bind fun outside => keeps_pure _
  refine entered.bind fun r => ?_
  refine (bodies r.1).inLoop.bind fun exits => ?_
  generalize FlowState.merge exits.normal exits.continues = back
  cases back with
  | none => exact (keeps_pure none).bind fun back => keeps_pure _
  | some back =>
    have updated := keeps_evalAny update back fun e he s =>
      keeps_eval descends run e above depth s (updates e he)
    exact updated.bind fun q => (keeps_pure (some q.2)).bind fun back => keeps_pure _

theorem keeps_itemRound (item : String) (tainted : Bool) {body : FlowState → FlowM Exits}
    {body' : FlowState → WalkerM (Option FlowState)}
    (bodies : ∀ s, Jumps way above depth (.falls none) (body s) (body' s)) (head : FlowState)
    (exit : Option FlowState) :
    Keeps way above depth (FlowRun.itemRound item tainted body head exit)
      (itemRound item tainted body' head exit) :=
  (bodies _).inLoop.bind fun _ => keeps_pure _

/-! ## Statements -/

/-- A statement is walked with itself on the stack and counted, if it is entered at all. -/
theorem jumps_enter {walk : FlowM Exits} {action : WalkerM (Option FlowState)}
    (inner : Jumps way (.stmt stmt :: above) (depth + 1) (.falls none) walk action)
    (eq : run.exec above depth stmt s = run.isDone >>= fun done =>
      if (done || decide (run.limits.maxDepth ≤ depth)) = true then pure (.falls (some s))
      else walk) :
    Jumps way above depth (.falls none) (run.exec above depth stmt s)
      (enter run stmt s action) := by
  rw [eq]
  refine .within ((keeps_isDone run).andThen fun done => ?_)
  -- The depth is an argument of the walk, and read by hand.
  show Jumps way (.stmt stmt :: above) depth (.falls none)
    (pure (decide (run.limits.maxDepth ≤ depth)) >>= fun deep =>
      if (done || deep) = true then pure (.falls (some s)) else walk) _
  refine (keeps_isDeep run).andThen fun deep => ?_
  cases done || deep with
  | true => exact jumps_falls _ (some s)
  | false => exact inner.deeper

theorem jumps_execAll (run : FlowRun) (stmts : List Stmt) (s : FlowState)
    (parts : ∀ stmt ∈ stmts, ∀ s, Jumps way above depth (.falls none)
      (run.exec above depth stmt s) (exec run stmt s)) :
    Jumps way above depth (.falls none) (run.execAll above depth stmts s)
      (execAll run stmts s) := by
  induction stmts generalizing s with
  | nil =>
    rw [FlowRun.execAll, execAll]
    exact jumps_falls _ (some s)
  | cons stmt rest ih =>
    rw [FlowRun.execAll, execAll]
    refine (keeps_isDone run).andThen fun done => ?_
    cases done with
    | true => exact jumps_falls _ (some s)
    | false =>
      exact (parts stmt List.mem_cons_self s).next fun s =>
        ih s fun stmt hs => parts stmt (List.mem_cons_of_mem _ hs)

theorem jumps_execCatches (run : FlowRun) (clauses : List (CatchClause Variable Block))
    (s : FlowState) (out : Exits)
    (parts : ∀ clause ∈ clauses, ∀ s, Jumps way above depth (.falls none)
      (run.execBlock above depth clause.body s) (execBlock run clause.body s)) :
    Jumps way above depth out (run.execCatches above depth clauses s out)
      (execCatches run clauses s out.normal) := by
  induction clauses generalizing out with
  | nil =>
    rw [FlowRun.execCatches, execCatches]
    exact jumps_pure out
  | cons clause rest ih =>
    have caught := parts clause List.mem_cons_self (s.clear clause.parameter.name)
    have more := fun out => ih out fun clause hc => parts clause (List.mem_cons_of_mem _ hc)
    obtain ⟨typeNames, types, parameter, body⟩ := clause
    rw [FlowRun.execCatches, execCatches]
    have joined := (caught.after out (FlowState.merge out.normal)).andThen more
    simpa only [bind_assoc, pure_bind] using joined

theorem jumps_execFinish (run : FlowRun) (finish : Option Block) (handlerIn : FlowState)
    (out : Exits)
    (parts : ∀ body ∈ finish, ∀ s, Jumps way above depth (.falls none)
      (run.execBlock above depth body s) (execBlock run body s)) :
    Jumps way above depth out (run.execFinish above depth finish handlerIn out)
      (execFinish run finish handlerIn out.normal) := by
  cases finish with
  | none =>
    rw [FlowRun.execFinish, execFinish]
    exact jumps_pure out
  | some body =>
    obtain ⟨normal, breaks, continues⟩ := out
    cases normal with
    | none =>
      rw [FlowRun.execFinish, execFinish]
      exact (parts body rfl handlerIn).after _ fun _ => none
    | some s =>
      rw [FlowRun.execFinish, execFinish]
      exact (parts body rfl s).after _ (·)

/-- Handlers and a `finally` block are walked from the states that a body may be left in. -/
theorem jumps_handled (run : FlowRun) {walk : FlowM Exits} {action : WalkerM (Option FlowState)}
    {catches : List (CatchClause Variable Block)} {finish : Option Block} (s : FlowState)
    (tries : Jumps way above depth out walk action)
    (handlers : ∀ clause ∈ catches, ∀ s, Jumps way above depth (.falls none)
      (run.execBlock above depth clause.body s) (execBlock run clause.body s))
    (finishes : ∀ body ∈ finish, ∀ s, Jumps way above depth (.falls none)
      (run.execBlock above depth body s) (execBlock run body s)) :
    Jumps way above depth out
      (walk >>= fun tried =>
        run.execCatches above depth catches (s.joinBack tried.normal) tried >>=
        run.execFinish above depth finish (s.joinBack tried.normal))
      (action >>= fun tried =>
        execCatches run catches (s.joinBack tried) tried >>=
        execFinish run finish (s.joinBack tried)) := by
  refine tries.andThen fun tried => ?_
  refine (jumps_execCatches run catches _ tried handlers).andThen fun caught => ?_
  exact jumps_execFinish run finish _ caught finishes

/-- A statement or a block is walked by hand as it is from its place. -/
def Walked (way : List Node → Prop) (run : FlowRun) (above : List Node) (depth : Nat) :
    Node → Prop
  | .stmt stmt => ∀ s, Jumps way above depth (.falls none) (run.exec above depth stmt s)
      (exec run stmt s)
  | .block block => ∀ s, Jumps way above depth (.falls none) (run.execBlock above depth block s)
      (execBlock run block s)
  | _ => True

section

variable (descends : Descends way)

include descends

/-- Both branches of a condition are walked, one after the other. -/
theorem jumps_branches (run : FlowRun) {condition : Expr} {yes no : FlowState → FlowM Exits}
    {yes' no' : FlowState → WalkerM (Option FlowState)} (there : way (.expr condition :: above))
    (s : FlowState) (onTrue : ∀ s, Jumps way above depth (.falls none) (yes s) (yes' s))
    (onFalse : ∀ s, Jumps way above depth (.falls none) (no s) (no' s)) :
    Jumps way above depth (.falls none)
      (run.eval above condition s >>= fun r => run.assume above true condition r.2 >>= fun s₁ =>
        yes s₁ >>= fun one => run.assume above false condition r.2 >>= fun s₂ =>
        no s₂ >>= fun other =>
          pure (one.after { other with normal := FlowState.merge one.normal other.normal }))
      (eval run condition s >>= fun r => assume run true condition r.2 >>= fun s₁ =>
        yes' s₁ >>= fun one => assume run false condition r.2 >>= fun s₂ =>
        no' s₂ >>= fun other => pure (FlowState.merge one other)) := by
  refine (keeps_eval descends run condition above depth s there).andThen fun r => ?_
  refine (keeps_assume descends run true r.2 there).andThen fun s₁ => ?_
  refine (onTrue s₁).andThen fun one => ?_
  refine (keeps_assume descends run false r.2 there).andThen fun s₂ => ?_
  exact (onFalse s₂).after one (FlowState.merge one.normal)

theorem jumps_exec_of_children (there : way (.stmt stmt :: above))
    (parts : ∀ m ∈ stmt.children, Walked way run (.stmt stmt :: above) (depth + 1) m) :
    Walked way run above depth (.stmt stmt) := by
  intro s
  have value (e : Expr) (mem : Node.expr e ∈ stmt.children) (s : FlowState) :
      Keeps way (.stmt stmt :: above) (depth + 1) (run.eval (.stmt stmt :: above) e s)
        (eval run e s) :=
    keeps_eval descends run e _ _ s (descends.child there mem)
  have around : ∀ {walk action}, exec run stmt s = enter run stmt s action →
      Jumps way (.stmt stmt :: above) (depth + 1) (.falls none) walk action →
      (run.exec above depth stmt s = run.isDone >>= fun done =>
        if (done || decide (run.limits.maxDepth ≤ depth)) = true then pure (.falls (some s))
        else walk) →
      Jumps way above depth (.falls none) (run.exec above depth stmt s) (exec run stmt s) :=
    fun eq inner eq' => eq ▸ jumps_enter inner eq'
  have falls (s : Option FlowState) :
      Jumps way (.stmt stmt :: above) (depth + 1) (.falls none) (pure (.falls s)) (pure s) :=
    jumps_falls _ s
  obtain ⟨id, form⟩ := stmt
  cases form with
  | declare decl =>
    have below (v : Variable) (hv : v ∈ decl.vars) :
        way (.var v :: .stmt ⟨id, .declare decl⟩ :: above) :=
      descends.child there (List.mem_map_of_mem hv)
    have inner := (keeps_declare descends run decl.vars s below).andThen fun s => falls (some s)
    exact around (by rw [exec]) inner (by rw [FlowRun.exec])
  | expr e =>
    have inner := (value e List.mem_cons_self s).andThen fun r => falls (some r.2)
    exact around (by rw [exec]) inner (by rw [FlowRun.exec])
  | ifElse condition onTrue onFalse =>
    have below := descends.child there (m := .expr condition) List.mem_cons_self
    have yes := parts (.stmt onTrue) (List.mem_cons_of_mem _ List.mem_cons_self)
    cases onFalse with
    | none =>
      have inner := jumps_branches descends run below s yes fun s => falls (some s)
      exact around (by rw [exec]; rfl) inner (by rw [FlowRun.exec]; rfl)
    | some onFalse =>
      have no := parts (.stmt onFalse)
        (List.mem_cons_of_mem _ (List.mem_cons_of_mem _ List.mem_cons_self))
      have inner := jumps_branches descends run below s yes no
      exact around (by rw [exec]) inner (by rw [FlowRun.exec])
  | whileLoop condition body =>
    have guards : ∀ e ∈ some condition,
        way (.expr e :: .stmt ⟨id, .whileLoop condition body⟩ :: above) := by
      intro e he
      cases he
      exact descends.child there List.mem_cons_self
    have bodies := parts (.stmt body) (List.mem_cons_of_mem _ List.mem_cons_self)
    have rounds := keeps_loopRound descends run [] guards
      (fun e he => (List.not_mem_nil he).elim) bodies
    have inner := (keeps_iterate run rounds run.limits.maxLoopIterations s none).andThen falls
    exact around (by rw [exec]; rfl) inner (by rw [FlowRun.exec])
  | forLoop init condition update body =>
    have starts := jumps_execAll run init s fun stmt hs =>
      parts (.stmt stmt) (List.mem_append_left _ (List.mem_append_left _
        (List.mem_append_left _ (List.mem_map_of_mem hs))))
    have guards (e : Expr) (he : e ∈ condition) :
        way (.expr e :: .stmt ⟨id, .forLoop init condition update body⟩ :: above) := by
      refine descends.child there
        (List.mem_append_left _ (List.mem_append_left _ (List.mem_append_right _ ?_)))
      exact List.mem_map_of_mem (Option.mem_toList.mpr he)
    have updates (e : Expr) (he : e ∈ update) :
        way (.expr e :: .stmt ⟨id, .forLoop init condition update body⟩ :: above) :=
      descends.child there
        (List.mem_append_left _ (List.mem_append_right _ (List.mem_map_of_mem he)))
    have bodies := parts (.stmt body) (List.mem_append_right _ List.mem_cons_self)
    have rounds := keeps_loopRound descends run update guards updates bodies
    have inner := starts.next fun s =>
      (keeps_iterate run rounds run.limits.maxLoopIterations s none).andThen falls
    exact around (by rw [exec]; rfl) inner (by rw [FlowRun.exec]; rfl)
  | forEach typeName item iterable body =>
    have bodies := parts (.stmt body)
      (List.mem_cons_of_mem _ (List.mem_cons_of_mem _ List.mem_cons_self))
    have inner := (value iterable (List.mem_cons_of_mem _ List.mem_cons_self) s).andThen fun r =>
      (keeps_iterate run (keeps_itemRound item.name r.1 bodies) run.limits.maxLoopIterations r.2
        (some r.2)).andThen falls
    exact around (by rw [exec]; rfl) inner (by rw [FlowRun.exec])
  | tryCatch resources body catches finish =>
    have below (v : Variable) (hv : v ∈ resources.flatMap (·.vars)) :
        way (.var v :: .stmt ⟨id, .tryCatch resources body catches finish⟩ :: above) := by
      obtain ⟨decl, hdecl, hv⟩ := List.mem_flatMap.mp hv
      refine descends.child there (List.mem_append_left _ (List.mem_append_left _
        (List.mem_append_left _ (List.mem_flatMap.mpr ⟨decl, hdecl, ?_⟩))))
      exact List.mem_map_of_mem hv
    have tries := parts (.block body) (List.mem_append_left _
      (List.mem_append_left _ (List.mem_append_right _ List.mem_cons_self)))
    have handlers (clause : CatchClause Variable Block) (hc : clause ∈ catches) := by
      refine parts (.block clause.body) (List.mem_append_left _ (List.mem_append_right _
        (List.mem_flatMap.mpr ⟨clause, hc, ?_⟩)))
      exact List.mem_cons_of_mem _ List.mem_cons_self
    have finishes (last : Block) (hl : last ∈ finish) := by
      refine parts (.block last) (List.mem_append_right _ ?_)
      exact List.mem_map_of_mem (Option.mem_toList.mpr hl)
    have inner := (keeps_declare descends run _ s below).andThen fun s =>
      jumps_handled run s (tries s) handlers finishes
    exact around (by rw [exec]; rfl) inner (by rw [FlowRun.exec]; rfl)
  | block body =>
    exact around (by rw [exec]) (parts (.block body) List.mem_cons_self s) (by rw [FlowRun.exec])
  | returnStmt result =>
    have results := keeps_evalAny result.toList s fun e he =>
      value e (List.mem_map_of_mem he)
    have inner := results.andThen fun _ => falls none
    exact around (by rw [exec]) inner (by rw [FlowRun.exec])
  | throwStmt thrown =>
    have inner := (value thrown List.mem_cons_self s).andThen fun _ => falls none
    exact around (by rw [exec]) inner (by rw [FlowRun.exec])
  | breakStmt => exact around (by rw [exec]) (jumps_leave _) (by rw [FlowRun.exec])
  | continueStmt => exact around (by rw [exec]) (jumps_leave _) (by rw [FlowRun.exec])
  | method head body => exact around (by rw [exec]) (falls (some s)) (by rw [FlowRun.exec])
  | cls head body => exact around (by rw [exec]) (falls (some s)) (by rw [FlowRun.exec])

/-- Every statement and every block is walked by hand as it is from its place. -/
theorem walked (run : FlowRun) (n : Node) (above : List Node) (depth : Nat)
    (there : way (n :: above)) : Walked way run above depth n := by
  -- What is counted are statements, so the depth grows below a statement and not below a block.
  induction n using Node.inductionOn generalizing above depth with
  | step n ih =>
    cases n with
    | stmt stmt =>
      exact jumps_exec_of_children descends there fun m mem =>
        ih m mem _ _ (descends.child there mem)
    | block block =>
      intro s
      have parts (stmt : Stmt) (hs : stmt ∈ block.stmts) :
          Walked way run (.block block :: above) depth (.stmt stmt) :=
        ih (.stmt stmt) (List.mem_map_of_mem hs) _ _ (descends.child there (List.mem_map_of_mem hs))
      obtain ⟨id, isStatic, stmts⟩ := block
      rw [FlowRun.execBlock, execBlock]
      exact (jumps_execAll run stmts s parts).within
    | _ => trivial

end

end Walker

/-! ## Queries -/

namespace Path

/-- The list is a path from the root. -/
structure Below (root : Node) (nodes : List Node) : Prop where
  genuine : GenuineList nodes
  top : nodes.getLast? = some root

theorem Below.child {root n m : Node} {above : List Node} (below : Below root (n :: above))
    (mem : m ∈ n.children) : Below root (m :: n :: above) where
  genuine := ⟨mem, below.genuine⟩
  top := List.getLast?_cons_cons.trans below.top

theorem descends_below (root : Node) : Descends (Below root) := ⟨Below.child⟩

/-- A genuine path down to the body around it. -/
theorem below_outerBody {p : Path} {root : Node} {index : Nat} {body : Block}
    (genuine : p.Genuine) (top : p.get? 0 = some root) (found : p.outerBody? = some (index, body)) :
    ∃ above, (p.upTo (index + 1)).outward = .block body :: above ∧
      Below root (.block body :: above) := by
  obtain ⟨front, above, split, -, rfl⟩ := outerBody?_go_split found
  rw [Genuine, split] at genuine
  rw [get?_zero, split, List.getLast?_append_cons] at top
  exact ⟨above, upTo_of_split split, genuineList_right genuine, top⟩

end Path

namespace Walker

/-- The walker is left as it was found, but for what jumped to the innermost loop. -/
structure Restored (before after : Walker) : Prop where
  stack : after.stack = before.stack
  depth : after.depth = before.depth
  frames : after.loops.length = before.loops.length
  outer : after.loops.tail = before.loops.tail

theorem restored_receive (w : Walker) (exits : Exits) (trace : Trace) :
    w.Restored { w with loops := receive w.loops exits, trace } := by
  obtain ⟨stack, depth, loops, found⟩ := w
  cases loops <;> exact ⟨rfl, rfl, rfl, rfl⟩

/-- A walker does by hand what the walk does from the place where it stands, and it is there
again after every expression and every statement. -/
structure Returns (run : FlowRun) : Prop where
  condition : ∀ branch e s w, assume run branch e s w =
    let r := run.assume w.stack branch e s w.trace
    (r.1, { w with trace := r.2 })
  expression : ∀ e s w, eval run e s w =
    let r := run.eval w.stack e s w.trace
    (r.1, { w with trace := r.2 })
  statement : ∀ stmt s w, exec run stmt s w =
    let r := run.exec w.stack w.depth stmt s w.trace
    (r.1.normal, { w with loops := receive w.loops r.1, trace := r.2 })
  block : ∀ block s w, execBlock run block s w =
    let r := run.execBlock w.stack w.depth block s w.trace
    (r.1.normal, { w with loops := receive w.loops r.1, trace := r.2 })
  restored : ∀ stmt s (w : Walker), w.Restored (exec run stmt s w).2

theorem Jumps.apply {way : List Node → Prop} {w : Walker} {walk : FlowM Exits}
    {action : WalkerM (Option FlowState)}
    (h : Jumps way w.stack w.depth (.falls none) walk action) :
    action w = ((walk w.trace).1.normal,
      { w with loops := receive w.loops (walk w.trace).1, trace := (walk w.trace).2 }) := by
  have same := h.same w.loops w.trace
  rwa [receive_falls] at same

theorem returns (run : FlowRun) : Returns run := by
  -- Where the walker stands does not matter for that it is there again.
  have anywhere : Descends fun _ => True := ⟨fun _ _ => trivial⟩
  have statement (stmt : Stmt) (s : FlowState) (w : Walker) :=
    (walked anywhere run (.stmt stmt) w.stack w.depth trivial s).apply
  refine ⟨fun branch e s w => ?_, fun e s w => ?_, statement, fun block s w => ?_,
    fun stmt s w => ?_⟩
  · exact (keeps_assume anywhere run branch s trivial).same w.loops w.trace
  · exact (keeps_eval anywhere run e w.stack w.depth s trivial).same w.loops w.trace
  · exact (walked anywhere run (.block block) w.stack w.depth trivial s).apply
  · rw [statement]
    exact restored_receive w _ _

end Walker

namespace FlowQuery

/-- The paths that a query hands out are paths of the tree, and the walk keeps its place. -/
structure KeepsPlaces (query : FlowQuery) (spec : FlowSpec) (stopAtFirst : Bool) : Prop where
  paths : ∀ o ∈ (query.trace spec stopAtFirst).asked, o.path.Genuine ∧
    o.path.value? = some (.expr o.expr) ∧ o.path.get? 0 = query.start.get? 0
  byHand : query.traceByHand spec stopAtFirst = query.trace spec stopAtFirst
  returns : ∀ source, Walker.Returns { spec, limits := query.limits, source, stopAtFirst }

variable {query : FlowQuery} {spec : FlowSpec} {stopAtFirst : Bool}

theorem walked?_body {run : FlowRun} {place : Path} {body : Block}
    (walked : query.walked? spec stopAtFirst = some (run, place, body)) :
    ∃ index, query.start.outerBody? = some (index, body) ∧
      place = query.start.upTo (index + 1) := by
  unfold walked? at walked
  split at walked
  · split at walked
    · obtain ⟨⟨index, found⟩, inBody, same⟩ := Option.map_eq_some_iff.mp walked
      cases same
      exact ⟨index, inBody, rfl⟩
    · cases walked
  · cases walked

/-- The body of a query is walked by hand as it is from its place. -/
theorem jumps_body {root : Node} {run : FlowRun} {place : Path} {body : Block}
    (genuine : query.start.Genuine) (top : query.start.get? 0 = some root)
    (walked : query.walked? spec stopAtFirst = some (run, place, body)) :
    Walker.Jumps (Path.Below root) place.outward 0 (.falls none)
      (run.execAll place.outward 0 body.stmts .empty) (Walker.execAll run body.stmts .empty) := by
  obtain ⟨index, inBody, rfl⟩ := walked?_body walked
  obtain ⟨above, stack, below⟩ := Path.below_outerBody genuine top inBody
  have descends := Path.descends_below root
  rw [stack]
  exact Walker.jumps_execAll run body.stmts .empty fun stmt hs =>
    Walker.walked descends run (.stmt stmt) _ 0 (descends.child below (List.mem_map_of_mem hs))

/-- The paths that are handed out from a genuine start are genuine, and the walk keeps its
place. -/
theorem keepsPlaces (genuine : query.start.Genuine) : query.KeepsPlaces spec stopAtFirst := by
  obtain ⟨root, top⟩ : ∃ root, query.start.get? 0 = some root := by
    rw [Path.get?_zero]
    cases nodes : query.start.outward with
    | nil => exact (nodes ▸ genuine : Path.GenuineList []).elim
    | cons n above => exact ⟨_, List.getLast?_eq_some_getLast (List.cons_ne_nil n above)⟩
  have nothing : (⟨[], [], []⟩ : Trace).Placed (Path.Below root) := fun _ mem => nomatch mem
  have walks : query.traceByHand spec stopAtFirst = query.trace spec stopAtFirst ∧
      (query.trace spec stopAtFirst).Placed (Path.Below root) := by
    rw [trace_eq, traceByHand]
    cases walked : query.walked? spec stopAtFirst with
    | none => exact ⟨rfl, nothing⟩
    | some walk =>
      obtain ⟨run, place, body⟩ := walk
      have jumps := jumps_body genuine top walked
      exact ⟨congrArg (·.2.trace) (jumps.same [] ⟨[], [], []⟩), jumps.placed _ nothing⟩
  refine ⟨fun o mem => ?_, walks.1, fun source => Walker.returns _⟩
  have placed := walks.2 o mem
  exact ⟨placed.way.genuine, placed.ends, by rw [top, Path.get?_zero, placed.way.top]⟩

end FlowQuery

namespace LeftLoop

/-- `"x"` -/
def text : Expr := ⟨0, .string, .literal (.string "x")⟩

/-- `String s = "x";` -/
def declaration : Stmt := ⟨1, .declare ⟨[], "String", [⟨2, "s", .string, some text⟩]⟩⟩

/-- `s.isEmpty()` -/
def condition : Expr :=
  ⟨3, .boolean, .call (some ⟨4, .string, .ident "s" none⟩) "isEmpty" [] none⟩

/-- `while (true) { if (!s.isEmpty()) break; }` -/
def loop : Stmt :=
  ⟨5, .whileLoop ⟨6, .boolean, .literal (.boolean true)⟩
    ⟨7, .block ⟨8, false,
      [⟨9, .ifElse ⟨10, .boolean, .unary .not condition⟩ ⟨11, .breakStmt⟩ none⟩]⟩⟩⟩

/-- A static initializer. -/
def body : Block := ⟨12, true, [declaration, loop]⟩

def start : Path :=
  ⟨[.expr text, .var ⟨2, "s", .string, some text⟩, .stmt declaration, .block body]⟩

/-- From the text to anything that it gets to itself; no condition makes it harmless. -/
def spec : FlowSpec where
  kind := .value
  isSource _ := true
  isSink _ := true
  sanitizes := some fun _ _ => false

/-- The text and the read of `s` are offered, and for either branch the sanitizer is asked about
`true` and about `s.isEmpty()`, which its negation is the parent of. -/
theorem keepsPlaces_leftLoop :
    start.Genuine ∧
      (((⟨start, .standard⟩ : FlowQuery).trace spec false).asked.map
        fun o => o.path.inward.length) = [4, 8, 3, 3, 7, 7] ∧
      (⟨start, .standard⟩ : FlowQuery).KeepsPlaces spec false := by
  have genuine : start.Genuine :=
    ⟨List.mem_singleton.mpr rfl, List.mem_singleton.mpr rfl, List.mem_cons_self, trivial⟩
  exact ⟨genuine, by decide +kernel, FlowQuery.keepsPlaces genuine⟩

end LeftLoop

end JavaMend
