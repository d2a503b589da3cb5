import JavaMend.Proofs.Flow.Idle
import JavaMend.Proofs.Flow.Statement

/-!
# Comparing two runs

Two runs that walk the same nodes do so step by step in the same order, whatever
else tells them apart. A `Comparison` says when their states, their answers and
their walks are related; it is `Sound` if what walks are made of keeps the
relation: reading and assigning a local, joining states, assuming a condition,
offering an expression, going round a loop. Then it is kept by the walk of every
expression (`Comparison.Sound.eval`) and of every statement
(`Comparison.Sound.exec`), and so by that of a body.

States that may be missing are related only if both are there or both are not: in
either run control leaves a statement by the same ways.
-/

namespace JavaMend

/-! ## Rounds of a loop -/

namespace FlowRun

/-- Two states are related by equality if they are equal, and so are two places
without a state. -/
theorem rel_eq_iff {α : Type} {a b : Option α} : Option.Rel Eq a b ↔ a = b := by
  constructor
  · intro related
    cases related with
    | none => rfl
    | some same => exact congrArg some same
  · rintro rfl
    cases a with
    | none => exact .none
    | some a => exact .some rfl

/-- A round that adds what leaves the loop in this turn to what has left it. -/
def gather (turn : FlowState → FlowM (Option FlowState × Option FlowState)) (head : FlowState)
    (exit : Option FlowState) : FlowM (Option FlowState × Option FlowState) :=
  turn head >>= fun r => pure (FlowState.merge exit r.1, r.2)

theorem loopRound_eq_gather (run : FlowRun) (here : List Node) (condition : Option Expr)
    (update : List Expr) (body : FlowState → FlowM Exits) :
    run.loopRound here condition update body =
      gather fun head => run.loopRound here condition update body head none := by
  funext head exit
  unfold gather
  cases condition with
  | none =>
    simp only [loopRound_none, bind_assoc]
    rfl
  | some c =>
    simp only [loopRound_some, bind_assoc, FlowState.merge_assoc]
    rfl

theorem itemRound_eq_gather (item : String) (tainted : Bool) (body : FlowState → FlowM Exits) :
    itemRound item tainted body = gather fun head => itemRound item tainted body head none := by
  funext head exit
  unfold gather itemRound
  simp only [bind_assoc, pure_bind, FlowState.merge_assoc]
  rfl

/-- Offers an expression if it carries the value. -/
def announce (run : FlowRun) (here : List Node) (e : Expr) (carried : Bool) : FlowM Unit :=
  if carried = true then run.offer here e else pure ()

theorem settle_eq (run : FlowRun) (here : List Node) (e : Expr) (s : FlowState)
    (walk : FlowM (Bool × FlowState)) :
    run.settle here e s walk = run.isDone >>= fun done => if done = true then pure (false, s) else
      walk >>= fun r => run.announce here e (r.1 || e.same run.source) >>= fun _ =>
        pure (r.1 || e.same run.source, r.2) := by
  unfold settle announce
  refine bind_congr fun done => ?_
  congr 1
  refine bind_congr fun r => ?_
  split <;> rfl

end FlowRun

/-- The parts of a `try` statement: variables, blocks, and no expressions. -/
theorem Node.mem_children_tryCatch (id : NodeId) (resources : List (Declaration Variable))
    (body : Block) (catches : List (CatchClause Variable Block)) (finish : Option Block) :
    let n : Node := .stmt ⟨id, .tryCatch resources body catches finish⟩
    (∀ decl ∈ resources, ∀ v ∈ decl.vars, .var v ∈ n.children) ∧ .block body ∈ n.children ∧
      (∀ clause ∈ catches, .var clause.parameter ∈ n.children ∧
        .block clause.body ∈ n.children) ∧
      ∀ last ∈ finish, .block last ∈ n.children := by
  intro n
  refine ⟨fun decl hdecl v hv => ?_, ?_, fun clause hc => ?_, fun last hl => ?_⟩
  · exact List.mem_append_left _ (List.mem_append_left _ (List.mem_append_left _
      (List.mem_flatMap.mpr ⟨decl, hdecl, List.mem_map_of_mem hv⟩)))
  · exact List.mem_append_left _ (List.mem_append_left _
      (List.mem_append_right _ List.mem_cons_self))
  · have inside : ∀ m ∈ [Node.var clause.parameter, .block clause.body], m ∈ n.children :=
      fun m hm => List.mem_append_left _
        (List.mem_append_right _ (List.mem_flatMap.mpr ⟨clause, hc, hm⟩))
    exact ⟨inside _ List.mem_cons_self, inside _ (List.mem_cons_of_mem _ List.mem_cons_self)⟩
  · exact List.mem_append_right _ (List.mem_map_of_mem (Option.mem_toList.mpr hl))

/-! ## Comparisons -/

/-- A way to compare the walks of two runs. -/
structure Comparison (left right : FlowRun) where
  /-- Which states are related. -/
  state : FlowState → FlowState → Prop
  /-- Which answers are, to whether an expression carries the value. -/
  value : Bool → Bool → Prop
  /-- Which walks are, where their answers are to be related as given. -/
  walks : {α : Type} → (α → α → Prop) → FlowM α → FlowM α → Prop
  /-- The expressions that may be offered, with their places. -/
  offers : Occurrence → Prop
  /-- The locals that may be given a value. -/
  writes : String → Prop

namespace Comparison

variable {left right : FlowRun}

/-- Related answers of the walk of an expression. -/
structure Result (c : Comparison left right) (r r' : Bool × FlowState) : Prop where
  value : c.value r.1 r'.1
  state : c.state r.2 r'.2

/-- Related ways out of a statement. -/
structure Leaves (c : Comparison left right) (exits exits' : Exits) : Prop where
  normal : Option.Rel c.state exits.normal exits'.normal
  breaks : Option.Rel c.state exits.breaks exits'.breaks
  continues : Option.Rel c.state exits.continues exits'.continues

/-- Related answers of a round: what has left the loop, and what comes back. -/
structure Turn (c : Comparison left right) (r r' : Option FlowState × Option FlowState) :
    Prop where
  exit : Option.Rel c.state r.1 r'.1
  back : Option.Rel c.state r.2 r'.2

/-- A node whose walk does nothing that the comparison excludes. -/
structure Admits (c : Comparison left right) (above : List Node) (n : Node) : Prop where
  offers : ∀ o ∈ n.occurrences above, c.offers o
  writes : ∀ m ∈ n.own, ∀ x ∈ m.written?, c.writes x

/-- What walks are made of keeps the relation. -/
structure Sound (c : Comparison left right) : Prop where
  source : left.source = right.source
  maxDepth : left.limits.maxDepth = right.limits.maxDepth
  answer : ∀ {α : Type} {rel : α → α → Prop} {a b : α}, rel a b → c.walks rel (pure a) (pure b)
  seq : ∀ {α β : Type} {rel : α → α → Prop} {rel' : β → β → Prop} {walk walk' : FlowM α}
    {next next' : α → FlowM β}, c.walks rel walk walk' →
    (∀ a b, rel a b → c.walks rel' (next a) (next' b)) →
    c.walks rel' (walk >>= next) (walk' >>= next')
  isDone : c.walks Eq left.isDone right.isDone
  announce : ∀ {here e a b}, c.offers ⟨e, ⟨here⟩⟩ → c.value a b →
    c.walks (fun _ _ => True) (left.announce here e a) (right.announce here e b)
  assumeAtom : ∀ {here e branch s s'}, c.state s s' →
    c.walks c.state (left.assumeAtom here e branch s) (right.assumeAtom here e branch s')
  iterate : ∀ {turn turn' head head' exit exit'},
    (∀ s s', c.state s s' → c.walks c.Turn (turn s) (turn' s')) →
    c.state head head' → Option.Rel c.state exit exit' →
    c.walks (Option.Rel c.state)
      (left.iterate (FlowRun.gather turn) left.limits.maxLoopIterations head exit)
      (right.iterate (FlowRun.gather turn') right.limits.maxLoopIterations head' exit')
  live : ∀ {s s'} x, c.state s s' → c.value (s.isLive x) (s'.isLive x)
  assign : ∀ {s s' x a b}, c.writes x → c.state s s' → c.value a b →
    c.state (s.assign x a) (s'.assign x b)
  join : ∀ {s s' t t'}, c.state s s' → c.state t t' → c.state (s.join t) (s'.join t')
  refl : ∀ a, c.value a a
  or : ∀ {a b a' b'}, c.value a b → c.value a' b' → c.value (a || a') (b || b')
  mask : ∀ {a b}, c.value a b → c.value (left.isTaint && a) (right.isTaint && b)

variable {c : Comparison left right} {above here : List Node} {n m : Node} {s s' : FlowState}
  {depth : Nat}

/-! ## Nodes -/

theorem Admits.child (h : c.Admits above n) (open_ : n.isNested = false) (mem : m ∈ n.children) :
    c.Admits (n :: above) m :=
  ⟨fun o ho => h.offers o (Node.mem_occurrences_of_child open_ mem ho),
    fun k hk => h.writes k (Node.mem_own_of_child open_ mem hk)⟩

theorem Admits.self {e : Expr} (h : c.Admits above (.expr e)) :
    c.offers ⟨e, ⟨.expr e :: above⟩⟩ :=
  h.offers _ Node.mem_occurrences_self

theorem Admits.written {x : String} (h : c.Admits above n) (writes : n.written? = some x) :
    c.writes x :=
  h.writes n Node.mem_own_self x writes

/-- The walks of a node of a body are related, from every pair of related states. -/
def Walked (c : Comparison left right) (above : List Node) (depth : Nat) : Node → Prop
  | .stmt stmt => ∀ s s', c.state s s' →
      c.walks c.Leaves (left.exec above depth stmt s) (right.exec above depth stmt s')
  | .block block => ∀ s s', c.state s s' →
      c.walks c.Leaves (left.execBlock above depth block s) (right.execBlock above depth block s')
  | _ => True

/-! ## Ways out -/

theorem leaves_falls {a b : Option FlowState} (h : Option.Rel c.state a b) :
    c.Leaves (.falls a) (.falls b) :=
  ⟨h, .none, .none⟩

namespace Sound

variable (h : c.Sound)

include h

theorem merge {a b a' b' : Option FlowState} (first : Option.Rel c.state a b)
    (second : Option.Rel c.state a' b') :
    Option.Rel c.state (FlowState.merge a a') (FlowState.merge b b') := by
  cases first with
  | none => exact second
  | some first =>
    cases second with
    | none => exact .some first
    | some second => exact .some (h.join first second)

theorem joinBack {a b : Option FlowState} (state : c.state s s') (back : Option.Rel c.state a b) :
    c.state (s.joinBack a) (s'.joinBack b) := by
  cases back with
  | none => exact state
  | some back => exact h.join state back

theorem after {first first' next next' : Exits} (before : c.Leaves first first')
    (then_ : c.Leaves next next') : c.Leaves (first.after next) (first'.after next') :=
  ⟨then_.normal, h.merge before.breaks then_.breaks, h.merge before.continues then_.continues⟩

/-- Where two ways meet that both may fall through. -/
theorem beside {one one' other other' : Exits} (first : c.Leaves one one')
    (second : c.Leaves other other') :
    c.Leaves (one.after { other with normal := FlowState.merge one.normal other.normal })
      (one'.after { other' with normal := FlowState.merge one'.normal other'.normal }) :=
  h.after first ⟨h.merge first.normal second.normal, second.breaks, second.continues⟩

/-! ## Expressions -/

/-- Conditions are taken apart alike. -/
theorem assume {branch : Bool} {e : Expr} (state : c.state s s') :
    c.walks c.state (left.assume above branch e s) (right.assume above branch e s') := by
  induction above, branch, e, s using FlowRun.assume.induct generalizing s' with
  | case1 above branch s id ty inner here =>
    rename_i ih
    rw [FlowRun.assume, FlowRun.assume]
    exact ih state
  | case2 above branch s id ty operand here =>
    rename_i ih
    rw [FlowRun.assume, FlowRun.assume]
    exact ih state
  | case3 above branch s id ty op first second both here ih₁ =>
    rename_i ih₂
    rw [FlowRun.assume, FlowRun.assume, if_pos both, if_pos both]
    exact h.seq (ih₁ state) fun t t' state' => ih₂ t state'
  | case4 above branch s id ty op first second single =>
    rw [FlowRun.assume, FlowRun.assume, if_neg single, if_neg single]
    exact h.assumeAtom state
  | case5 above branch s e noParens noNot noBinary =>
    have atom : ∀ run : FlowRun, ∀ s, run.assume above branch e s =
        run.assumeAtom (.expr e :: above) e branch s := by
      intro run s
      rw [FlowRun.assume] <;> assumption
    rw [atom, atom]
    exact h.assumeAtom state

/-- The evaluation of an expression around that of its parts. -/
theorem settle {e : Expr} {walk walk' : FlowM (Bool × FlowState)}
    (admitted : c.offers ⟨e, ⟨here⟩⟩) (state : c.state s s') (inner : c.walks c.Result walk walk') :
    c.walks c.Result (left.settle here e s walk) (right.settle here e s' walk') := by
  rw [FlowRun.settle_eq, FlowRun.settle_eq, h.source]
  refine h.seq h.isDone fun done _ same => ?_
  subst same
  cases done with
  | true => exact h.answer ⟨h.refl false, state⟩
  | false =>
    refine h.seq inner fun r r' result => ?_
    have value := h.or result.value (h.refl (e.same right.source))
    exact h.seq (h.announce admitted value) fun _ _ _ => h.answer ⟨value, result.state⟩

theorem evalAny (es : List Expr) (state : c.state s s')
    (parts : ∀ e ∈ es, ∀ s s', c.state s s' →
      c.walks c.Result (left.eval above e s) (right.eval above e s')) :
    c.walks c.Result (left.evalAny above es s) (right.evalAny above es s') := by
  induction es generalizing s s' with
  | nil =>
    rw [FlowRun.evalAny, FlowRun.evalAny]
    exact h.answer ⟨h.refl false, state⟩
  | cons e rest ih =>
    rw [FlowRun.evalAny, FlowRun.evalAny]
    refine h.seq (parts e List.mem_cons_self s s' state) fun r r' first => ?_
    have more := ih first.state fun e he => parts e (List.mem_cons_of_mem _ he)
    exact h.seq more fun q q' second => h.answer ⟨h.or first.value second.value, second.state⟩

/-- A value that the flow passes through if the value may be handed on. -/
theorem through {walk walk' : FlowM (Bool × FlowState)} {f g : Bool → Bool}
    (inner : c.walks c.Result walk walk') (value : ∀ a b, c.value a b → c.value (f a) (g b)) :
    c.walks c.Result (walk >>= fun r => pure (f r.1, r.2))
      (walk' >>= fun r => pure (g r.1, r.2)) :=
  h.seq inner fun _ _ result => h.answer ⟨value _ _ result.value, result.state⟩

/-- A value made from two others, one after the other. -/
theorem both {walk walk' : FlowM (Bool × FlowState)}
    {next next' : FlowState → FlowM (Bool × FlowState)} {f g : Bool → Bool}
    (first : c.walks c.Result walk walk')
    (second : ∀ s s', c.state s s' → c.walks c.Result (next s) (next' s'))
    (value : ∀ a b, c.value a b → c.value (f a) (g b)) :
    c.walks c.Result (walk >>= fun r => next r.2 >>= fun q => pure (f (r.1 || q.1), q.2))
      (walk' >>= fun r => next' r.2 >>= fun q => pure (g (r.1 || q.1), q.2)) := by
  refine h.seq first fun r r' result => ?_
  refine h.seq (second _ _ result.state) fun q q' result' => h.answer ⟨?_, result'.state⟩
  exact value _ _ (h.or result.value result'.value)

/-- A value that is stored in a local. -/
theorem store {walk walk' : FlowM (Bool × FlowState)} {f g : Bool → Bool} {name : String}
    (writes : c.writes name) (inner : c.walks c.Result walk walk')
    (value : ∀ a b, c.value a b → c.value (f a) (g b)) :
    c.walks c.Result (walk >>= fun r => pure (f r.1, r.2.assign name (f r.1)))
      (walk' >>= fun r => pure (g r.1, r.2.assign name (g r.1))) := by
  refine h.seq inner fun r r' result => ?_
  have stored := value _ _ result.value
  exact h.answer ⟨stored, h.assign writes result.state stored⟩

/-- A condition and what is walked on either branch. -/
theorem branches {α : Type} {rel : α → α → Prop} {condition : Expr}
    {yes yes' no no' : FlowState → FlowM α} (meet : α → α → α)
    (first : c.walks c.Result (left.eval here condition s) (right.eval here condition s'))
    (onTrue : ∀ s s', c.state s s' → c.walks rel (yes s) (yes' s'))
    (onFalse : ∀ s s', c.state s s' → c.walks rel (no s) (no' s'))
    (meets : ∀ a a' b b', rel a a' → rel b b' → rel (meet a b) (meet a' b')) :
    c.walks rel
      (left.eval here condition s >>= fun r =>
        left.assume here true condition r.2 >>= fun s₁ => yes s₁ >>= fun a =>
        left.assume here false condition r.2 >>= fun s₂ => no s₂ >>= fun b => pure (meet a b))
      (right.eval here condition s' >>= fun r =>
        right.assume here true condition r.2 >>= fun s₁ => yes' s₁ >>= fun a =>
        right.assume here false condition r.2 >>= fun s₂ => no' s₂ >>= fun b =>
          pure (meet a b)) := by
  refine h.seq first fun r r' result => ?_
  refine h.seq (h.assume result.state) fun s₁ s₁' state₁ => ?_
  refine h.seq (onTrue s₁ s₁' state₁) fun a a' related => ?_
  refine h.seq (h.assume result.state) fun s₂ s₂' state₂ => ?_
  exact h.seq (onFalse s₂ s₂' state₂) fun b b' related' =>
    h.answer (meets a a' b b' related related')

/-- The walks of an expression are related if those of its parts are. -/
theorem eval_of_children {e : Expr} (admits : c.Admits above (.expr e)) (state : c.state s s')
    (parts : ∀ d ∈ e.children, ∀ s s', c.state s s' →
      c.walks c.Result (left.eval (.expr e :: above) d s) (right.eval (.expr e :: above) d s')) :
    c.walks c.Result (left.eval above e s) (right.eval above e s') := by
  -- Around the parts, every expression is walked alike.
  have around : ∀ {walk walk'}, left.eval above e s = left.settle (.expr e :: above) e s walk →
      right.eval above e s' = right.settle (.expr e :: above) e s' walk' →
      c.walks c.Result walk walk' →
      c.walks c.Result (left.eval above e s) (right.eval above e s') :=
    fun eq eq' inner => eq ▸ eq' ▸ h.settle admits.self state inner
  have off : c.walks c.Result (pure (false, s)) (pure (false, s')) :=
    h.answer ⟨h.refl false, state⟩
  obtain ⟨id, ty, form⟩ := e
  cases form with
  | ident name owner =>
    cases owner with
    | none =>
      have read : c.walks c.Result (pure (s.isLive name, s)) (pure (s'.isLive name, s')) :=
        h.answer ⟨h.live name state, state⟩
      exact around (by rw [FlowRun.eval]; rfl) (by rw [FlowRun.eval]; rfl) read
    | some owner => exact around (by rw [FlowRun.eval]; rfl) (by rw [FlowRun.eval]; rfl) off
  | literal value => exact around (by rw [FlowRun.eval]; rfl) (by rw [FlowRun.eval]; rfl) off
  | field target name =>
    have made := h.through (parts target List.mem_cons_self s s' state) fun _ _ => h.mask
    exact around (by rw [FlowRun.eval]; rfl) (by rw [FlowRun.eval]; rfl) made
  | call receiver name args method =>
    cases receiver with
    | none =>
      have made := h.through (h.evalAny _ state parts) fun _ _ => h.mask
      exact around (by rw [FlowRun.eval]; rfl) (by rw [FlowRun.eval]; rfl) made
    | some receiver =>
      have made := h.both (parts receiver List.mem_cons_self s s' state)
        (fun s s' state => h.evalAny _ state fun d hd => parts d (List.mem_cons_of_mem _ hd))
        fun _ _ => h.mask
      exact around (by rw [FlowRun.eval]; rfl) (by rw [FlowRun.eval]; rfl) made
  | create className args method =>
    have made := h.through (h.evalAny _ state parts) fun _ _ => h.mask
    exact around (by rw [FlowRun.eval]; rfl) (by rw [FlowRun.eval]; rfl) made
  | array element size =>
    have made := h.through (f := fun _ => false) (g := fun _ => false)
      (parts size List.mem_cons_self s s' state) fun _ _ _ => h.refl false
    exact around (by rw [FlowRun.eval]; rfl) (by rw [FlowRun.eval]; rfl) made
  | binary op first second =>
    have concatenates : ∀ a b, c.value a b →
        c.value (left.isTaint && op == .add && ty.isString && a)
          (right.isTaint && op == .add && ty.isString && b) := by
      intro a b value
      have joined : c.value (op == .add && ty.isString && a) (op == .add && ty.isString && b) := by
        cases op == .add && ty.isString with
        | true => exact value
        | false => exact h.refl false
      simpa only [Bool.and_assoc] using h.mask joined
    have made := h.both (parts first List.mem_cons_self s s' state)
      (parts second (List.mem_cons_of_mem _ List.mem_cons_self)) concatenates
    exact around (by rw [FlowRun.eval]; rfl) (by rw [FlowRun.eval]; rfl) made
  | unary op operand =>
    have made := h.through (f := fun _ => false) (g := fun _ => false)
      (parts operand List.mem_cons_self s s' state) fun _ _ _ => h.refl false
    exact around (by rw [FlowRun.eval]; rfl) (by rw [FlowRun.eval]; rfl) made
  | assign op target value =>
    have value_walks := parts value (List.mem_cons_of_mem _ List.mem_cons_self)
    cases local_ : target.localName? with
    | none =>
      have made := h.seq (parts target List.mem_cons_self s s' state)
        fun r r' result => value_walks r.2 r'.2 result.state
      refine around ?_ ?_ made
      · rw [FlowRun.eval]; simp only [local_]; rfl
      · rw [FlowRun.eval]; simp only [local_]; rfl
    | some name =>
      have writes : c.writes name := admits.written local_
      cases op with
      | none =>
        have made := h.store (f := (·)) (g := (·)) writes (value_walks s s' state)
          fun _ _ value => value
        refine around ?_ ?_ made
        · rw [FlowRun.eval]; simp only [local_]; rfl
        · rw [FlowRun.eval]; simp only [local_]; rfl
      | some op =>
        have made := h.store writes (value_walks s s' state)
          fun _ _ value => h.mask (h.or (h.live name state) value)
        refine around ?_ ?_ made
        · rw [FlowRun.eval]; simp only [local_]; rfl
        · rw [FlowRun.eval]; simp only [local_]; rfl
  | parens inner =>
    have inner_walks := parts inner List.mem_cons_self s s' state
    exact around (by rw [FlowRun.eval]; rfl) (by rw [FlowRun.eval]; rfl) inner_walks
  | cast typeName operand =>
    have operand_walks := parts operand List.mem_cons_self s s' state
    exact around (by rw [FlowRun.eval]; rfl) (by rw [FlowRun.eval]; rfl) operand_walks
  | ternary condition onTrue onFalse =>
    have made := h.branches (fun a b => (a.1 || b.1, a.2.join b.2))
      (parts condition List.mem_cons_self s s' state)
      (parts onTrue (List.mem_cons_of_mem _ List.mem_cons_self))
      (parts onFalse (List.mem_cons_of_mem _ (List.mem_cons_of_mem _ List.mem_cons_self)))
      fun a a' b b' yes no => ⟨h.or yes.value no.value, h.join yes.state no.state⟩
    exact around (by rw [FlowRun.eval]; rfl) (by rw [FlowRun.eval]; rfl) made

/-- From related states the walks of an expression are related. -/
theorem eval (e : Expr) (above : List Node) (admits : c.Admits above (.expr e)) {s s' : FlowState}
    (state : c.state s s') : c.walks c.Result (left.eval above e s) (right.eval above e s') :=
  h.eval_of_children admits state fun d hd s s' state' =>
    eval d _ (admits.child rfl (List.mem_map_of_mem hd)) state'
termination_by sizeOf e
decreasing_by exact Expr.sizeOf_lt_of_mem_children hd

/-! ## Statements -/

theorem declare (vars : List Variable) (admits : ∀ v ∈ vars, c.Admits above (.var v))
    (state : c.state s s') :
    c.walks c.state (left.declare above vars s) (right.declare above vars s') := by
  induction vars generalizing s s' with
  | nil => exact h.answer state
  | cons v rest ih =>
    have admits_v := admits v List.mem_cons_self
    have writes : c.writes v.name := admits_v.written rfl
    have more : ∀ s s', c.state s s' →
        c.walks c.state (left.declare above rest s) (right.declare above rest s') :=
      fun _ _ state => ih (fun w hw => admits w (List.mem_cons_of_mem _ hw)) state
    rw [FlowRun.declare, FlowRun.declare]
    cases init : v.init with
    | none => exact more _ _ (h.assign writes state (h.refl false))
    | some e =>
      have mem : Node.expr e ∈ (Node.var v).children := by
        simp only [Node.children, init]
        exact List.mem_cons_self
      refine h.seq (h.eval e _ (admits_v.child rfl mem) state) fun r r' result => ?_
      exact more _ _ (h.assign writes result.state result.value)

/-- The resources of a `try` statement. -/
theorem declareAll {id : NodeId} {resources : List (Declaration Variable)} {body : Block}
    {catches : List (CatchClause Variable Block)} {finish : Option Block}
    (admits : c.Admits above (.stmt ⟨id, .tryCatch resources body catches finish⟩))
    (state : c.state s s') :
    c.walks c.state
      (left.declareAll (.stmt ⟨id, .tryCatch resources body catches finish⟩ :: above) resources s)
      (right.declareAll (.stmt ⟨id, .tryCatch resources body catches finish⟩ :: above)
        resources s') := by
  obtain ⟨ofResources, -⟩ := Node.mem_children_tryCatch id resources body catches finish
  refine h.declare _ (fun v hv => ?_) state
  obtain ⟨decl, hdecl, hv⟩ := List.mem_flatMap.mp hv
  exact admits.child rfl (ofResources decl hdecl v hv)

/-- What follows a statement is walked from where control falls through it. -/
theorem andThen {walk walk' : FlowM Exits} {next next' : FlowState → FlowM Exits}
    (first : c.walks c.Leaves walk walk')
    (more : ∀ s s', c.state s s' → c.walks c.Leaves (next s) (next' s')) :
    c.walks c.Leaves
      (walk >>= fun exits => match exits.normal with
        | none => pure exits
        | some s => next s >>= fun q => pure (exits.after q))
      (walk' >>= fun exits => match exits.normal with
        | none => pure exits
        | some s => next' s >>= fun q => pure (exits.after q)) := by
  refine h.seq first fun exits exits' leaves => ?_
  obtain ⟨normal, breaks, continues⟩ := exits
  obtain ⟨normal', breaks', continues'⟩ := exits'
  have falls : Option.Rel c.state normal normal' := leaves.normal
  cases falls with
  | none => exact h.answer leaves
  | some state =>
    exact h.seq (more _ _ state) fun q q' leaves' => h.answer (h.after leaves leaves')

theorem execAll (depth : Nat) (stmts : List Stmt)
    (parts : ∀ stmt ∈ stmts, ∀ s s', c.state s s' →
      c.walks c.Leaves (left.exec above depth stmt s) (right.exec above depth stmt s'))
    (state : c.state s s') :
    c.walks c.Leaves (left.execAll above depth stmts s) (right.execAll above depth stmts s') := by
  induction stmts generalizing s s' with
  | nil =>
    rw [FlowRun.execAll, FlowRun.execAll]
    exact h.answer (leaves_falls (.some state))
  | cons stmt rest ih =>
    rw [FlowRun.execAll, FlowRun.execAll]
    refine h.seq h.isDone fun done _ same => ?_
    subst same
    cases done with
    | true => exact h.answer (leaves_falls (.some state))
    | false =>
      exact h.andThen (parts stmt List.mem_cons_self s s' state) fun _ _ state' =>
        ih (fun stmt hs => parts stmt (List.mem_cons_of_mem _ hs)) state'

/-- A turn of a loop with a condition or without. -/
theorem loopTurn {condition : Option Expr} {update : List Expr}
    {body body' : FlowState → FlowM Exits}
    (guards : ∀ e ∈ condition, ∀ s s', c.state s s' →
      c.walks c.Result (left.eval here e s) (right.eval here e s'))
    (updates : ∀ e ∈ update, ∀ s s', c.state s s' →
      c.walks c.Result (left.eval here e s) (right.eval here e s'))
    (bodies : ∀ s s', c.state s s' → c.walks c.Leaves (body s) (body' s'))
    (state : c.state s s') :
    c.walks c.Turn (left.loopRound here condition update body s none)
      (right.loopRound here condition update body' s' none) := by
  have turn : ∀ s s', c.state s s' →
      c.walks c.Turn (FlowRun.loopTurn body (left.evalAny here update) s)
        (FlowRun.loopTurn body' (right.evalAny here update) s') := by
    intro s s' state
    refine h.seq (bodies s s' state) fun exits exits' leaves => ?_
    refine h.seq ?_ fun back back' (related : Option.Rel c.state back back') =>
      h.answer ⟨leaves.breaks, related⟩
    have goesOn := h.merge leaves.normal leaves.continues
    generalize FlowState.merge exits.normal exits.continues = back at goesOn ⊢
    generalize FlowState.merge exits'.normal exits'.continues = back' at goesOn ⊢
    cases goesOn with
    | none => exact h.answer .none
    | some state =>
      exact h.seq (h.evalAny _ state updates) fun r r' result => h.answer (.some result.state)
  cases condition with
  | none =>
    rw [FlowRun.loopRound_none, FlowRun.loopRound_none]
    exact h.seq (turn s s' state) fun r r' related => h.answer related
  | some e =>
    rw [FlowRun.loopRound_some, FlowRun.loopRound_some]
    refine h.seq (guards e rfl s s' state) fun r r' result => ?_
    refine h.seq (h.assume result.state) fun inside inside' entered => ?_
    refine h.seq (h.assume result.state) fun outside outside' failed => ?_
    refine h.seq (turn _ _ entered) fun t t' related => h.answer ⟨?_, related.back⟩
    exact h.merge (.some failed) related.exit

theorem itemTurn {item : String} {body body' : FlowState → FlowM Exits} {carried carried' : Bool}
    (writes : c.writes item) (value : c.value carried carried')
    (bodies : ∀ s s', c.state s s' → c.walks c.Leaves (body s) (body' s'))
    (state : c.state s s') :
    c.walks c.Turn (FlowRun.itemRound item carried body s none)
      (FlowRun.itemRound item carried' body' s' none) := by
  refine h.seq (bodies _ _ (h.assign writes state value)) fun exits exits' leaves => ?_
  have back := h.merge leaves.normal leaves.continues
  exact h.answer ⟨h.merge (h.merge .none leaves.breaks) back, back⟩

theorem loop {condition : Option Expr} (update : List Expr) {body body' : FlowState → FlowM Exits}
    (guards : ∀ e ∈ condition, ∀ s s', c.state s s' →
      c.walks c.Result (left.eval here e s) (right.eval here e s'))
    (updates : ∀ e ∈ update, ∀ s s', c.state s s' →
      c.walks c.Result (left.eval here e s) (right.eval here e s'))
    (bodies : ∀ s s', c.state s s' → c.walks c.Leaves (body s) (body' s'))
    (state : c.state s s') :
    c.walks (Option.Rel c.state)
      (left.iterate (left.loopRound here condition update body)
        left.limits.maxLoopIterations s none)
      (right.iterate (right.loopRound here condition update body')
        right.limits.maxLoopIterations s' none) := by
  rw [FlowRun.loopRound_eq_gather left, FlowRun.loopRound_eq_gather right]
  exact h.iterate (fun _ _ => h.loopTurn guards updates bodies) state .none

theorem execCatches {clauses : List (CatchClause Variable Block)} {out out' : Exits}
    (writes : ∀ clause ∈ clauses, c.writes clause.parameter.name)
    (bodies : ∀ clause ∈ clauses, ∀ s s', c.state s s' →
      c.walks c.Leaves (left.execBlock above depth clause.body s)
        (right.execBlock above depth clause.body s'))
    (state : c.state s s') (leaves : c.Leaves out out') :
    c.walks c.Leaves (left.execCatches above depth clauses s out)
      (right.execCatches above depth clauses s' out') := by
  induction clauses generalizing out out' with
  | nil =>
    rw [FlowRun.execCatches, FlowRun.execCatches]
    exact h.answer leaves
  | cons clause rest ih =>
    have cleared : c.state (s.clear clause.parameter.name) (s'.clear clause.parameter.name) :=
      h.assign (writes clause List.mem_cons_self) state (h.refl false)
    have caught := bodies clause List.mem_cons_self _ _ cleared
    obtain ⟨typeNames, types, parameter, body⟩ := clause
    rw [FlowRun.execCatches, FlowRun.execCatches]
    refine h.seq caught fun exits exits' leaves' => ?_
    exact ih (fun clause hc => writes clause (List.mem_cons_of_mem _ hc))
      (fun clause hc => bodies clause (List.mem_cons_of_mem _ hc)) (h.beside leaves leaves')

theorem execFinish {finish : Option Block} {out out' : Exits}
    (bodies : ∀ body ∈ finish, ∀ s s', c.state s s' →
      c.walks c.Leaves (left.execBlock above depth body s) (right.execBlock above depth body s'))
    (state : c.state s s') (leaves : c.Leaves out out') :
    c.walks c.Leaves (left.execFinish above depth finish s out)
      (right.execFinish above depth finish s' out') := by
  cases finish with
  | none =>
    rw [FlowRun.execFinish, FlowRun.execFinish]
    exact h.answer leaves
  | some body =>
    rw [FlowRun.execFinish, FlowRun.execFinish]
    obtain ⟨normal, breaks, continues⟩ := out
    obtain ⟨normal', breaks', continues'⟩ := out'
    have falls : Option.Rel c.state normal normal' := leaves.normal
    cases falls with
    | none =>
      refine h.seq (bodies body rfl s s' state) fun exits exits' leaves' => h.answer ?_
      exact h.after leaves ⟨.none, leaves'.breaks, leaves'.continues⟩
    | some state' =>
      exact h.seq (bodies body rfl _ _ state') fun exits exits' leaves' =>
        h.answer (h.after leaves leaves')

/-- A statement that is not nested too deep. -/
theorem exec_of_walks {stmt : Stmt} {walk walk' : FlowM Exits} (state : c.state s s')
    (inner : c.walks c.Leaves walk walk')
    (eq : left.exec above depth stmt s = left.isDone >>= fun done =>
      if (done || decide (left.limits.maxDepth ≤ depth)) = true then pure (.falls (some s))
      else walk)
    (eq' : right.exec above depth stmt s' = right.isDone >>= fun done =>
      if (done || decide (right.limits.maxDepth ≤ depth)) = true then pure (.falls (some s'))
      else walk') :
    c.walks c.Leaves (left.exec above depth stmt s) (right.exec above depth stmt s') := by
  rw [eq, eq', h.maxDepth]
  refine h.seq h.isDone fun done _ same => ?_
  subst same
  split
  · exact h.answer (leaves_falls (.some state))
  · exact inner

/-- The walks of a statement are related if those of the statements and blocks in
it are. Methods and classes are passed over. -/
theorem exec_of_children {stmt : Stmt} (admits : c.Admits above (.stmt stmt))
    (parts : (Node.stmt stmt).isNested = false → ∀ m ∈ stmt.children,
      c.Walked (.stmt stmt :: above) (depth + 1) m) : c.Walked above depth (.stmt stmt) := by
  intro s s' state
  have value : ∀ {e : Expr}, (Node.stmt stmt).isNested = false → Node.expr e ∈ stmt.children →
      ∀ s s', c.state s s' → c.walks c.Result (left.eval (.stmt stmt :: above) e s)
        (right.eval (.stmt stmt :: above) e s') :=
    fun open_ mem _ _ state => h.eval _ _ (admits.child open_ mem) state
  have gone : c.Leaves (.falls none) (.falls none) := leaves_falls .none
  obtain ⟨id, form⟩ := stmt
  cases form with
  | declare decl =>
    have declared := h.declare decl.vars
      (fun v hv => admits.child rfl (List.mem_map_of_mem hv)) state
    have inner := h.seq declared fun t t' state' => h.answer (leaves_falls (.some state'))
    exact h.exec_of_walks state inner (by rw [FlowRun.exec]) (by rw [FlowRun.exec])
  | expr e =>
    have inner := h.seq (value rfl List.mem_cons_self s s' state) fun r r' result =>
      h.answer (leaves_falls (.some result.state))
    exact h.exec_of_walks state inner (by rw [FlowRun.exec]) (by rw [FlowRun.exec])
  | ifElse condition onTrue onFalse =>
    have first := value rfl List.mem_cons_self s s' state
    have yes := parts rfl (.stmt onTrue) (List.mem_cons_of_mem _ List.mem_cons_self)
    cases onFalse with
    | none =>
      have no : ∀ s s', c.state s s' →
          c.walks c.Leaves (pure (.falls (some s))) (pure (.falls (some s'))) :=
        fun _ _ state => h.answer (leaves_falls (.some state))
      have inner := h.branches _ first yes no fun _ _ _ _ => h.beside
      exact h.exec_of_walks state inner (by rw [FlowRun.exec]; rfl) (by rw [FlowRun.exec]; rfl)
    | some onFalse =>
      have no := parts rfl (.stmt onFalse)
        (List.mem_cons_of_mem _ (List.mem_cons_of_mem _ List.mem_cons_self))
      have inner := h.branches _ first yes no fun _ _ _ _ => h.beside
      exact h.exec_of_walks state inner (by rw [FlowRun.exec]) (by rw [FlowRun.exec])
  | whileLoop condition body =>
    have guards : ∀ e ∈ some condition, ∀ s s', c.state s s' → c.walks c.Result
        (left.eval (.stmt ⟨id, .whileLoop condition body⟩ :: above) e s)
        (right.eval (.stmt ⟨id, .whileLoop condition body⟩ :: above) e s') := by
      intro e he
      cases he
      exact value rfl List.mem_cons_self
    have loops := h.loop [] guards (fun e he => (List.not_mem_nil he).elim)
      (parts rfl (.stmt body) (List.mem_cons_of_mem _ List.mem_cons_self)) state
    have inner := h.seq loops fun exit exit' related => h.answer (leaves_falls related)
    exact h.exec_of_walks state inner (by rw [FlowRun.exec]) (by rw [FlowRun.exec])
  | forLoop init condition update body =>
    have starts := h.execAll (depth + 1) init (fun stmt hs =>
      parts rfl (.stmt stmt) (List.mem_append_left _ (List.mem_append_left _
        (List.mem_append_left _ (List.mem_map_of_mem hs))))) state
    have guards : ∀ e ∈ condition, ∀ s s', c.state s s' → c.walks c.Result
        (left.eval (.stmt ⟨id, .forLoop init condition update body⟩ :: above) e s)
        (right.eval (.stmt ⟨id, .forLoop init condition update body⟩ :: above) e s') := by
      intro e he
      refine value rfl
        (List.mem_append_left _ (List.mem_append_left _ (List.mem_append_right _ ?_)))
      exact List.mem_map_of_mem (Option.mem_toList.mpr he)
    have updates : ∀ e ∈ update, ∀ s s', c.state s s' → c.walks c.Result
        (left.eval (.stmt ⟨id, .forLoop init condition update body⟩ :: above) e s)
        (right.eval (.stmt ⟨id, .forLoop init condition update body⟩ :: above) e s') := by
      intro e he
      exact value rfl (List.mem_append_left _ (List.mem_append_right _ (List.mem_map_of_mem he)))
    have bodies := parts rfl (.stmt body) (List.mem_append_right _ List.mem_cons_self)
    have inner := h.andThen starts fun t t' state' =>
      h.seq (h.loop update guards updates bodies state') fun exit exit' related =>
        h.answer (leaves_falls related)
    exact h.exec_of_walks state inner (by rw [FlowRun.exec]; rfl) (by rw [FlowRun.exec]; rfl)
  | forEach typeName item iterable body =>
    have iterates := value rfl (List.mem_cons_of_mem _ List.mem_cons_self) s s' state
    have writes : c.writes item.name :=
      (admits.child rfl (m := .var item) List.mem_cons_self).written rfl
    have bodies := parts rfl (.stmt body)
      (List.mem_cons_of_mem _ (List.mem_cons_of_mem _ List.mem_cons_self))
    have inner := h.seq iterates fun r r' result =>
      h.seq (h.iterate (fun _ _ => h.itemTurn writes result.value bodies) result.state
        (.some result.state)) fun exit exit' related => h.answer (leaves_falls related)
    refine h.exec_of_walks state inner ?_ ?_
    · rw [FlowRun.exec]; simp only [← FlowRun.itemRound_eq_gather]
    · rw [FlowRun.exec]; simp only [← FlowRun.itemRound_eq_gather]
  | tryCatch resources body catches finish =>
    obtain ⟨-, ofBody, ofClauses, ofFinish⟩ :=
      Node.mem_children_tryCatch id resources body catches finish
    have declared := h.declareAll admits state
    have tries := parts rfl (.block body) ofBody
    have writes : ∀ clause ∈ catches, c.writes clause.parameter.name := fun clause hc =>
      (admits.child rfl (m := .var clause.parameter) (ofClauses clause hc).1).written rfl
    have handlers : ∀ clause ∈ catches, c.Walked
        (.stmt ⟨id, .tryCatch resources body catches finish⟩ :: above) (depth + 1)
        (.block clause.body) := fun clause hc => parts rfl (.block clause.body) (ofClauses clause hc).2
    have finishes : ∀ last ∈ finish, c.Walked
        (.stmt ⟨id, .tryCatch resources body catches finish⟩ :: above) (depth + 1)
        (.block last) := fun last hl => parts rfl (.block last) (ofFinish last hl)
    have inner := h.seq declared fun t t' state' =>
      h.seq (tries t t' state') fun tried tried' leaves =>
        have handlerIn := h.joinBack state' leaves.normal
        h.seq (h.execCatches writes handlers handlerIn leaves) fun caught caught' leaves' =>
          h.execFinish finishes handlerIn leaves'
    exact h.exec_of_walks state inner (by rw [FlowRun.exec]; rfl) (by rw [FlowRun.exec]; rfl)
  | block body =>
    have inner := parts rfl (.block body) List.mem_cons_self s s' state
    exact h.exec_of_walks state inner (by rw [FlowRun.exec]) (by rw [FlowRun.exec])
  | returnStmt result =>
    have results := h.evalAny result.toList state fun e he =>
      value rfl (List.mem_map_of_mem he)
    have inner := h.seq results fun _ _ _ => h.answer gone
    exact h.exec_of_walks state inner (by rw [FlowRun.exec]) (by rw [FlowRun.exec])
  | throwStmt thrown =>
    have inner := h.seq (value rfl List.mem_cons_self s s' state) fun _ _ _ => h.answer gone
    exact h.exec_of_walks state inner (by rw [FlowRun.exec]) (by rw [FlowRun.exec])
  | breakStmt =>
    have inner : c.walks c.Leaves (pure ⟨none, some s, none⟩) (pure ⟨none, some s', none⟩) :=
      h.answer ⟨.none, .some state, .none⟩
    exact h.exec_of_walks state inner (by rw [FlowRun.exec]) (by rw [FlowRun.exec])
  | continueStmt =>
    have inner : c.walks c.Leaves (pure ⟨none, none, some s⟩) (pure ⟨none, none, some s'⟩) :=
      h.answer ⟨.none, .none, .some state⟩
    exact h.exec_of_walks state inner (by rw [FlowRun.exec]) (by rw [FlowRun.exec])
  | method head body =>
    have inner := h.answer (leaves_falls (Option.Rel.some state))
    exact h.exec_of_walks state inner (by rw [FlowRun.exec]) (by rw [FlowRun.exec])
  | cls head body =>
    have inner := h.answer (leaves_falls (Option.Rel.some state))
    exact h.exec_of_walks state inner (by rw [FlowRun.exec]) (by rw [FlowRun.exec])

/-- The walks of every statement and every block are related. -/
theorem walked (n : Node) (above : List Node) (depth : Nat) (admits : c.Admits above n) :
    c.Walked above depth n := by
  induction n using Node.inductionOn generalizing above depth with
  | step n ih =>
    cases n with
    | stmt stmt =>
      exact h.exec_of_children admits fun open_ m mem => ih m mem _ _ (admits.child open_ mem)
    | block block =>
      intro s s' state
      have parts : ∀ stmt ∈ block.stmts, c.Walked (.block block :: above) depth (.stmt stmt) :=
        fun stmt hs => ih (.stmt stmt) (List.mem_map_of_mem hs) _ _
          (admits.child rfl (List.mem_map_of_mem hs))
      obtain ⟨id, isStatic, stmts⟩ := block
      rw [FlowRun.execBlock, FlowRun.execBlock]
      exact h.execAll depth stmts parts state
    | _ => trivial

end Sound

end Comparison

end JavaMend
