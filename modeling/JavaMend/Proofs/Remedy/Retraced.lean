import JavaMend.Proofs.Flow.Passing
import JavaMend.Proofs.Remedy.Redirected

/-!
# Following a value past a redirected call

A call hands on none of the value that is followed: neither its receiver nor its arguments
make its result the same value. So where one call is made on another variable, a walk that
follows a value goes as before, with the same locals live at every place. What it offers on
the way differs at the receiver of the call only, and that is no argument of a call
(`Retracing.Sound.walked`). Therefore the sinks of a query are those at the same places
(`FlowQuery.sinks_redirected`).
-/

namespace JavaMend

/-! ## Places -/

/-- The other variable is as local as the first. -/
theorem Expr.localName?_renamed {name variable_ : String} (e : Expr)
    (isLocal : e.unparen.localName? = some variable_) :
    (e.renamed name).unparen.localName? = some name := by
  fun_induction Expr.unparen e with
  | case1 id ty inner ih =>
    rw [Expr.renamed, Expr.unparen]
    exact ih isLocal
  | case2 e other =>
    obtain ⟨id, ty, form⟩ := e
    cases form with
    | ident _ owner =>
      cases owner with
      | none => rfl
      | some => cases isLocal
    | parens => exact (other _ _ _ rfl).elim
    | _ => cases isLocal

namespace Node.Redirected

variable {call : NodeId} {name : String} {n out : Node}

/-- The call on another variable looks the same from outside, and so does all else. -/
theorem label_id (h : Redirected call name n out) : out.label = n.label ∧ out.id = n.id := by
  cases h with
  | @here e _ _ onLocal =>
    obtain ⟨receiver, method, args, attribution, form, -⟩ := form_of_callsLocal onLocal
    obtain ⟨id, ty, _⟩ := e
    cases form
    exact ⟨rfl, rfl⟩
  | kept => exact ⟨rfl, rfl⟩
  | around _ _ same label => exact ⟨label, same⟩

theorem localName? {e e' : Expr} (h : Redirected call name (.expr e) (.expr e')) :
    e'.localName? = e.localName? := by
  refine h.reading (fun _ => rfl) (fun _ _ _ _ _ => rfl) fun related => ?_
  cases related <;> rfl

theorem isNested (h : Redirected call name n out) : out.isNested = n.isNested := by
  unfold Node.isNested
  rw [Node.kind_eq, Node.kind_eq n, h.label_id.1]

end Node.Redirected

/-- The same place in a tree in which a call is made on another variable. -/
def Path.Redirected (call : NodeId) (name : String) (p p' : Path) : Prop :=
  List.Forall₂ (Node.Redirected call name) p.outward p'.outward

/-- The path ends at the receiver of a call, or at one in parentheses. -/
def Path.IsReceiverOf (p : Path) (c : Expr) : Prop :=
  ∃ operand, p.callWithOperand? = some (c, operand) ∧ c.receiver? = some operand

/-- A variable in parentheses is an operand of what the parentheses are an operand of. -/
theorem Expr.callWithOperand?_of_variable (e : Expr) (variable_ : e.unparen.localName?.isSome)
    (above : List Node) {o : Occurrence} (mem : o ∈ (Node.expr e).occurrences above) :
    o.path.callWithOperand? = callAround? e above := by
  fun_induction Expr.unparen e generalizing above with
  | case1 id ty inner ih =>
    rw [Node.occurrences_eq] at mem
    rcases List.mem_append.mp mem with own | below
    · cases List.mem_singleton.mp own
      rfl
    · obtain ⟨c, child, inside⟩ := List.mem_flatMap.mp below
      cases List.mem_singleton.mp child
      exact ih variable_ _ inside
  | case2 e other =>
    obtain ⟨id, ty, form⟩ := e
    cases form with
    | ident =>
      rw [Node.occurrences_eq] at mem
      rcases List.mem_append.mp mem with own | below
      · cases List.mem_singleton.mp own
        rfl
      · cases below
    | parens => exact (other _ _ _ rfl).elim
    | _ => cases variable_

/-! ## Two runs -/

/-- A run that follows a value itself, past all conditions and to all sinks. -/
structure FlowRun.Plain (run : FlowRun) : Prop where
  value : run.spec.kind = .value
  unguarded : run.spec.sanitizes = none
  whole : run.stopAtFirst = false

theorem FlowRun.Plain.isTaint {run : FlowRun} (h : run.Plain) : run.isTaint = false := by
  unfold FlowRun.isTaint
  rw [h.value]
  rfl

/-- No condition makes a difference. -/
theorem FlowRun.Plain.assume {run : FlowRun} (h : run.Plain) (above : List Node) (branch : Bool)
    (e : Expr) (s : FlowState) : run.assume above branch e s = pure s := by
  have atom (here : List Node) (e : Expr) (branch : Bool) (s : FlowState) :
      run.assumeAtom here e branch s = pure s := by
    unfold FlowRun.assumeAtom
    rw [h.unguarded]
  fun_induction FlowRun.assume run above branch e s with
  | case1 above branch s here id ty inner ih => exact ih
  | case2 above branch s here id ty operand ih => exact ih
  | case3 above branch s here id ty op left right both ihLeft ihRight =>
    rw [ihLeft, pure_bind]
    exact ihRight s
  | case4 => exact atom ..
  | case5 => exact atom ..

/-- Two runs, one over a tree and one over the tree in which a call is made on another
variable, with the expressions that each may offer. -/
structure Retracing where
  call : NodeId
  name : String
  left : FlowRun
  right : FlowRun
  nodes : List Occurrence
  nodes' : List Occurrence

namespace Retracing

variable {α β γ δ : Type}

/-- Both runs ask the same, and the receiver of the call is no sink for them. -/
structure Sound (w : Retracing) : Prop where
  plain : w.left.Plain
  plain' : w.right.Plain
  limits : w.right.limits = w.left.limits
  source : w.right.source.id = w.left.source.id
  sinks : ∀ o o', o.path.Redirected w.call w.name o'.path →
    w.right.spec.isSink o' = w.left.spec.isSink o
  receivers : ∀ c ∈ w.nodes, ∀ o : Occurrence, o.path.IsReceiverOf c.expr → w.left.spec.isSink o = false
  receivers' : ∀ c ∈ w.nodes', ∀ o : Occurrence, o.path.IsReceiverOf c.expr → w.right.spec.isSink o = false

/-- What two walks offer: sinks at the same places. -/
structure Logs (w : Retracing) (log log' : List Occurrence) : Prop where
  inside : log ⊆ w.nodes
  inside' : log' ⊆ w.nodes'
  onto : ∀ o ∈ log, w.left.spec.isSink o = true →
    ∃ o' ∈ log', o.path.Redirected w.call w.name o'.path
  back : ∀ o' ∈ log', w.right.spec.isSink o' = true →
    ∃ o ∈ log, o.path.Redirected w.call w.name o'.path

/-- The walks have related answers, and offer sinks at the same places. -/
def Agrees (w : Retracing) (rel : α → β → Prop) (walk : FlowM α) (walk' : FlowM β) : Prop :=
  ∃ a b log log', w.left.Yields walk a log ∧ w.right.Yields walk' b log' ∧ rel a b ∧ w.Logs log log'

/-- What became of a node, at the same place. -/
structure Beside (w : Retracing) (above above' : List Node) (n n' : Node) : Prop where
  became : Node.Redirected w.call w.name n n'
  around : List.Forall₂ (Node.Redirected w.call w.name) above above'
  inside : n.occurrences above ⊆ w.nodes
  inside' : n'.occurrences above' ⊆ w.nodes'

variable {w : Retracing} {above above' : List Node} {n n' : Node} {e e' : Expr} {s : FlowState}
  {depth : Nat}

theorem logs_nil : w.Logs [] [] :=
  ⟨List.nil_subset _, List.nil_subset _, fun _ none => (List.not_mem_nil none).elim,
    fun _ none => (List.not_mem_nil none).elim⟩

theorem Logs.append {log log' more more' : List Occurrence} (h : w.Logs log log')
    (h' : w.Logs more more') : w.Logs (log ++ more) (log' ++ more') where
  inside := List.append_subset.mpr ⟨h.inside, h'.inside⟩
  inside' := List.append_subset.mpr ⟨h.inside', h'.inside'⟩
  onto o mem sink := by
    rcases List.mem_append.mp mem with mem | mem
    · obtain ⟨o', mem', same⟩ := h.onto o mem sink
      exact ⟨o', List.mem_append_left _ mem', same⟩
    · obtain ⟨o', mem', same⟩ := h'.onto o mem sink
      exact ⟨o', List.mem_append_right _ mem', same⟩
  back o mem sink := by
    rcases List.mem_append.mp mem with mem | mem
    · obtain ⟨o', mem', same⟩ := h.back o mem sink
      exact ⟨o', List.mem_append_left _ mem', same⟩
    · obtain ⟨o', mem', same⟩ := h'.back o mem sink
      exact ⟨o', List.mem_append_right _ mem', same⟩

theorem agrees_pure {rel : α → β → Prop} {a : α} {b : β} (related : rel a b) :
    w.Agrees rel (pure a) (pure b) :=
  ⟨a, b, [], [], FlowRun.yields_pure a, FlowRun.yields_pure b, related, logs_nil⟩

theorem agrees_answer (a : α) : w.Agrees Eq (pure a : FlowM α) (pure a) := agrees_pure rfl

theorem Agrees.bind {rel : α → β → Prop} {rel' : γ → δ → Prop} {walk : FlowM α} {walk' : FlowM β}
    {next : α → FlowM γ} {next' : β → FlowM δ} (first : w.Agrees rel walk walk')
    (more : ∀ a b, rel a b → w.Agrees rel' (next a) (next' b)) :
    w.Agrees rel' (walk >>= next) (walk' >>= next') := by
  obtain ⟨a, b, log, log', yields, yields', related, logs⟩ := first
  obtain ⟨c, d, rest, rest', yields₂, yields₂', related', logs'⟩ := more a b related
  exact ⟨c, d, log ++ rest, log' ++ rest', yields.bind yields₂, yields'.bind yields₂', related',
    logs.append logs'⟩

/-- Walks of one answer go on from it. -/
theorem Agrees.andThen {rel : γ → δ → Prop} {walk walk' : FlowM α} {next : α → FlowM γ}
    {next' : α → FlowM δ} (first : w.Agrees Eq walk walk') (more : ∀ a, w.Agrees rel (next a) (next' a)) :
    w.Agrees rel (walk >>= next) (walk' >>= next') :=
  first.bind fun a _ same => same ▸ more a

/-! ## Parts -/

/-- The children of what became of a node, one by one. -/
theorem Beside.children (h : w.Beside above above' n n') (open_ : n.isNested = false)
    (other : n.id ≠ w.call ∨ n.expr? = none) :
    n'.label = n.label ∧ List.Forall₂ (w.Beside (n :: above) (n' :: above')) n.children n'.children := by
  obtain ⟨-, label, children⟩ := h.became.children other
  refine ⟨label, ?_⟩
  have open_' : n'.isNested = false := h.became.isNested ▸ open_
  rw [List.forall₂_iff_zip] at children ⊢
  refine ⟨children.1, fun {c c'} pair => ⟨children.2 pair, .cons h.became h.around, ?_, ?_⟩⟩
  · exact fun o mem => h.inside (Node.mem_occurrences_of_child open_ (List.of_mem_zip pair).1 mem)
  · exact fun o mem => h.inside' (Node.mem_occurrences_of_child open_' (List.of_mem_zip pair).2 mem)

/-- What became of an expression: the same form, or the call on another variable. -/
theorem Beside.form {related : Expr → Expr → Prop} (h : w.Beside above above' (.expr e) (.expr e'))
    (parts : ∀ c ∈ e.children, ∀ c', w.Beside (.expr e :: above) (.expr e' :: above') (.expr c) (.expr c') →
      related c c') :
    (e'.ty = e.ty ∧ ExprForm.Related related e.form e'.form) ∨
    ∃ receiver receiver' method args attribution,
      e.form = .call (some receiver) method args attribution ∧
      e'.form = .call (some receiver') method args attribution ∧
      receiver.unparen.localName?.isSome ∧ receiver'.unparen.localName?.isSome ∧
      ∀ c ∈ args, related c c := by
  by_cases at_ : e.id = w.call
  · refine .inr ?_
    have around := List.Forall₂.cons h.became h.around
    cases h.became with
    | here _ onLocal once =>
      obtain ⟨receiver, method, args, attribution, form, isLocal⟩ :=
        Node.Redirected.form_of_callsLocal onLocal
      have form' : (e.redirected w.name).form =
          .call (some (receiver.renamed w.name)) method args attribution := by
        unfold Expr.redirected
        rw [form]
      have child {e : Expr} {receiver : Expr} (form : e.form = .call (some receiver) method args attribution)
          {c : Expr} (mem : c ∈ args) : c ∈ e.children := by
        unfold Expr.children
        rw [form]
        exact List.mem_cons_of_mem _ mem
      refine ⟨receiver, _, method, args, attribution, form, form', by rw [isLocal]; rfl,
        by rw [Expr.localName?_renamed receiver isLocal]; rfl, fun c mem => ?_⟩
      have below : Node.expr c ∈ (Node.expr e).children := List.mem_map_of_mem (child form mem)
      have below' : Node.expr c ∈ (Node.expr (e.redirected w.name)).children :=
        List.mem_map_of_mem (child form' mem)
      refine parts c (child form mem) c ⟨.kept (once _ below), around, ?_, ?_⟩
      · exact fun o inside => h.inside (Node.mem_occurrences_of_child rfl below inside)
      · exact fun o inside => h.inside' (Node.mem_occurrences_of_child rfl below' inside)
    | kept apart => exact (apart _ Node.mem_subtree_self at_).elim
    | around other => exact (other at_).elim
  · obtain ⟨label, children⟩ := h.children rfl (.inl at_)
    obtain ⟨ty, form⟩ := Node.Label.expr.inj label
    change List.Forall₂ _ (e.children.map Node.expr) (e'.children.map Node.expr) at children
    rw [List.forall₂_map_left_iff, List.forall₂_map_right_iff, List.forall₂_iff_zip] at children
    refine .inl ⟨ty, ExprForm.related_iff.mpr ⟨form, List.forall₂_iff_zip.mpr ⟨children.1, ?_⟩⟩⟩
    exact fun {c c'} pair => parts c (List.of_mem_zip pair).1 c' (children.2 pair)

/-! ## Expressions -/

/-- Two answers with the same state. -/
def SameState (r r' : Bool × FlowState) : Prop := r.2 = r'.2

theorem evalAny {es es' : List Expr} (parts : List.Forall₂ (fun e e' => ∀ s,
      w.Agrees Eq (w.left.eval above e s) (w.right.eval above' e' s)) es es') (s : FlowState) :
    w.Agrees Eq (w.left.evalAny above es s) (w.right.evalAny above' es' s) := by
  induction parts generalizing s with
  | nil =>
    rw [FlowRun.evalAny, FlowRun.evalAny]
    exact agrees_pure rfl
  | cons first _ ih =>
    rw [FlowRun.evalAny, FlowRun.evalAny]
    exact (first s).andThen fun r => (ih r.2).andThen fun q => agrees_pure rfl

/-- What is offered around the walk of an expression's parts: at most the expression. -/
theorem yields_settle {run : FlowRun} (whole : run.stopAtFirst = false) {above : List Node}
    {walk : FlowM (Bool × FlowState)} {value : Bool} {log : List Occurrence}
    (yields : run.Yields walk (value, s) log) (inside : log ⊆ (Node.expr e).occurrences above) :
    ∃ value log, run.Yields (run.settle (.expr e :: above) e s walk) (value, s) log ∧
      log ⊆ (Node.expr e).occurrences above := by
  rw [FlowRun.settle_eq]
  cases carried : value || e.same run.source with
  | true =>
    refine ⟨true, log ++ [⟨e, ⟨.expr e :: above⟩⟩], ?_, List.append_subset.mpr ⟨inside, ?_⟩⟩
    · refine (FlowRun.yields_isDone whole).bind_silent (yields.bind ?_)
      rw [carried, ← List.append_nil [_]]
      exact (FlowRun.yields_offer _ e).bind (FlowRun.yields_pure _)
    · intro o mem
      cases List.mem_singleton.mp mem
      exact Node.mem_occurrences_self
  | false =>
    refine ⟨false, log, ?_, inside⟩
    refine (FlowRun.yields_isDone whole).bind_silent ?_
    rw [← List.append_nil log]
    refine yields.bind ?_
    rw [carried]
    exact (FlowRun.yields_pure _).bind_silent (FlowRun.yields_pure _)

/-- A variable in parentheses is read, and no more is offered than that. -/
theorem yields_variable {run : FlowRun} (whole : run.stopAtFirst = false) (e : Expr)
    (variable_ : e.unparen.localName?.isSome) (above : List Node) (s : FlowState) :
    ∃ value log, run.Yields (run.eval above e s) (value, s) log ∧ log ⊆ (Node.expr e).occurrences above := by
  fun_induction Expr.unparen e generalizing above with
  | case1 id ty inner ih =>
    obtain ⟨value, log, yields, inside⟩ := ih variable_ (.expr ⟨id, ty, .parens inner⟩ :: above)
    have below : log ⊆ (Node.expr ⟨id, ty, .parens inner⟩).occurrences above := fun o mem =>
      Node.mem_occurrences_of_child rfl List.mem_cons_self (inside mem)
    rw [FlowRun.eval]
    exact yields_settle whole yields below
  | case2 e other =>
    obtain ⟨id, ty, form⟩ := e
    cases form with
    | ident _ owner =>
      cases owner with
      | none =>
        rw [FlowRun.eval]
        exact yields_settle whole (FlowRun.yields_pure _) (List.nil_subset _)
      | some => cases variable_
    | parens => exact (other _ _ _ rfl).elim
    | _ => cases variable_

/-- Both runs offer an expression, or neither does. -/
theorem announce (beside : w.Beside above above' (.expr e) (.expr e')) (carried : Bool) :
    w.Agrees Eq (w.left.announce (.expr e :: above) e carried)
      (w.right.announce (.expr e' :: above') e' carried) := by
  have place : Path.Redirected w.call w.name ⟨.expr e :: above⟩ ⟨.expr e' :: above'⟩ :=
    .cons beside.became beside.around
  unfold FlowRun.announce
  split
  · refine ⟨(), (), _, _, FlowRun.yields_offer _ e, FlowRun.yields_offer _ e', rfl, ?_⟩
    refine ⟨fun o mem => ?_, fun o mem => ?_, fun o mem _ => ?_, fun o mem _ => ?_⟩
    · cases List.mem_singleton.mp mem
      exact beside.inside Node.mem_occurrences_self
    · cases List.mem_singleton.mp mem
      exact beside.inside' Node.mem_occurrences_self
    · cases List.mem_singleton.mp mem
      exact ⟨_, List.mem_cons_self, place⟩
    · cases List.mem_singleton.mp mem
      exact ⟨_, List.mem_cons_self, place⟩
  · exact agrees_pure rfl

namespace Sound

variable (h : w.Sound)

include h

theorem isDone : w.Agrees Eq w.left.isDone w.right.isDone :=
  ⟨false, false, [], [], FlowRun.yields_isDone h.plain.whole, FlowRun.yields_isDone h.plain'.whole, rfl,
    logs_nil⟩

theorem same_source (became : Node.Redirected w.call w.name (.expr e) (.expr e')) :
    e'.same w.right.source = e.same w.left.source := by
  have ids : e'.id = e.id := became.label_id.2
  unfold Expr.same
  rw [ids, h.source]

/-- The evaluation of an expression around that of its parts. -/
theorem settle (beside : w.Beside above above' (.expr e) (.expr e')) {walk walk' : FlowM (Bool × FlowState)}
    (inner : w.Agrees Eq walk walk') :
    w.Agrees Eq (w.left.settle (.expr e :: above) e s walk)
      (w.right.settle (.expr e' :: above') e' s walk') := by
  rw [FlowRun.settle_eq, FlowRun.settle_eq, h.same_source beside.became]
  refine h.isDone.andThen fun done => ?_
  split
  · exact agrees_pure rfl
  · exact inner.andThen fun r => (announce beside _).andThen fun _ => agrees_pure rfl

/-- The receivers of the call may carry the value in one run and not in the other. They are no
sinks, and change nothing. -/
theorem receiver (beside : w.Beside above above' (.expr e) (.expr e')) {receiver receiver' : Expr}
    {method : String} {args : List Expr} {attribution : Option MethodRef}
    (form : e.form = .call (some receiver) method args attribution)
    (form' : e'.form = .call (some receiver') method args attribution)
    (variable_ : receiver.unparen.localName?.isSome) (variable_' : receiver'.unparen.localName?.isSome)
    (s : FlowState) :
    w.Agrees SameState (w.left.eval (.expr e :: above) receiver s)
      (w.right.eval (.expr e' :: above') receiver' s) := by
  obtain ⟨value, log, yields, among⟩ := yields_variable h.plain.whole receiver variable_ (.expr e :: above) s
  obtain ⟨value', log', yields', among'⟩ :=
    yields_variable h.plain'.whole receiver' variable_' (.expr e' :: above') s
  have below {e receiver : Expr} (form : e.form = .call (some receiver) method args attribution) :
      Node.expr receiver ∈ (Node.expr e).children := by
    refine List.mem_map_of_mem ?_
    unfold Expr.children
    rw [form]
    exact List.mem_cons_self
  have isReceiver {e receiver : Expr} {above : List Node} {o : Occurrence}
      (form : e.form = .call (some receiver) method args attribution)
      (variable_ : receiver.unparen.localName?.isSome)
      (mem : o ∈ (Node.expr receiver).occurrences (.expr e :: above)) : o.path.IsReceiverOf e := by
    refine ⟨receiver, ?_, ?_⟩
    · rw [Expr.callWithOperand?_of_variable receiver variable_ _ mem, callAround?, form]
    · unfold Expr.receiver?
      rw [form]
  have inside : log ⊆ w.nodes := fun o mem =>
    beside.inside (Node.mem_occurrences_of_child rfl (below form) (among mem))
  have inside' : log' ⊆ w.nodes' := fun o mem =>
    beside.inside' (Node.mem_occurrences_of_child rfl (below form') (among' mem))
  refine ⟨_, _, log, log', yields, yields', rfl, inside, inside', fun o mem sink => ?_, fun o mem sink => ?_⟩
  · rw [h.receivers _ (beside.inside Node.mem_occurrences_self) o (isReceiver form variable_ (among mem))]
      at sink
    cases sink
  · rw [h.receivers' _ (beside.inside' Node.mem_occurrences_self) o
      (isReceiver form' variable_' (among' mem))] at sink
    cases sink

/-- A call hands on nothing, whatever its receivers carry. -/
theorem call_of_parts (beside : w.Beside above above' (.expr e) (.expr e')) {receiver receiver' : Expr}
    {method : String} {args args' : List Expr} {attribution : Option MethodRef}
    (form : e.form = .call (some receiver) method args attribution)
    (form' : e'.form = .call (some receiver') method args' attribution)
    (first : w.Agrees SameState (w.left.eval (.expr e :: above) receiver s)
      (w.right.eval (.expr e' :: above') receiver' s))
    (rest : List.Forall₂ (fun c c' => ∀ s, w.Agrees Eq (w.left.eval (.expr e :: above) c s)
      (w.right.eval (.expr e' :: above') c' s)) args args') :
    w.Agrees Eq (w.left.eval above e s) (w.right.eval above' e' s) := by
  have inner : w.Agrees Eq
      (w.left.eval (.expr e :: above) receiver s >>= fun r =>
        w.left.evalAny (.expr e :: above) args r.2 >>= fun q => pure (w.left.isTaint && (r.1 || q.1), q.2))
      (w.right.eval (.expr e' :: above') receiver' s >>= fun r =>
        w.right.evalAny (.expr e' :: above') args' r.2 >>= fun q =>
          pure (w.right.isTaint && (r.1 || q.1), q.2)) := by
    refine first.bind fun r r' same => ?_
    obtain ⟨value, s⟩ := r
    obtain ⟨value', s'⟩ := r'
    cases same
    refine (evalAny rest s).andThen fun q => ?_
    rw [h.plain.isTaint, h.plain'.isTaint]
    exact agrees_answer (false, q.2)
  have settled := h.settle (s := s) beside inner
  obtain ⟨id, ty, _⟩ := e
  obtain ⟨id', ty', _⟩ := e'
  cases form
  cases form'
  rw [FlowRun.eval, FlowRun.eval]
  exact settled

/-- The walks of an expression agree if those of its parts do. -/
theorem eval_of_children (beside : w.Beside above above' (.expr e) (.expr e'))
    (parts : ∀ c ∈ e.children, ∀ c', w.Beside (.expr e :: above) (.expr e' :: above') (.expr c) (.expr c') →
      ∀ s, w.Agrees Eq (w.left.eval (.expr e :: above) c s) (w.right.eval (.expr e' :: above') c' s))
    (s : FlowState) : w.Agrees Eq (w.left.eval above e s) (w.right.eval above' e' s) := by
  -- Around the parts, both expressions are walked alike.
  have around {walk walk'} (eq : w.left.eval above e s = w.left.settle (.expr e :: above) e s walk)
      (eq' : w.right.eval above' e' s = w.right.settle (.expr e' :: above') e' s walk')
      (inner : w.Agrees Eq walk walk') : w.Agrees Eq (w.left.eval above e s) (w.right.eval above' e' s) :=
    eq ▸ eq' ▸ h.settle beside inner
  have both : ∀ c ∈ e.children, ∀ c', w.Beside (.expr e :: above) (.expr e' :: above') (.expr c) (.expr c') →
      c'.localName? = c.localName? ∧ ∀ s, w.Agrees Eq (w.left.eval (.expr e :: above) c s)
        (w.right.eval (.expr e' :: above') c' s) := fun c mem c' below =>
    ⟨below.became.localName?, parts c mem c' below⟩
  rcases beside.form both with ⟨types, related⟩ | ⟨receiver, receiver', method, args, attribution, form,
    form', variable_, variable_', same⟩
  · obtain ⟨id, ty, form⟩ := e
    obtain ⟨id', ty', form'⟩ := e'
    cases types
    have masked : w.right.isTaint = w.left.isTaint := h.plain'.isTaint.trans h.plain.isTaint.symm
    cases related with
    | ident name owner =>
      cases owner with
      | none => exact around (by rw [FlowRun.eval]; rfl) (by rw [FlowRun.eval]; rfl) (agrees_pure rfl)
      | some => exact around (by rw [FlowRun.eval]; rfl) (by rw [FlowRun.eval]; rfl) (agrees_pure rfl)
    | literal => exact around (by rw [FlowRun.eval]; rfl) (by rw [FlowRun.eval]; rfl) (agrees_pure rfl)
    | field name target =>
      have inner := (target.2 s).andThen fun r => agrees_answer (w.left.isTaint && r.1, r.2)
      exact around (by rw [FlowRun.eval]; rfl) (by rw [FlowRun.eval, masked]; rfl) inner
    | call name method receivers args =>
      have args := args.imp fun _ _ h => h.2
      cases receivers with
      | none =>
        have inner := (evalAny args s).andThen fun r => agrees_answer (w.left.isTaint && r.1, r.2)
        exact around (by rw [FlowRun.eval]; rfl) (by rw [FlowRun.eval, masked]; rfl) inner
      | some first =>
        refine h.call_of_parts beside rfl rfl ?_ args
        obtain ⟨r, r', log, log', yields, yields', same, logs⟩ := first.2 s
        exact ⟨r, r', log, log', yields, yields', congrArg Prod.snd same, logs⟩
    | create className method args =>
      have args := args.imp fun _ _ h => h.2
      have inner := (evalAny args s).andThen fun r => agrees_answer (w.left.isTaint && r.1, r.2)
      exact around (by rw [FlowRun.eval]; rfl) (by rw [FlowRun.eval, masked]; rfl) inner
    | array element size =>
      have inner := (size.2 s).andThen fun r => agrees_answer (false, r.2)
      exact around (by rw [FlowRun.eval]; rfl) (by rw [FlowRun.eval]; rfl) inner
    | binary op first second =>
      have inner := (first.2 s).andThen fun r => (second.2 r.2).andThen fun q =>
        agrees_answer (w.left.isTaint && op == .add && ty.isString && (r.1 || q.1), q.2)
      exact around (by rw [FlowRun.eval]; rfl) (by rw [FlowRun.eval, masked]; rfl) inner
    | unary op operand =>
      have inner := (operand.2 s).andThen fun r => agrees_answer (false, r.2)
      exact around (by rw [FlowRun.eval]; rfl) (by rw [FlowRun.eval]; rfl) inner
    | @assign target value target' value' op written assigned =>
      cases local_ : target.localName? with
      | none =>
        have inner := (written.2 s).andThen fun r => assigned.2 r.2
        refine around ?_ ?_ inner
        · rw [FlowRun.eval]; simp only [local_]; rfl
        · rw [FlowRun.eval]; simp only [written.1, local_]; rfl
      | some name =>
        cases op with
        | none =>
          have inner := (assigned.2 s).andThen fun r => agrees_answer (r.1, r.2.assign name r.1)
          refine around ?_ ?_ inner
          · rw [FlowRun.eval]; simp only [local_]; rfl
          · rw [FlowRun.eval]; simp only [written.1, local_]; rfl
        | some op =>
          have inner := (assigned.2 s).andThen fun r =>
            agrees_answer (w.left.isTaint && (s.isLive name || r.1),
              r.2.assign name (w.left.isTaint && (s.isLive name || r.1)))
          refine around ?_ ?_ inner
          · rw [FlowRun.eval]; simp only [local_]; rfl
          · rw [FlowRun.eval]; simp only [written.1, local_, masked]; rfl
    | parens inner => exact around (by rw [FlowRun.eval]; rfl) (by rw [FlowRun.eval]; rfl) (inner.2 s)
    | cast typeName operand =>
      exact around (by rw [FlowRun.eval]; rfl) (by rw [FlowRun.eval]; rfl) (operand.2 s)
    | ternary condition onTrue onFalse =>
      have inner := (condition.2 s).andThen fun r => (onTrue.2 r.2).andThen fun yes =>
        (onFalse.2 r.2).andThen fun no => agrees_answer (yes.1 || no.1, yes.2.join no.2)
      refine around ?_ ?_ inner
      · rw [FlowRun.eval]
        simp only [h.plain.assume, pure_bind]
        rfl
      · rw [FlowRun.eval]
        simp only [h.plain'.assume, pure_bind]
        rfl
  · have rest : List.Forall₂ (fun c c' => ∀ s, w.Agrees Eq (w.left.eval (.expr e :: above) c s)
        (w.right.eval (.expr e' :: above') c' s)) args args :=
      List.forall₂_same.mpr fun c mem => (same c mem).2
    exact h.call_of_parts beside form form' (h.receiver beside form form' variable_ variable_' s) rest

/-- The walks of an expression agree from every state. -/
theorem eval (e : Expr) {e' : Expr} (above above' : List Node)
    (beside : w.Beside above above' (.expr e) (.expr e')) (s : FlowState) :
    w.Agrees Eq (w.left.eval above e s) (w.right.eval above' e' s) :=
  h.eval_of_children beside (fun c _child _ below s => eval c _ _ below s) s
termination_by sizeOf e
decreasing_by exact Expr.sizeOf_lt_of_mem_children _child

/-! ## Statements -/

/-- What became of a variable: one of its name, with what became of its initializer. -/
theorem variable_ {v v' : Variable} (beside : w.Beside above above' (.var v) (.var v')) :
    v'.name = v.name ∧ Option.Rel (fun c c' => ∀ s, w.Agrees Eq (w.left.eval (.var v :: above) c s)
      (w.right.eval (.var v' :: above') c' s)) v.init v'.init := by
  obtain ⟨label, children⟩ := beside.children rfl (.inr rfl)
  refine ⟨(Node.Label.var.inj label).1, ?_⟩
  have inits := optionRel_of_forall₂ (f := Node.expr) (g := Node.expr) children
  generalize v.init = init at inits
  generalize v'.init = init' at inits
  cases inits with
  | none => exact .none
  | some below => exact .some fun s => h.eval _ _ _ below s

theorem declare {vars vars' : List Variable}
    (each : List.Forall₂ (fun v v' => w.Beside above above' (.var v) (.var v')) vars vars')
    (s : FlowState) :
    w.Agrees Eq (w.left.declare above vars s) (w.right.declare above' vars' s) := by
  induction each generalizing s with
  | nil =>
    rw [FlowRun.declare, FlowRun.declare]
    exact agrees_answer s
  | @cons v v' _ _ beside _ ih =>
    obtain ⟨name, inits⟩ := h.variable_ beside
    rw [FlowRun.declare, FlowRun.declare, name]
    generalize v.init = init at inits
    generalize v'.init = init' at inits
    cases inits with
    | none => exact ih _
    | some walks => exact (walks s).andThen fun r => ih _

end Sound

/-- The walks of what became of a node of a body agree with those of the node. -/
def Walked (w : Retracing) (above above' : List Node) (depth : Nat) : Node → Node → Prop
  | .stmt stmt, .stmt stmt' => ∀ s,
      w.Agrees Eq (w.left.exec above depth stmt s) (w.right.exec above' depth stmt' s)
  | .block block, .block block' => ∀ s,
      w.Agrees Eq (w.left.execBlock above depth block s) (w.right.execBlock above' depth block' s)
  | _, _ => True

/-- What follows a statement is walked from where control falls through it. -/
theorem continue_ (first : Exits) {next next' : FlowState → FlowM Exits}
    (more : ∀ s, w.Agrees Eq (next s) (next' s)) :
    w.Agrees Eq
      (match first.normal with
        | none => pure first
        | some s => next s >>= fun exits => pure (first.after exits))
      (match first.normal with
        | none => pure first
        | some s => next' s >>= fun exits => pure (first.after exits)) := by
  cases first.normal with
  | none => exact agrees_answer first
  | some s => exact (more s).andThen fun exits => agrees_answer (first.after exits)

theorem itemRound {body body' : FlowState → FlowM Exits} (item : String) (carried : Bool)
    (bodies : ∀ s, w.Agrees Eq (body s) (body' s)) (head : FlowState) (exit : Option FlowState) :
    w.Agrees Eq (FlowRun.itemRound item carried body head exit)
      (FlowRun.itemRound item carried body' head exit) := by
  unfold FlowRun.itemRound
  exact (bodies _).andThen fun exits => agrees_answer _

theorem execCatches {clauses clauses' : List (CatchClause Variable Block)}
    (handlers : List.Forall₂ (fun c c' : CatchClause Variable Block =>
      c'.parameter.name = c.parameter.name ∧ ∀ s, w.Agrees Eq (w.left.execBlock above depth c.body s)
        (w.right.execBlock above' depth c'.body s)) clauses clauses') (s : FlowState) (out : Exits) :
    w.Agrees Eq (w.left.execCatches above depth clauses s out)
      (w.right.execCatches above' depth clauses' s out) := by
  induction handlers generalizing out with
  | nil =>
    rw [FlowRun.execCatches, FlowRun.execCatches]
    exact agrees_answer out
  | @cons c c' _ _ first _ ih =>
    obtain ⟨typeNames, types, parameter, body⟩ := c
    obtain ⟨typeNames', types', parameter', body'⟩ := c'
    obtain ⟨name, walks⟩ := first
    rw [FlowRun.execCatches, FlowRun.execCatches]
    change parameter'.name = parameter.name at name
    rw [name]
    exact (walks _).andThen fun caught => ih _

theorem execFinish {finish finish' : Option Block}
    (last : Option.Rel (fun b b' => ∀ s, w.Agrees Eq (w.left.execBlock above depth b s)
      (w.right.execBlock above' depth b' s)) finish finish') (s : FlowState) (out : Exits) :
    w.Agrees Eq (w.left.execFinish above depth finish s out)
      (w.right.execFinish above' depth finish' s out) := by
  cases last with
  | none =>
    rw [FlowRun.execFinish, FlowRun.execFinish]
    exact agrees_answer out
  | some walks =>
    rw [FlowRun.execFinish, FlowRun.execFinish]
    cases out.normal with
    | none => exact (walks s).andThen fun exits => agrees_answer _
    | some t => exact (walks t).andThen fun exits => agrees_answer _

namespace Sound

variable (h : w.Sound)

include h

theorem execAll {stmts stmts' : List Stmt}
    (parts : List.Forall₂ (fun stmt stmt' => ∀ s,
      w.Agrees Eq (w.left.exec above depth stmt s) (w.right.exec above' depth stmt' s)) stmts stmts')
    (s : FlowState) :
    w.Agrees Eq (w.left.execAll above depth stmts s) (w.right.execAll above' depth stmts' s) := by
  induction parts generalizing s with
  | nil =>
    rw [FlowRun.execAll, FlowRun.execAll]
    exact agrees_answer _
  | cons first _ ih =>
    rw [FlowRun.execAll, FlowRun.execAll]
    refine h.isDone.andThen fun done => ?_
    cases done with
    | true => exact agrees_answer _
    | false =>
      refine (first s).andThen fun exits => ?_
      obtain ⟨normal, breaks, continues⟩ := exits
      cases normal with
      | none => exact agrees_answer _
      | some s => exact (ih s).andThen fun q => agrees_answer _

/-- A loop whose rounds agree. -/
theorem iterate {round round' : FlowState → Option FlowState → FlowM (Option FlowState × Option FlowState)}
    (rounds : ∀ head exit, w.Agrees Eq (round head exit) (round' head exit)) (n : Nat) (head : FlowState)
    (exit : Option FlowState) :
    w.Agrees Eq (w.left.iterate round n head exit) (w.right.iterate round' n head exit) := by
  induction n generalizing head exit with
  | zero => exact agrees_answer exit
  | succ n ih =>
    rw [FlowRun.iterate_succ, FlowRun.iterate_succ]
    refine (rounds head exit).andThen fun r => h.isDone.andThen fun done => ?_
    split
    · exact agrees_answer r.1
    · exact ih _ _

theorem loopRound {here here' : List Node} {condition condition' : Option Expr}
    {update update' : List Expr} {body body' : FlowState → FlowM Exits}
    (guards : Option.Rel (fun e e' => ∀ s, w.Agrees Eq (w.left.eval here e s) (w.right.eval here' e' s))
      condition condition')
    (updates : List.Forall₂ (fun e e' => ∀ s,
      w.Agrees Eq (w.left.eval here e s) (w.right.eval here' e' s)) update update')
    (bodies : ∀ s, w.Agrees Eq (body s) (body' s)) (head : FlowState) (exit : Option FlowState) :
    w.Agrees Eq (w.left.loopRound here condition update body head exit)
      (w.right.loopRound here' condition' update' body' head exit) := by
  have enter : w.Agrees Eq (w.left.enterLoop here condition head exit)
      (w.right.enterLoop here' condition' head exit) := by
    cases guards with
    | none => exact agrees_answer (head, exit)
    | some walks =>
      unfold FlowRun.enterLoop
      simp only [h.plain.assume, h.plain'.assume, pure_bind]
      exact (walks head).andThen fun r => agrees_answer _
  unfold FlowRun.loopRound
  refine enter.andThen fun r => (bodies r.1).andThen fun exits => ?_
  cases FlowState.merge exits.normal exits.continues with
  | none => exact agrees_answer _
  | some back => exact (evalAny updates back).andThen fun q => agrees_answer _

/-- A statement that is not nested too deep. -/
theorem exec_of_walks {stmt stmt' : Stmt} {walk walk' : FlowM Exits} (inner : w.Agrees Eq walk walk')
    (eq : w.left.exec above depth stmt s = w.left.isDone >>= fun done =>
      if (done || decide (w.left.limits.maxDepth ≤ depth)) = true then pure (.falls (some s))
      else walk)
    (eq' : w.right.exec above' depth stmt' s = w.right.isDone >>= fun done =>
      if (done || decide (w.right.limits.maxDepth ≤ depth)) = true then pure (.falls (some s))
      else walk') :
    w.Agrees Eq (w.left.exec above depth stmt s) (w.right.exec above' depth stmt' s) := by
  rw [eq, eq', h.limits]
  refine h.isDone.andThen fun done => ?_
  split
  · exact agrees_answer _
  · exact inner

/-- The walks of a statement agree if those of the statements and blocks in it do. -/
theorem exec_of_children {stmt stmt' : Stmt} (beside : w.Beside above above' (.stmt stmt) (.stmt stmt'))
    (parts : (Node.stmt stmt).isNested = false → ∀ m ∈ stmt.children, ∀ m',
      w.Beside (.stmt stmt :: above) (.stmt stmt' :: above') m m' →
        w.Walked (.stmt stmt :: above) (.stmt stmt' :: above') (depth + 1) m m') :
    w.Walked above above' depth (.stmt stmt) (.stmt stmt') := by
  intro s
  cases open_ : (Node.stmt stmt).isNested with
  | true =>
    -- A method or a class is passed over.
    have passed {run : FlowRun} {above : List Node} {stmt : Stmt} (nested : (Node.stmt stmt).isNested = true) :
        run.exec above depth stmt s = run.isDone >>= fun done =>
          if (done || decide (run.limits.maxDepth ≤ depth)) = true then pure (.falls (some s))
          else pure (.falls (some s)) := by
      obtain ⟨id, form⟩ := stmt
      cases form <;> first | (cases nested; done) | (rw [FlowRun.exec])
    exact h.exec_of_walks (agrees_answer _) (passed open_) (passed (beside.became.isNested.trans open_))
  | false =>
    obtain ⟨label, children⟩ := beside.children open_ (.inr rfl)
    have below : List.Forall₂ (fun m m' => w.Beside (.stmt stmt :: above) (.stmt stmt' :: above') m m' ∧
        w.Walked (.stmt stmt :: above) (.stmt stmt' :: above') (depth + 1) m m')
        (Node.stmt stmt).children (Node.stmt stmt').children := by
      rw [List.forall₂_iff_zip] at children ⊢
      exact ⟨children.1, fun {m m'} pair =>
        ⟨children.2 pair, parts open_ m (List.of_mem_zip pair).1 m' (children.2 pair)⟩⟩
    have related := StmtForm.related_of_label label below
    have value {e e' : Expr} (both : w.Beside (.stmt stmt :: above) (.stmt stmt' :: above') (.expr e) (.expr e') ∧
        w.Walked (.stmt stmt :: above) (.stmt stmt' :: above') (depth + 1) (.expr e) (.expr e')) (s : FlowState) :
        w.Agrees Eq (w.left.eval (.stmt stmt :: above) e s) (w.right.eval (.stmt stmt' :: above') e' s) :=
      h.eval _ _ _ both.1 s
    have often : w.right.limits.maxLoopIterations = w.left.limits.maxLoopIterations := by rw [h.limits]
    obtain ⟨id, form⟩ := stmt
    obtain ⟨id', form'⟩ := stmt'
    cases related with
    | declare vars =>
      have inner := (h.declare (vars.imp fun _ _ both => both.1) s).andThen fun t =>
        agrees_answer (Exits.falls (some t))
      exact h.exec_of_walks inner (by rw [FlowRun.exec]) (by rw [FlowRun.exec])
    | expr e =>
      have inner := (value e s).andThen fun r => agrees_answer (Exits.falls (some r.2))
      exact h.exec_of_walks inner (by rw [FlowRun.exec]) (by rw [FlowRun.exec])
    | ifElse tested yes no =>
      cases no with
      | none =>
        have inner := (value tested s).andThen fun r => (yes.2 r.2).andThen fun exits =>
          agrees_answer (exits.after (.falls (FlowState.merge exits.normal (some r.2))))
        refine h.exec_of_walks inner ?_ ?_
        · rw [FlowRun.exec]
          simp only [h.plain.assume, pure_bind]
        · rw [FlowRun.exec]
          simp only [h.plain'.assume, pure_bind]
      | some no =>
        have inner := (value tested s).andThen fun r => (yes.2 r.2).andThen fun exits =>
          (no.2 r.2).andThen fun others => agrees_answer
            (exits.after { others with normal := FlowState.merge exits.normal others.normal })
        refine h.exec_of_walks inner ?_ ?_
        · rw [FlowRun.exec]
          simp only [h.plain.assume, pure_bind]
        · rw [FlowRun.exec]
          simp only [h.plain'.assume, pure_bind]
    | whileLoop tested inside =>
      have rounds := h.loopRound (.some (value tested)) .nil inside.2
      have inner := (h.iterate rounds w.left.limits.maxLoopIterations s none).andThen fun exit =>
        agrees_answer (Exits.falls exit)
      exact h.exec_of_walks inner (by rw [FlowRun.exec]) (by rw [FlowRun.exec, often])
    | forLoop starts tested updates inside =>
      have rounds := h.loopRound (optionRel_imp (fun _ _ => value) tested)
        (updates.imp fun _ _ => value) inside.2
      have inner := (h.execAll (starts.imp fun _ _ both => both.2) s).andThen fun first =>
        continue_ first fun t => (h.iterate rounds w.left.limits.maxLoopIterations t none).andThen
          fun exit => agrees_answer (.falls exit)
      exact h.exec_of_walks inner (by rw [FlowRun.exec]; rfl) (by rw [FlowRun.exec, often]; rfl)
    | @forEach typeName item item' _ _ _ _ items walked inside =>
      have name : item'.name = item.name := (h.variable_ items.1).1
      have inner := (value walked s).andThen fun r =>
        (h.iterate (itemRound item.name r.1 inside.2) w.left.limits.maxLoopIterations r.2 (some r.2)).andThen
          fun exit => agrees_answer (Exits.falls exit)
      refine h.exec_of_walks inner (by rw [FlowRun.exec]) ?_
      rw [FlowRun.exec, ← name, ← often]
    | tryCatch opened tried caught last =>
      have handlers := caught.imp fun _ _ both =>
        And.intro (h.variable_ both.1.1).1 both.2.2
      have inner := (h.declare (opened.imp fun _ _ both => both.1) s).andThen fun t =>
        (tried.2 t).andThen fun exits =>
          (execCatches handlers (t.joinBack exits.normal) exits).andThen fun out =>
            execFinish (optionRel_imp (fun _ _ both => both.2) last) (t.joinBack exits.normal) out
      exact h.exec_of_walks inner (by rw [FlowRun.exec]; rfl) (by rw [FlowRun.exec]; rfl)
    | block inside => exact h.exec_of_walks (inside.2 s) (by rw [FlowRun.exec]) (by rw [FlowRun.exec])
    | @returnStmt result result' related =>
      have values : List.Forall₂ (fun e e' => ∀ s,
          w.Agrees Eq (w.left.eval (.stmt ⟨id, .returnStmt result⟩ :: above) e s)
            (w.right.eval (.stmt ⟨id', .returnStmt result'⟩ :: above') e' s))
          result.toList result'.toList := by
        cases related with
        | none => exact .nil
        | some both => exact .cons (value both) .nil
      have inner := (evalAny values s).andThen fun _ => agrees_answer (Exits.falls none)
      exact h.exec_of_walks inner (by rw [FlowRun.exec]) (by rw [FlowRun.exec])
    | throwStmt thrown =>
      have inner := (value thrown s).andThen fun _ => agrees_answer (Exits.falls none)
      exact h.exec_of_walks inner (by rw [FlowRun.exec]) (by rw [FlowRun.exec])
    | breakStmt =>
      exact h.exec_of_walks (agrees_answer _) (by rw [FlowRun.exec]) (by rw [FlowRun.exec])
    | continueStmt =>
      exact h.exec_of_walks (agrees_answer _) (by rw [FlowRun.exec]) (by rw [FlowRun.exec])
    | method => cases open_
    | cls => cases open_

/-- The walks of every statement and every block agree. -/
theorem walked (n : Node) {n' : Node} (above above' : List Node) (depth : Nat)
    (beside : w.Beside above above' n n') : w.Walked above above' depth n n' := by
  induction n using Node.inductionOn generalizing n' above above' depth with
  | step n ih =>
    cases n with
    | stmt stmt =>
      cases n' with
      | stmt stmt' =>
        exact h.exec_of_children beside fun _ m mem m' below => ih m mem _ _ _ below
      | _ => trivial
    | block block =>
      cases n' with
      | block block' =>
        intro s
        obtain ⟨-, children⟩ := beside.children rfl (.inr rfl)
        have parts : List.Forall₂ (fun stmt stmt' => ∀ s,
            w.Agrees Eq (w.left.exec (.block block :: above) depth stmt s)
              (w.right.exec (.block block' :: above') depth stmt' s)) block.stmts block'.stmts := by
          change List.Forall₂ _ (block.stmts.map Node.stmt) (block'.stmts.map Node.stmt) at children
          rw [List.forall₂_map_left_iff, List.forall₂_map_right_iff, List.forall₂_iff_zip] at children
          refine List.forall₂_iff_zip.mpr ⟨children.1, fun {stmt stmt'} pair => ?_⟩
          exact ih _ (List.mem_map_of_mem (List.of_mem_zip pair).1) _ _ depth (children.2 pair)
        obtain ⟨id, isStatic, stmts⟩ := block
        obtain ⟨id', isStatic', stmts'⟩ := block'
        rw [FlowRun.execBlock, FlowRun.execBlock]
        exact h.execAll parts s
      | _ => trivial
    | _ => cases n' <;> trivial

end Sound

end Retracing

/-! ## Queries -/

/-- In a body with distinct ids no expression stands at two places. -/
theorem Block.unshared_of_distinct {body : Block} (distinct : ((Node.block body).subtree.map Node.id).Nodup) :
    body.Unshared := by
  have apart : ((Node.block body).own).Pairwise fun a b => a.id ≠ b.id :=
    List.Pairwise.sublist (Node.own_sublist_subtree _) (List.pairwise_map.mp distinct)
  refine apart.filterMap _ fun n n' other e isExpr e' isExpr' => ?_
  cases n <;> cases isExpr
  cases n' <;> cases isExpr'
  exact other

namespace FlowQuery

variable {query : FlowQuery} {spec : FlowSpec} {source : Expr} {above : List Node} {body : Block}

/-- What is found are the sinks among what is offered. -/
theorem Follows.mem_sinks_iff_mem_log (follows : query.Follows spec source above body) {exits : Exits}
    {log : List Occurrence} (yields : (query.run spec source).Yields (query.walk spec source above body) exits log)
    (inside : log ⊆ body.occurrences above) {o : Occurrence} :
    o ∈ (query.findSinks spec).sinks ↔ o ∈ log ∧ spec.isSink o = true := by
  obtain ⟨_, walks⟩ := yields
  rw [follows.sinks_eq, walks, mem_sinks_foldl (Block.identified_occurrences follows.unshared above) log
    inside FlowRun.filtered_nil, or_iff_right List.not_mem_nil]
  rfl

/-- The sinks of a query are those at the same places, in a tree in which a call is made on
another variable. -/
theorem sinks_redirected {call : NodeId} {name : String} {p p' : Path} {e e' : Expr} (limits : FlowLimits)
    (isSink : Path → Bool) (place : p.Redirected call name p') (starts : p.value? = some (.expr e))
    (starts' : p'.value? = some (.expr e'))
    (distinct : ∀ index body, p.outerBody? = some (index, body) → ((Node.block body).subtree.map Node.id).Nodup)
    (sinks : ∀ q q', q.Redirected call name q' → isSink q' = isSink q)
    (receivers : ∀ c q, ((Node.expr c).subtree.map Node.id).Nodup → Path.IsReceiverOf q c → isSink q = false) :
    (∀ o ∈ (findSinks ⟨p, limits⟩ (.valueOf e isSink)).sinks,
      ∃ o' ∈ (findSinks ⟨p', limits⟩ (.valueOf e' isSink)).sinks, o.path.Redirected call name o'.path) ∧
    ∀ o' ∈ (findSinks ⟨p', limits⟩ (.valueOf e' isSink)).sinks,
      ∃ o ∈ (findSinks ⟨p, limits⟩ (.valueOf e isSink)).sinks, o.path.Redirected call name o'.path := by
  have labels {nodes nodes' : List Node} (all : List.Forall₂ (Node.Redirected call name) nodes nodes') :
      nodes'.map Node.label = nodes.map Node.label := by
    induction all with
    | nil => rfl
    | cons head _ ih => rw [List.map_cons, List.map_cons, head.label_id.1, ih]
  have nothing {p : Path} {e : Expr} (starts : p.value? = some (.expr e)) (none : p.outerBody? = none) :
      (findSinks ⟨p, limits⟩ (.valueOf e isSink)).sinks = [] := by
    unfold findSinks trace
    simp only [starts, none]
    split <;> rfl
  cases found : p.outerBody? with
  | none =>
    have found' : p'.outerBody? = none := by
      by_contra some_
      obtain ⟨⟨index, body'⟩, found'⟩ := Option.ne_none_iff_exists'.mp some_
      obtain ⟨body, here, -⟩ := Path.outerBody?_go_of_labels place.flip (labels place).symm found'
      rw [show p.outerBody? = _ from here] at found
      cases found
    rw [nothing starts found, nothing starts' found']
    exact ⟨fun o mem => (List.not_mem_nil mem).elim, fun o mem => (List.not_mem_nil mem).elim⟩
  | some at_ =>
    obtain ⟨index, body⟩ := at_
    obtain ⟨body', found', became⟩ := Path.outerBody?_go_of_labels place (labels place) found
    have own := distinct index body found
    have own' : ((Node.block body').subtree.map Node.id).Nodup := became.ids ▸ own
    have follows : Follows ⟨p, limits⟩ (.valueOf e isSink) e (p.upTo (index + 1)).outward body :=
      ⟨starts, beq_self_eq_true e.id, ⟨index, found, rfl⟩, Block.unshared_of_distinct own⟩
    have follows' : Follows ⟨p', limits⟩ (.valueOf e' isSink) e' (p'.upTo (index + 1)).outward body' :=
      ⟨starts', beq_self_eq_true e'.id, ⟨index, found', rfl⟩, Block.unshared_of_distinct own'⟩
    have around : List.Forall₂ (Node.Redirected call name) (p.upTo (index + 1)).outward
        (p'.upTo (index + 1)).outward := by
      have length : p'.length = p.length := place.length_eq.symm
      unfold Path.upTo
      rw [length]
      exact List.forall₂_drop _ place
    have source : e'.id = e.id := by
      obtain ⟨above, outward⟩ := List.head?_eq_some_iff.mp starts
      obtain ⟨above', outward'⟩ := List.head?_eq_some_iff.mp starts'
      unfold Path.Redirected at place
      rw [outward, outward'] at place
      exact (List.forall₂_cons.mp place).1.label_id.2
    generalize (p.upTo (index + 1)).outward = above at follows around
    generalize (p'.upTo (index + 1)).outward = above' at follows' around
    let w : Retracing := ⟨call, name, run ⟨p, limits⟩ (.valueOf e isSink) e,
      run ⟨p', limits⟩ (.valueOf e' isSink) e', body.occurrences above, body'.occurrences above'⟩
    have among {body : Block} {above : List Node} (own : ((Node.block body).subtree.map Node.id).Nodup)
        (c : Occurrence) (mem : c ∈ body.occurrences above) :
        ((Node.expr c.expr).subtree.map Node.id).Nodup := by
      obtain ⟨stmt, hs, mem⟩ := List.mem_flatMap.mp mem
      have inside : .expr c.expr ∈ (Node.stmt stmt).subtree := by
        have listed := List.mem_map_of_mem (f := Occurrence.expr) mem
        rw [Node.map_occurrences] at listed
        obtain ⟨n, own, isExpr⟩ := List.mem_filterMap.mp listed
        cases n <;> cases isExpr
        exact (Node.own_sublist_subtree _).subset own
      have child : Node.stmt stmt ∈ (Node.block body).children := List.mem_map_of_mem hs
      have below := Node.mem_subtree_of_child child inside
      exact own.sublist ((Node.subtree_sublist_of_mem below).map Node.id)
    have sound : w.Sound :=
      ⟨⟨rfl, rfl, rfl⟩, ⟨rfl, rfl, rfl⟩, rfl, source, fun o o' same => sinks _ _ same,
        fun c mem o => receivers c.expr o.path (among own c mem),
        fun c mem o => receivers c.expr o.path (among own' c mem)⟩
    have parts : List.Forall₂ (fun stmt stmt' => ∀ s,
        w.Agrees Eq (w.left.exec above 0 stmt s) (w.right.exec above' 0 stmt' s)) body.stmts body'.stmts := by
      have pairs := became.stmts
      rw [List.forall₂_iff_zip] at pairs ⊢
      refine ⟨pairs.1, fun {stmt stmt'} pair => ?_⟩
      have here := List.of_mem_zip pair
      exact sound.walked (.stmt stmt) above above' 0 ⟨pairs.2 pair, around,
        fun o mem => List.mem_flatMap.mpr ⟨stmt, here.1, mem⟩,
        fun o mem => List.mem_flatMap.mpr ⟨stmt', here.2, mem⟩⟩
    obtain ⟨exits, exits', log, log', yields, yields', -, logs⟩ := sound.execAll parts .empty
    constructor
    · intro o mem
      obtain ⟨offered, sink⟩ := (follows.mem_sinks_iff_mem_log yields logs.inside).mp mem
      obtain ⟨o', offered', same⟩ := logs.onto o offered sink
      refine ⟨o', (follows'.mem_sinks_iff_mem_log yields' logs.inside').mpr ⟨offered', ?_⟩, same⟩
      exact (sinks _ _ same).trans sink
    · intro o' mem
      obtain ⟨offered', sink⟩ := (follows'.mem_sinks_iff_mem_log yields' logs.inside').mp mem
      obtain ⟨o, offered, same⟩ := logs.back o' offered' sink
      refine ⟨o, (follows.mem_sinks_iff_mem_log yields logs.inside).mpr ⟨offered, ?_⟩, same⟩
      exact (sinks _ _ same).symm.trans sink

end FlowQuery

end JavaMend
