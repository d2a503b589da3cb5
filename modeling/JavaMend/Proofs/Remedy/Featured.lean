import JavaMend.Proofs.Remedy.Naming
import JavaMend.Proofs.Remedy.Retraced

/-!
# Features that are set on locals

A feature of a `DocumentBuilderFactory` is followed to the calls that set it, and a factory is
known there by the name of the variable that the call is made on. If one call is made on another
variable, what all other calls say stays as it was, about the same variables; what the one call
says is said about the other variable (`DocumentBuilder.mem_factsOf_redirected`).
-/

namespace JavaMend

variable {call : NodeId} {name : String} {p p' : Path} {nodes nodes' : List Node}

/-! ## Operands of calls -/

namespace Node.Redirected

variable {e e' value value' : Expr}

theorem args_ids (h : Redirected call name (.expr e) (.expr e')) :
    e'.args.map (·.id) = e.args.map (·.id) := by
  rcases h.expr_cases with ⟨-, rfl, _, onLocal⟩ | ⟨-, -, -, related⟩
  · obtain ⟨_, _, _, _, _, at_, at_'⟩ := @form_of_redirected name _ _ onLocal
    unfold Expr.args
    rw [at_, at_']
  · have args := (Expr.args_related related).2
    generalize e.args = as at args ⊢
    generalize e'.args = as' at args ⊢
    induction args with
    | nil => rfl
    | cons head _ ih => exact congrArg₂ List.cons head.label_id.2 ih

/-- The same call is around an operand, and the operand is the same. -/
theorem callAround? (pair : Redirected call name (.expr value) (.expr value'))
    (all : List.Forall₂ (Redirected call name) nodes nodes') :
    Option.Rel (fun r r' => Redirected call name (.expr r.1) (.expr r'.1) ∧ r'.2.id = r.2.id)
      (JavaMend.callAround? value nodes) (JavaMend.callAround? value' nodes') := by
  induction all generalizing value value' with
  | nil => exact .none
  | @cons n n' above above' head _ ih =>
    have sort := sameSort_of_label head.label_id.1
    cases n with
    | expr parent =>
      cases n' with
      | expr parent' =>
        have same : value'.id = value.id := pair.label_id.2
        rcases head.expr_cases with ⟨-, rfl, _, onLocal⟩ | ⟨-, -, -, related⟩
        · obtain ⟨_, _, _, _, _, at_, at_'⟩ := @form_of_redirected name _ _ onLocal
          unfold JavaMend.callAround?
          rw [at_, at_']
          exact .some ⟨head, same⟩
        · obtain ⟨id, ty, form⟩ := parent
          obtain ⟨id', ty', form'⟩ := parent'
          cases related with
          | parens => exact ih head
          | call | create => exact .some ⟨head, same⟩
          | _ => exact .none
      | _ => cases sort
    | _ => cases n' <;> first | exact .none | cases sort

theorem callWithOperand? (place : p.Redirected call name p') :
    Option.Rel (fun r r' => Redirected call name (.expr r.1) (.expr r'.1) ∧ r'.2.id = r.2.id)
      p.callWithOperand? p'.callWithOperand? := by
  obtain ⟨nodes⟩ := p
  obtain ⟨nodes'⟩ := p'
  unfold Path.callWithOperand?
  change List.Forall₂ _ nodes nodes' at place
  cases place with
  | nil => exact .none
  | @cons n n' _ _ head all =>
    have sort := sameSort_of_label head.label_id.1
    cases n with
    | expr value =>
      cases n' with
      | expr value' => exact callAround? head all
      | _ => cases sort
    | _ => cases n' <;> first | exact .none | cases sort

/-- The operand that the path ends at is one of what became of the call. -/
theorem callAbove? (all : List.Forall₂ (Redirected call name) nodes nodes') :
    Option.Rel (fun c c' => Redirected call name (.expr c) (.expr c')) (Path.callAbove? nodes)
      (Path.callAbove? nodes') := by
  induction all with
  | nil => exact .none
  | @cons n n' above above' head _ ih =>
    have sort := sameSort_of_label head.label_id.1
    cases n with
    | expr parent =>
      cases n' with
      | expr parent' =>
        rcases head.expr_cases with ⟨-, rfl, _, onLocal⟩ | ⟨-, -, -, related⟩
        · obtain ⟨_, _, _, _, _, at_, at_'⟩ := @form_of_redirected name _ _ onLocal
          unfold Path.callAbove?
          rw [at_, at_']
          exact .some head
        · obtain ⟨id, ty, form⟩ := parent
          obtain ⟨id', ty', form'⟩ := parent'
          cases related with
          | parens => exact ih
          | call | create => exact .some head
          | _ => exact .none
      | _ => cases sort
    | _ => cases n' <;> first | exact .none | cases sort

/-- An argument of a call is one of what became of the call. -/
theorem isArgumentOf (place : p.Redirected call name p') (signature : Signature) (index : Nat) :
    CallMatcher.standard.isArgumentOf p' signature index =
      CallMatcher.standard.isArgumentOf p signature index := by
  unfold CallMatcher.isArgumentOf
  have operands := callWithOperand? place
  generalize p.callWithOperand? = r at operands ⊢
  generalize p'.callWithOperand? = r' at operands ⊢
  cases operands with
  | none => rfl
  | @some r r' both =>
    obtain ⟨c, operand⟩ := r
    obtain ⟨c', operand'⟩ := r'
    obtain ⟨became, same⟩ := both
    dsimp only at became same ⊢
    have args := congrArg (·[index]?) became.args_ids
    have accepts : CallMatcher.standard.accepts c' signature = CallMatcher.standard.accepts c signature := by
      unfold CallMatcher.standard
      simp only [became.sameCall.method]
    have held : (c'.args[index]?).any (·.same operand') = (c.args[index]?).any (·.same operand) := by
      simp only [List.getElem?_map] at args
      cases here : c.args[index]? <;> cases here' : c'.args[index]? <;>
        simp only [here, here', Option.map, reduceCtorEq, Option.some.injEq] at args
      · rfl
      · show (_ == _) = (_ == _)
        rw [args, same]
    rw [held, accepts]

end Node.Redirected

/-- A receiver is no argument of its call. -/
theorem CallMatcher.isArgumentOf_receiver {m : CallMatcher} {c : Expr}
    (distinct : ((Node.expr c).subtree.map Node.id).Nodup) (receiver : p.IsReceiverOf c)
    (signature : Signature) (index : Nat) : m.isArgumentOf p signature index = false := by
  obtain ⟨operand, found, isReceiver⟩ := receiver
  unfold isArgumentOf
  rw [found]
  dsimp only
  refine Bool.and_eq_false_imp.mpr fun held => ?_
  exfalso
  obtain ⟨arg, at_, same⟩ := (Option.any_eq_true _ _).mp held
  have mem : arg ∈ c.args := List.mem_of_getElem? at_
  obtain ⟨id, ty, form⟩ := c
  cases form with
  | call receiver method args attribution =>
    cases isReceiver
    rw [Node.subtree_eq, List.map_cons, List.nodup_cons] at distinct
    have below := distinct.2
    change ((((Node.expr operand :: args.map Node.expr).flatMap Node.subtree)).map Node.id).Nodup at below
    rw [List.flatMap_cons, List.map_append, List.nodup_append] at below
    refine below.2.2 operand.id (List.mem_map_of_mem Node.mem_subtree_self) arg.id ?_ (eq_of_beq same).symm
    exact List.mem_map_of_mem (List.mem_flatMap.mpr
      ⟨_, List.mem_map_of_mem mem, Node.mem_subtree_self⟩)
  | _ => cases isReceiver

/-! ## Expressions below a node -/

namespace Node

variable {n out c : Node} {above above' : List Node}

/-- The paths to the expressions of a node, itself first if it is one. -/
def exprPathsFrom (above : List Node) (n : Node) : List Path :=
  (n.expr?.toList.map fun _ => ⟨n :: above⟩) ++ n.exprPathsBelow above

theorem exprPathsBelow_eq (above : List Node) (n : Node) : n.exprPathsBelow above =
    n.children.flatMap fun c => if c.opensScope then [] else c.exprPathsFrom (n :: above) := by
  rw [exprPathsBelow]
  simp only [List.flatMap_subtype, List.unattach_attach]
  rfl

/-- Every path goes through nodes below and through those above. -/
theorem outward_of_mem_exprPathsBelow (mem : p ∈ n.exprPathsBelow above) {m : Node}
    (on : m ∈ p.outward) : m ∈ n.subtree ∨ m ∈ above := by
  induction n using inductionOn generalizing above with
  | step n ih =>
    rw [exprPathsBelow_eq] at mem
    obtain ⟨c, child, mem⟩ := List.mem_flatMap.mp mem
    split at mem
    · cases mem
    · rcases List.mem_append.mp mem with own | below
      · obtain ⟨_, -, rfl⟩ := List.mem_map.mp own
        rcases List.mem_cons.mp on with rfl | on
        · exact .inl (mem_subtree_of_child child mem_subtree_self)
        · rcases List.mem_cons.mp on with rfl | on
          · exact .inl mem_subtree_self
          · exact .inr on
      · rcases ih c child below with inside | on
        · exact .inl (mem_subtree_of_child child inside)
        · rcases List.mem_cons.mp on with rfl | on
          · exact .inl mem_subtree_self
          · exact .inr on

end Node

/-- At the end of the path stands a variable, or one in parentheses. -/
def Path.IsVariable (p : Path) : Prop := ∃ e, p.expr? = some e ∧ e.unparen.localName?.isSome

/-- The same place, or places of two variables. -/
def Path.Counterpart (call : NodeId) (name : String) (p p' : Path) : Prop :=
  p.Redirected call name p' ∨ p.IsVariable ∧ p'.IsVariable

namespace Node.Redirected

variable {n out : Node} {above above' : List Node}

/-- A variable in parentheses stays one, whatever its name. -/
theorem exprPaths_renamed {variable_ : String} (e : Expr) (isLocal : e.unparen.localName? = some variable_)
    (above above' : List Node) : List.Forall₂ (Path.Counterpart call name)
      ((Node.expr e).exprPathsFrom above) ((Node.expr (e.renamed name)).exprPathsFrom above') := by
  have own {e : Expr} (isLocal : e.unparen.localName? = some variable_) (above above' : List Node) :
      Path.Counterpart call name ⟨.expr e :: above⟩ ⟨.expr (e.renamed name) :: above'⟩ :=
    .inr ⟨⟨e, rfl, by rw [isLocal]; rfl⟩, ⟨_, rfl, by rw [Expr.localName?_renamed e isLocal]; rfl⟩⟩
  fun_induction Expr.unparen e generalizing above above' with
  | case1 id ty inner ih =>
    refine .cons (own (e := ⟨id, ty, .parens inner⟩) isLocal above above') ?_
    rw [exprPathsBelow_eq, exprPathsBelow_eq]
    show List.Forall₂ _ (List.flatMap _ [Node.expr inner]) (List.flatMap _ [Node.expr (inner.renamed name)])
    rw [List.flatMap_singleton, List.flatMap_singleton]
    exact ih isLocal _ _
  | case2 e other =>
    obtain ⟨id, ty, form⟩ := e
    cases form with
    | ident x owner =>
      refine .cons (own (e := ⟨id, ty, .ident x owner⟩) isLocal above above') ?_
      rw [exprPathsBelow_eq, exprPathsBelow_eq]
      exact .nil
    | parens => exact (other _ _ _ rfl).elim
    | _ => cases isLocal

/-- The expressions below what became of a node are their counterparts. -/
theorem exprPaths (h : Redirected call name n out) (around : List.Forall₂ (Redirected call name) above above') :
    List.Forall₂ (Path.Counterpart call name) (n.exprPathsBelow above) (out.exprPathsBelow above') := by
  induction n using inductionOn generalizing out above above' with
  | step n ih =>
    have here := List.Forall₂.cons h around
    -- A child that is no receiver of the call, with all that is below it.
    have part {c c' : Node} (child : c ∈ n.children) (became : Redirected call name c c') :
        List.Forall₂ (Path.Counterpart call name)
          (if c.opensScope then [] else c.exprPathsFrom (n :: above))
          (if c'.opensScope then [] else c'.exprPathsFrom (out :: above')) := by
      rw [became.opensScope]
      split
      · exact .nil
      · refine List.rel_append ?_ (ih c child became here)
        have sort := sameSort_of_label became.label_id.1
        cases c with
        | expr e =>
          cases c' with
          | expr e' => exact .cons (.inl (.cons became here)) .nil
          | _ => cases sort
        | _ => cases c' <;> first | exact .nil | cases sort
    rw [exprPathsBelow_eq, exprPathsBelow_eq]
    by_cases special : n.id = call ∧ n.expr?.isSome
    · obtain ⟨at_, isExpr⟩ := special
      cases n with
      | expr e =>
        cases h with
        | here _ onLocal once =>
          obtain ⟨receiver, method, args, attribution, form, isLocal⟩ := form_of_callsLocal onLocal
          obtain ⟨id, ty, _⟩ := e
          cases form
          show List.Forall₂ _ (List.flatMap _ (Node.expr receiver :: args.map Node.expr))
            (List.flatMap _ (Node.expr (receiver.renamed name) :: args.map Node.expr))
          rw [List.flatMap_cons, List.flatMap_cons]
          refine List.rel_append (exprPaths_renamed receiver isLocal _ _) ?_
          have pairs : List.Forall₂ (fun c c' => c' = c ∧ c ∈ args.map Node.expr)
              (args.map Node.expr) (args.map Node.expr) :=
            List.forall₂_same.mpr fun c child => ⟨rfl, child⟩
          refine List.rel_flatMap pairs fun c c' ⟨same, child⟩ => ?_
          subst same
          exact part (List.mem_cons_of_mem _ child) (.kept (once _ (List.mem_cons_of_mem _ child)))
        | kept apart => exact (apart _ mem_subtree_self at_).elim
        | around other => exact (other at_).elim
      | _ => cases isExpr
    · have other : n.id ≠ call ∨ n.expr? = none := by
        rcases Classical.em (n.id = call) with at_ | other
        · exact .inr (Option.not_isSome_iff_eq_none.mp fun isExpr => special ⟨at_, isExpr⟩)
        · exact .inl other
      obtain ⟨-, -, children⟩ := h.children other
      have pairs : List.Forall₂ (fun c c' => c ∈ n.children ∧ Redirected call name c c')
          n.children out.children := by
        rw [List.forall₂_iff_zip] at children ⊢
        exact ⟨children.1, fun {c c'} pair => ⟨(List.of_mem_zip pair).1, children.2 pair⟩⟩
      exact List.rel_flatMap pairs fun c c' ⟨child, became⟩ => part child became

end Node.Redirected

namespace DocumentBuilder

/-! ## What calls say -/

section

variable (env : PassEnv)

/-- What the call says that the path ends at an operand of. -/
def saidAt? (feature : String) (path : Path) : Option (Expr × Fact) := do
  let call ← path.operandOf?
  return (call, ← factOf? feature call)

/-- What the expression at the end of a path says about factories, and the calls that say it. -/
def sayingsAt (path : Path) : List (Expr × Fact) :=
  match path.expr? with
  | none => []
  | some e =>
    if env.matcher.acceptsAny e setXincludeAware then [(e, .xincludeSet)]
    else
      match knownFeature? e with
      | none => []
      | some feature =>
        let isSink p := setFeature.any (env.matcher.isArgumentOf p · 0)
        ((env.queryFrom path).findSinks (.valueOf e isSink)).sinks.filterMap (saidAt? feature ·.path)

/-- What is said is said about the variable that a call is made on. -/
def about (saying : Expr × Fact) : Option (String × Fact) :=
  saying.1.receiverName?.map fun name => (name, saying.2)

theorem factsAt_eq (path : Path) : factsAt env path = (sayingsAt env path).filterMap about := by
  unfold factsAt sayingsAt
  cases path.expr? with
  | none => rfl
  | some e =>
    dsimp only
    split
    · cases named : e.receiverName? <;> simp [about, named]
    · cases knownFeature? e with
      | none => rfl
      | some feature =>
        dsimp only
        rw [List.filterMap_filterMap]
        refine List.filterMap_congr fun sink _ => ?_
        unfold saidAt?
        cases sink.path.operandOf? with
        | none => rfl
        | some c =>
          cases said : factOf? feature c <;> cases named : c.receiverName? <;> simp [about, said, named]

/-- What the code around a block says. -/
def sayings (path : Path) : List (Expr × Fact) :=
  (if path.bodyOwner?.isSome then path.executedBodies else [path]).flatMap (·.exprPaths) |>.flatMap
    (sayingsAt env)

theorem factsOf_eq (path : Path) : factsOf env path = (sayings env path).filterMap about := by
  unfold factsOf factsBelow sayings
  rw [List.filterMap_flatMap]
  exact List.flatMap_congr fun path _ => factsAt_eq env path

/-- What the code around a block says by other calls than one. -/
def factsApart (call : NodeId) (path : Path) : List (String × Fact) :=
  ((sayings env path).filter (·.1.id != call)).filterMap about

end

variable {env : PassEnv} {e e' : Expr}

/-- A variable says nothing. -/
theorem sayingsAt_variable (standard : env.matcher = .standard) (isVariable : p.IsVariable) :
    sayingsAt env p = [] := by
  obtain ⟨e, found, isLocal⟩ := isVariable
  unfold sayingsAt
  rw [found, standard]
  obtain ⟨id, ty, form⟩ := e
  cases form <;> first | rfl | cases isLocal

theorem factOf?_sameCall (h : e.SameCall e') (feature : String) : factOf? feature e' = factOf? feature e := by
  unfold factOf?
  have value : (e'.args[1]?.any fun value => value.unparen.literal? == some (.boolean true)) =
      e.args[1]?.any fun value => value.unparen.literal? == some (.boolean true) := by
    have same {a a' : Expr} (h : a.SameArgument a') : some a'.unparen.literal? = some a.unparen.literal? :=
      congrArg some h.literal
    have read := h.second same
    cases here : e.args[1]? <;> cases here' : e'.args[1]? <;> simp_all
  rw [value]

/-- The second calls say what the first do, one that stands for another. -/
structure Echoes (call : NodeId) (name : String) (said said' : List (Expr × Fact)) : Prop where
  onto : ∀ s ∈ said, ∃ s' ∈ said', s'.2 = s.2 ∧ Node.Redirected.Instead call name s.1 s'.1
  back : ∀ s' ∈ said', ∃ s ∈ said, s'.2 = s.2 ∧ Node.Redirected.Instead call name s.1 s'.1

theorem echoes_nil : Echoes call name [] [] :=
  ⟨fun _ none => (List.not_mem_nil none).elim, fun _ none => (List.not_mem_nil none).elim⟩

theorem Echoes.append {said said' more more' : List (Expr × Fact)} (h : Echoes call name said said')
    (h' : Echoes call name more more') : Echoes call name (said ++ more) (said' ++ more') where
  onto s mem := by
    rcases List.mem_append.mp mem with mem | mem
    · obtain ⟨s', mem', same⟩ := h.onto s mem
      exact ⟨s', List.mem_append_left _ mem', same⟩
    · obtain ⟨s', mem', same⟩ := h'.onto s mem
      exact ⟨s', List.mem_append_right _ mem', same⟩
  back s' mem := by
    rcases List.mem_append.mp mem with mem | mem
    · obtain ⟨s, mem', same⟩ := h.back s' mem
      exact ⟨s, List.mem_append_left _ mem', same⟩
    · obtain ⟨s, mem', same⟩ := h'.back s' mem
      exact ⟨s, List.mem_append_right _ mem', same⟩

theorem Echoes.filterMap {sinks sinks' : List Occurrence} {read : Occurrence → Option (Expr × Fact)}
    (onto : ∀ o ∈ sinks, ∃ o' ∈ sinks', o.path.Redirected call name o'.path)
    (back : ∀ o' ∈ sinks', ∃ o ∈ sinks, o.path.Redirected call name o'.path)
    (reads : ∀ o o' : Occurrence, o.path.Redirected call name o'.path →
      Option.Rel (fun s s' => s'.2 = s.2 ∧ Node.Redirected.Instead call name s.1 s'.1) (read o) (read o')) :
    Echoes call name (sinks.filterMap read) (sinks'.filterMap read) where
  onto s mem := by
    obtain ⟨o, inside, here⟩ := List.mem_filterMap.mp mem
    obtain ⟨o', inside', place⟩ := onto o inside
    have both := reads o o' place
    rw [here] at both
    cases here' : read o' with
    | none => rw [here'] at both; cases both
    | some s' =>
      rw [here'] at both
      cases both with
      | some both => exact ⟨s', List.mem_filterMap.mpr ⟨o', inside', here'⟩, both⟩
  back s' mem := by
    obtain ⟨o', inside', here'⟩ := List.mem_filterMap.mp mem
    obtain ⟨o, inside, place⟩ := back o' inside'
    have both := reads o o' place
    rw [here'] at both
    cases here : read o with
    | none => rw [here] at both; cases both
    | some s =>
      rw [here] at both
      cases both with
      | some both => exact ⟨s, List.mem_filterMap.mpr ⟨o, inside, here⟩, both⟩

/-- Operands of the same call say the same. -/
theorem saidAt?_redirected (place : p.Redirected call name p') (feature : String) :
    Option.Rel (fun s s' => s'.2 = s.2 ∧ Node.Redirected.Instead call name s.1 s'.1)
      (saidAt? feature p) (saidAt? feature p') := by
  have operands : Option.Rel (fun c c' => Node.Redirected call name (.expr c) (.expr c'))
      p.operandOf? p'.operandOf? := by
    obtain ⟨nodes⟩ := p
    obtain ⟨nodes'⟩ := p'
    have pairs : List.Forall₂ (Node.Redirected call name) nodes nodes' := place
    cases pairs with
    | nil => exact .none
    | cons _ above => exact Node.Redirected.callAbove? above
  unfold saidAt?
  generalize p.operandOf? = operand at operands
  generalize p'.operandOf? = operand' at operands
  cases operands with
  | none => exact .none
  | @some c c' became =>
    show Option.Rel _ (factOf? feature c >>= fun fact => some (c, fact))
      (factOf? feature c' >>= fun fact => some (c', fact))
    rw [factOf?_sameCall became.instead.alike]
    cases factOf? feature c with
    | none => exact .none
    | some fact => exact .some ⟨rfl, became.instead⟩

/-- What is said at a place is said at the same place of the other tree. -/
theorem sayingsAt_redirected (standard : env.matcher = .standard) (place : p.Redirected call name p')
    (distinct : ∀ m ∈ p.outward, (m.subtree.map Node.id).Nodup) :
    Echoes call name (sayingsAt env p) (sayingsAt env p') := by
  obtain ⟨nodes⟩ := p
  obtain ⟨nodes'⟩ := p'
  have pairs : List.Forall₂ (Node.Redirected call name) nodes nodes' := place
  cases pairs with
  | nil => exact echoes_nil
  | @cons n n' above above' became around =>
    have sort := Node.sameSort_of_label became.label_id.1
    cases n with
    | expr e =>
      cases n' with
      | expr e' =>
        have alike := became.instead.alike
        have bodies (index : Nat) (body : Block)
            (found : (⟨.expr e :: above⟩ : Path).outerBody? = some (index, body)) :
            ((Node.block body).subtree.map Node.id).Nodup := by
          obtain ⟨front, back, split, -⟩ := Path.outerBody?_go_split found
          exact distinct _ (split ▸ List.mem_append_right _ List.mem_cons_self)
        have string : knownFeature? e' = knownFeature? e := by
          unfold knownFeature?
          rw [became.stringValue?]
        unfold sayingsAt
        rw [standard]
        show Echoes call name
          (if CallMatcher.standard.acceptsAny e setXincludeAware then [(e, .xincludeSet)] else _)
          (if CallMatcher.standard.acceptsAny e' setXincludeAware then [(e', .xincludeSet)] else _)
        rw [alike.acceptsAny, string]
        split
        · have pair := became.instead
          exact ⟨List.forall_mem_singleton.mpr ⟨_, List.mem_cons_self, rfl, pair⟩,
            List.forall_mem_singleton.mpr ⟨_, List.mem_cons_self, rfl, pair⟩⟩
        · cases knownFeature? e with
          | none => exact echoes_nil
          | some feature =>
            obtain ⟨onto, back⟩ := FlowQuery.sinks_redirected env.limits
              (fun p => setFeature.any (CallMatcher.standard.isArgumentOf p · 0)) place rfl rfl
              bodies (fun q q' same => by simp only [Node.Redirected.isArgumentOf same])
              fun c q own receiver => List.any_eq_false.mpr fun signature _ =>
                Bool.eq_false_iff.mp (CallMatcher.isArgumentOf_receiver own receiver signature 0)
            exact .filterMap onto back fun o o' same => saidAt?_redirected same feature
      | _ => cases sort
    | _ => cases n' <;> first | exact echoes_nil | cases sort

/-- What is said at some places is said at their counterparts. -/
theorem sayings_counterparts (standard : env.matcher = .standard) {paths paths' : List Path}
    (pairs : List.Forall₂ (Path.Counterpart call name) paths paths')
    (distinct : ∀ p ∈ paths, ∀ m ∈ p.outward, (m.subtree.map Node.id).Nodup) :
    Echoes call name (paths.flatMap (sayingsAt env)) (paths'.flatMap (sayingsAt env)) := by
  induction pairs with
  | nil => exact echoes_nil
  | @cons p p' _ _ pair _ ih =>
    rw [List.flatMap_cons, List.flatMap_cons]
    refine .append ?_ (ih fun p mem => distinct p (List.mem_cons_of_mem _ mem))
    rcases pair with place | ⟨isVariable, isVariable'⟩
    · exact sayingsAt_redirected standard place (distinct p List.mem_cons_self)
    · rw [sayingsAt_variable standard isVariable, sayingsAt_variable standard isVariable']
      exact echoes_nil

section

variable {b b' : Block} {above above' : List Node}

/-- The bodies of the methods and initializers, one by one, with the nodes around them. -/
theorem executedBodies_eq (b : Block) (above : List Node) :
    (⟨.block b :: above⟩ : Path).executedBodies = (b.stmts.filter Path.isExecutable).flatMap fun member =>
      (Node.stmt member).children.map fun c => ⟨c :: .stmt member :: .block b :: above⟩ := rfl

/-- The code of a class says the same in the same places. -/
theorem sayings_redirected (standard : env.matcher = .standard)
    (place : (⟨.block b :: above⟩ : Path).Redirected call name ⟨.block b' :: above'⟩)
    (owner : (⟨.block b :: above⟩ : Path).bodyOwner?.isSome)
    (owner' : (⟨.block b' :: above'⟩ : Path).bodyOwner?.isSome)
    (distinct : ∀ m ∈ Node.block b :: above, (m.subtree.map Node.id).Nodup) :
    Echoes call name (sayings env ⟨.block b :: above⟩) (sayings env ⟨.block b' :: above'⟩) := by
  unfold sayings
  rw [if_pos owner, if_pos owner', executedBodies_eq, executedBodies_eq]
  have body : Node.Redirected call name (.block b) (.block b') := (List.forall₂_cons.mp place).1
  have executed : List.Forall₂ (fun s s' => Node.Redirected call name (.stmt s) (.stmt s') ∧ s ∈ b.stmts)
      (b.stmts.filter Path.isExecutable) (b'.stmts.filter Path.isExecutable) := by
    have members : List.Forall₂ (fun s s' => Node.Redirected call name (.stmt s) (.stmt s') ∧ s ∈ b.stmts)
        b.stmts b'.stmts := by
      have stmts := body.stmts
      rw [List.forall₂_iff_zip] at stmts ⊢
      exact ⟨stmts.1, fun {s s'} pair => ⟨stmts.2 pair, (List.of_mem_zip pair).1⟩⟩
    refine List.rel_filter (fun s s' both => ?_) members
    show _ = true ↔ _ = true
    rw [Path.isExecutable_of_label (both.1.children (.inr rfl)).2.1]
  refine sayings_counterparts standard ?_ ?_
  · rw [List.flatMap_assoc, List.flatMap_assoc]
    refine List.rel_flatMap executed fun s s' both => ?_
    obtain ⟨-, -, children⟩ := both.1.children (.inr rfl)
    rw [List.flatMap_map, List.flatMap_map]
    refine List.rel_flatMap children fun c c' became => ?_
    exact became.exprPaths (.cons both.1 place)
  · intro p mem m on
    rw [List.flatMap_assoc] at mem
    obtain ⟨member, isMember, mem⟩ := List.mem_flatMap.mp mem
    rw [List.flatMap_map] at mem
    obtain ⟨c, child, mem⟩ := List.mem_flatMap.mp mem
    have below : Node.stmt member ∈ (Node.block b).children :=
      List.mem_map_of_mem (List.mem_filter.mp isMember).1
    have own {m : Node} (inside : m ∈ (Node.stmt member).subtree) : (m.subtree.map Node.id).Nodup :=
      (distinct _ List.mem_cons_self).sublist
        ((Node.subtree_sublist_of_mem (Node.mem_subtree_of_child below inside)).map Node.id)
    rcases Node.outward_of_mem_exprPathsBelow mem on with inside | on
    · exact own (Node.mem_subtree_of_child child inside)
    · rcases List.mem_cons.mp on with rfl | on
      · exact own Node.mem_subtree_self
      · exact distinct m on

/-- Without the one call, what the code of a class says about a variable is what it says once the
call is made on another one. -/
theorem mem_factsOf_redirected (standard : env.matcher = .standard)
    (place : (⟨.block b :: above⟩ : Path).Redirected call name ⟨.block b' :: above'⟩)
    (owner : (⟨.block b :: above⟩ : Path).bodyOwner?.isSome)
    (owner' : (⟨.block b' :: above'⟩ : Path).bodyOwner?.isSome)
    (distinct : ∀ m ∈ Node.block b :: above, (m.subtree.map Node.id).Nodup) {x : String} (other : x ≠ name)
    (fact : Fact) : (x, fact) ∈ factsOf env ⟨.block b' :: above'⟩ ↔
      (x, fact) ∈ factsApart env call ⟨.block b :: above⟩ := by
  have echoes := sayings_redirected standard place owner owner' distinct
  rw [factsOf_eq, factsApart]
  constructor
  · intro mem
    obtain ⟨s', said', isAbout⟩ := List.mem_filterMap.mp mem
    obtain ⟨s, said, same, instead⟩ := echoes.back s' said'
    obtain ⟨x', named, pair⟩ := Option.map_eq_some_iff.mp isAbout
    cases pair
    rcases instead.receiver with ⟨apart, receivers⟩ | ⟨-, moved⟩
    · refine List.mem_filterMap.mpr ⟨s, List.mem_filter.mpr ⟨said, bne_iff_ne.mpr apart⟩, ?_⟩
      unfold about
      rw [← receivers, named, ← same]
      rfl
    · exact (other (Option.some.inj (named.symm.trans moved))).elim
  · intro mem
    obtain ⟨s, kept, isAbout⟩ := List.mem_filterMap.mp mem
    obtain ⟨said, apart⟩ := List.mem_filter.mp kept
    obtain ⟨s', said', same, instead⟩ := echoes.onto s said
    obtain ⟨x', named, pair⟩ := Option.map_eq_some_iff.mp isAbout
    cases pair
    rcases instead.receiver with ⟨-, receivers⟩ | ⟨at_, -⟩
    · refine List.mem_filterMap.mpr ⟨s', said', ?_⟩
      unfold about
      rw [receivers, named, same]
      rfl
    · exact (bne_iff_ne.mp apart at_).elim

end

end DocumentBuilder

/-! ## Names -/

namespace Node.Redirected

variable {n out : Node}

theorem declaredNames (h : Redirected call name n out) : out.declaredNames = n.declaredNames := by
  induction h with
  | here => rw [declaredNames_expr, declaredNames_expr]
  | kept => rfl
  | @around n out _ _ _ label length children ih =>
    have below : List.Forall₂ Eq (n.children.flatMap Node.declaredNames)
        (out.children.flatMap Node.declaredNames) := by
      refine List.rel_flatMap (children_paired length) fun c c' pair => ?_
      rw [ih c c' pair]
      exact List.forall₂_same.mpr fun _ _ => rfl
    rw [List.forall₂_eq_eq_eq] at below
    rw [declaredNames_eq, declaredNames_eq, declaredName?_of_label label, below]

theorem declares (h : Redirected call name n out) : out.declares = n.declares := by
  induction h with
  | here => rfl
  | kept => rfl
  | around _ _ _ label length _ ih =>
    exact declares_refilled label (List.forall₂_iff_zip.mpr ⟨length, fun {c c'} pair => ih c c' pair⟩)

theorem bindings (h : Redirected call name n out) : out.bindings = n.bindings := by
  cases h with
  | here => rfl
  | kept => rfl
  | around _ _ _ label length children =>
    exact bindings_refilled label
      (List.forall₂_iff_zip.mpr ⟨length, fun {c c'} pair => (children c c' pair).declares⟩)

end Node.Redirected

/-- The same names are taken at the same block. -/
theorem Path.takenNames_redirected {b b' : Block} {above above' : List Node}
    (place : (⟨.block b :: above⟩ : Path).Redirected call name ⟨.block b' :: above'⟩) :
    (⟨.block b' :: above'⟩ : Path).takenNames = (⟨.block b :: above⟩ : Path).takenNames := by
  have bound : List.Forall₂ (Node.Redirected call name) (.block b :: above) (.block b' :: above') := place
  have bindings {nodes nodes' : List Node} (all : List.Forall₂ (Node.Redirected call name) nodes nodes') :
      nodes'.flatMap (·.bindings) = nodes.flatMap (·.bindings) := by
    induction all with
    | nil => rfl
    | cons head _ ih => rw [List.flatMap_cons, List.flatMap_cons, head.bindings, ih]
  show (Node.block b').declaredNames ++ (Node.block b' :: above').flatMap (·.bindings) =
    (Node.block b).declaredNames ++ (Node.block b :: above).flatMap (·.bindings)
  rw [bindings bound, (List.forall₂_cons.mp place).1.declaredNames]

/-- Each factory, with those before it. -/
def Factory.withEarlier (fs : List Factory) : List (List Factory × Factory) := fs.inits.zip fs

theorem Factory.withEarlier_cons (f : Factory) (fs : List Factory) :
    withEarlier (f :: fs) = ([], f) :: (withEarlier fs).map fun x => (f :: x.1, x.2) := by
  unfold withEarlier
  rw [List.inits_cons, List.zip_cons_cons, List.zip_map_left]
  rfl

/-- Looking at each factory alone is looking at each with those before it. -/
theorem Factory.filterMap_withEarlier {β : Type} (read : Factory → Option β) (fs : List Factory) :
    (withEarlier fs).filterMap (fun x => read x.2) = fs.filterMap read := by
  induction fs with
  | nil => rfl
  | cons f fs ih => rw [withEarlier_cons, List.filterMap_cons, List.filterMap_cons, List.filterMap_map, ← ih]; rfl

theorem Factory.exists_withEarlier {f : Factory} {fs : List Factory} (mem : f ∈ fs) :
    ∃ before, (before, f) ∈ withEarlier fs := by
  induction fs with
  | nil => cases mem
  | cons g fs ih =>
    rw [withEarlier_cons]
    rcases List.mem_cons.mp mem with rfl | mem
    · exact ⟨[], List.mem_cons_self⟩
    · obtain ⟨before, placed⟩ := ih mem
      exact ⟨g :: before, List.mem_cons_of_mem _ (List.mem_map.mpr ⟨_, placed, rfl⟩)⟩

theorem Factory.mem_of_withEarlier {before : List Factory} {f : Factory} {fs : List Factory}
    (placed : (before, f) ∈ withEarlier fs) : f ∈ fs ∧ before ⊆ fs := by
  obtain ⟨isInit, mem⟩ := List.of_mem_zip placed
  exact ⟨mem, ((List.mem_inits _ _).mp isInit).subset⟩

namespace DocumentBuilder

/-! ## What is planned for one factory -/

section

variable (handled : Factory → Bool) (taken : List String)

/-- One more name is taken. -/
def takeFeature (taken : List String) : List String := leastFreeName "FEATURE" taken :: taken

/-- The names that are taken once some factories are seen to. -/
def takenBehind (fs : List Factory) : List String :=
  takeFeature^[fs.countP (!handled ·)] taken

/-- The names for a factory. -/
def Choice.of (taken : List String) (f : Factory) : Choice :=
  ⟨f, leastFreeName "FEATURE" taken, leastFreeName "e" (takeFeature taken)⟩

/-- The names for a factory that stands behind others, if it needs any. -/
def choiceBehind? (before : List Factory) (f : Factory) : Option Choice :=
  if handled f then none else some (.of (takenBehind handled taken before) f)

/-- The names for a factory depend on how many before it are not handled. -/
theorem choose_eq (fs : List Factory) : choose handled taken fs =
    (Factory.withEarlier fs).filterMap fun x => choiceBehind? handled taken x.1 x.2 := by
  induction fs generalizing taken with
  | nil => rfl
  | cons f fs ih =>
    have rest (more : List String) (behind : ∀ before, takenBehind handled taken (f :: before) =
        takenBehind handled more before) : ((Factory.withEarlier fs).map fun x => (f :: x.1, x.2)).filterMap
          (fun x => choiceBehind? handled taken x.1 x.2) = choose handled more fs := by
      rw [List.filterMap_map, ih]
      refine List.filterMap_congr fun x _ => ?_
      show choiceBehind? handled taken (f :: x.1) x.2 = _
      unfold choiceBehind?
      rw [behind]
    rw [Factory.withEarlier_cons, List.filterMap_cons, choose]
    cases handles : handled f with
    | true =>
      have none_ : choiceBehind? handled taken [] f = none := if_pos handles
      rw [if_pos rfl, none_]
      refine (rest taken fun before => ?_).symm
      unfold takenBehind
      rw [List.countP_cons_of_neg (by simp [handles])]
    | false =>
      have first : choiceBehind? handled taken [] f = some (.of taken f) := if_neg (by simp [handles])
      rw [if_neg Bool.false_ne_true, first]
      refine congrArg (Choice.of taken f :: ·) (rest (takeFeature taken) fun before => ?_).symm
      unfold takenBehind
      rw [List.countP_cons_of_pos (by simp [handles])]
      rfl

end

/-! ### What the names tell -/

variable {taken : List String}

theorem takeFeature_mono {j k : Nat} (le : j ≤ k) : takeFeature^[j] taken ⊆ takeFeature^[k] taken := by
  induction le with
  | refl => exact List.Subset.refl _
  | @step k _ ih =>
    rw [Function.iterate_succ_apply']
    exact fun x mem => List.mem_cons_of_mem _ (ih mem)

/-- A name tells how many were taken before it. -/
theorem takeFeature_inj {j k : Nat} (same : leastFreeName "FEATURE" (takeFeature^[j] taken) =
    leastFreeName "FEATURE" (takeFeature^[k] taken)) : j = k := by
  have apart {j k : Nat} (less : j < k) : leastFreeName "FEATURE" (takeFeature^[j] taken) ≠
      leastFreeName "FEATURE" (takeFeature^[k] taken) := by
    intro same
    refine leastFreeName_not_mem "FEATURE" (takeFeature^[k] taken) (same ▸ takeFeature_mono less ?_)
    rw [Function.iterate_succ_apply']
    exact List.mem_cons_self
  rcases Nat.lt_trichotomy j k with less | rfl | more
  · exact (apart less same).elim
  · rfl
  · exact (apart more same.symm).elim

/-! ### What is written -/

section

variable (env : PassEnv) (dtdsRequired : Bool)

/-- What decides on what is written for a factory, if anything is: how many before it are written
something, and whether documents that it includes are still to be kept out. -/
def lacks (facts : List (String × Fact)) (before : List Factory) (f : Factory) : Option (Nat × Bool) :=
  if isHandled dtdsRequired facts f then none
  else some (before.countP (!isHandled dtdsRequired facts ·),
    dtdsRequired && !facts.contains (f.held.name, .xincludeSet))

/-- What is written for a factory that lacks something. -/
def written (path : Path) (f : Factory) (lacking : Nat × Bool) : Addition :=
  let c := Choice.of (takeFeature^[lacking.1] path.takenNames) f
  f.addition path.bodyOwner? (lastFeatureStmt? env f)
    (mkSettings f path.bodyOwner? dtdsRequired c.feature c.exception (!lacking.2))
    (Fqn.parserConfigurationException :: if dtdsRequired then [Fqn.xmlConstants] else [])

/-- What is to be written for a factory behind others, by what code says about all of them. -/
def addition? (path : Path) (facts : List (String × Fact)) (before : List Factory) (f : Factory) :
    Option Addition :=
  (lacks dtdsRequired facts before f).map (written env dtdsRequired path f)

variable {env dtdsRequired} {path path' : Path} {facts facts' : List (String × Fact)}
  {before : List Factory} {f : Factory} {ty : Ty}

theorem addition?_eq (path : Path) (facts : List (String × Fact)) (before : List Factory) (f : Factory) :
    addition? env dtdsRequired path facts before f =
      (choiceBehind? (isHandled dtdsRequired facts) path.takenNames before f).map
        (Choice.addition env dtdsRequired path facts) := by
  unfold addition? lacks choiceBehind?
  split
  · rfl
  · refine congrArg some ?_
    cases dtdsRequired with
    | false => rfl
    | true =>
      unfold written Choice.addition
      rw [Bool.true_and, Bool.not_not]
      rfl

/-- What is written for some factories, one by one. -/
theorem choose_additions (path : Path) (facts : List (String × Fact)) (fs : List Factory) :
    (choose (isHandled dtdsRequired facts) path.takenNames fs).map
        (Choice.addition env dtdsRequired path facts) =
      (Factory.withEarlier fs).filterMap fun x => addition? env dtdsRequired path facts x.1 x.2 := by
  rw [choose_eq, List.map_filterMap]
  exact List.filterMap_congr fun x _ => (addition?_eq ..).symm

/-- What follows a field plays no part. -/
theorem Choice.addition_following (owner : path.bodyOwner? = some ty) (f : Factory) (following : List Stmt)
    (feature exception : String) :
    Choice.addition env dtdsRequired path facts ⟨{ f with following }, feature, exception⟩ =
      Choice.addition env dtdsRequired path facts ⟨f, feature, exception⟩ := by
  unfold addition
  dsimp only
  rw [owner]
  rfl

theorem choose_following (owner : path.bodyOwner? = some ty) {fs fs' : List Factory}
    (alike : List.Forall₂ (fun f f' : Factory => f' = { f with following := f'.following }) fs fs')
    (taken : List String) :
    (choose (isHandled dtdsRequired facts) taken fs').map (Choice.addition env dtdsRequired path facts) =
      (choose (isHandled dtdsRequired facts) taken fs).map (Choice.addition env dtdsRequired path facts) := by
  induction alike generalizing taken with
  | nil => rfl
  | @cons f f' _ _ same _ ih =>
    have handles : isHandled dtdsRequired facts f' = isHandled dtdsRequired facts f := by
      rw [same]
      rfl
    rw [choose, choose, handles]
    split
    · exact ih taken
    · rw [List.map_cons, List.map_cons]
      refine congrArg₂ List.cons ?_ (ih _)
      rw [same]
      exact Choice.addition_following owner ..

theorem written_of_paths (owner : path'.bodyOwner? = path.bodyOwner?)
    (taken : path'.takenNames = path.takenNames) (f : Factory) :
    written env dtdsRequired path' f = written env dtdsRequired path f := by
  funext lacking
  unfold written
  rw [owner, taken]

/-- The statements that a guard keeps from failing. -/
def guarded (stmts : List Stmt) : List Stmt := stmts.flatMap fun s =>
  match s.form with
  | .tryCatch _ body _ _ => body.stmts
  | _ => []

/-- What is written says if documents that are included are kept out by it. -/
theorem mkDisableEntities_guarded (factory : Expr) (feature exception : String) (xincludeSet : Bool) :
    (mkDisableEntities factory feature exception xincludeSet).Gives fun stmts =>
      (guarded stmts).length = if xincludeSet then 8 else 9 := by
  intro next
  cases xincludeSet <;> rfl

theorem mkSettings_guarded (f : Factory) (owner : Option Ty) (feature exception : String)
    (xincludeSet : Bool) : (mkSettings f owner dtdsRequired feature exception xincludeSet).Gives
      fun stmts => dtdsRequired = true → (guarded stmts).length = if xincludeSet then 8 else 9 := by
  refine .bind (fun _ => trivial) fun read (_ : True) => ?_
  cases dtdsRequired with
  | false => exact fun _ off => (Bool.false_ne_true off).elim
  | true => exact (mkDisableEntities_guarded read feature exception xincludeSet).mono fun _ count _ => count

/-- What is written for a field tells what it lacks. -/
theorem written_inj (owner : path.bodyOwner? = some ty) {n m : Nat × Bool}
    (same : written env dtdsRequired path f n = written env dtdsRequired path f m) :
    n.1 = m.1 ∧ (dtdsRequired = true → n.2 = m.2) := by
  -- The initializer declares a local and guards some statements.
  have tells (lacking : Nat × Bool) : (written env dtdsRequired path f lacking).make.Gives fun ws =>
      ∃ init body, ws = [init] ∧ init.form = .block body ∧
        body.stmts.flatMap Stmt.declaredNames =
          [leastFreeName "FEATURE" (takeFeature^[lacking.1] path.takenNames)] ∧
        (dtdsRequired = true → (guarded body.stmts).length = if !lacking.2 then 8 else 9) := by
    unfold written
    rw [owner]
    refine .bind ((mkSettings_guards _ _ f (some ty) dtdsRequired _).and
      (mkSettings_guarded f (some ty) _ _ _)) fun stmts ⟨guards, count⟩ => ?_
    exact fun next => ⟨_, _, rfl, rfl, guards.declares, count⟩
  obtain ⟨init, body, one, form, feature, count⟩ := tells n 0
  obtain ⟨init', body', one', form', feature', count'⟩ := same ▸ tells m 0
  cases one.symm.trans one'
  cases form.symm.trans form'
  refine ⟨takeFeature_inj (List.singleton_injective (feature.symm.trans feature')), fun required => ?_⟩
  have lengths := (count required).symm.trans (count' required)
  revert lengths
  cases n.2 <;> cases m.2 <;> simp

/-- The same is written for a field if it lacks the same. -/
theorem addition?_eq_iff (owner : path.bodyOwner? = some ty) (owner' : path'.bodyOwner? = some ty)
    (taken : path'.takenNames = path.takenNames) :
    addition? env dtdsRequired path' facts' before f = addition? env dtdsRequired path facts before f ↔
      lacks dtdsRequired facts' before f = lacks dtdsRequired facts before f := by
  unfold addition?
  rw [written_of_paths (owner'.trans owner.symm) taken]
  refine ⟨fun same => ?_, congrArg _⟩
  cases lacking : lacks dtdsRequired facts before f with
  | none =>
    rw [lacking] at same
    exact Option.map_eq_none_iff.mp same
  | some n =>
    rw [lacking] at same
    obtain ⟨m, lacking', same⟩ := Option.map_eq_some_iff.mp same
    obtain ⟨count, left_⟩ := written_inj owner same
    rw [lacking']
    refine congrArg some (Prod.ext count ?_)
    cases dtdsRequired with
    | true => exact left_ rfl
    | false =>
      have off {facts : List (String × Fact)} {n : Nat × Bool}
          (lacking : lacks false facts before f = some n) : n.2 = false := by
        unfold lacks at lacking
        split at lacking
        · cases lacking
        · cases lacking
          rfl
      rw [off lacking, off lacking']

/-- What factories lack is a matter of what is said about them. -/
theorem lacks_of_sameFacts (same : ∀ g ∈ f :: before, ∀ fact,
      (g.held.name, fact) ∈ facts' ↔ (g.held.name, fact) ∈ facts) :
    lacks dtdsRequired facts' before f = lacks dtdsRequired facts before f := by
  have holds (g : Factory) (mem : g ∈ f :: before) (fact : Fact) :
      facts'.contains (g.held.name, fact) = facts.contains (g.held.name, fact) := by
    rw [Bool.eq_iff_iff, List.contains_iff_mem, List.contains_iff_mem]
    exact same g mem fact
  have handles (g : Factory) (mem : g ∈ f :: before) :
      isHandled dtdsRequired facts' g = isHandled dtdsRequired facts g := by
    unfold isHandled
    rw [holds g mem, holds g mem]
  have count : before.countP (!isHandled dtdsRequired facts' ·) =
      before.countP (!isHandled dtdsRequired facts ·) :=
    List.countP_congr fun g mem => by rw [handles g (List.mem_cons_of_mem _ mem)]
  unfold lacks
  rw [handles f List.mem_cons_self, holds f List.mem_cons_self, count]

end

end DocumentBuilder

end JavaMend
