import JavaMend.Proofs.Remedy.Hardened
import JavaMend.Proofs.Tree.Places

/-!
# A call that is made on another variable

One call of a tree is on a local, and is made on a variable of another name instead
(`Node.Redirected`). Nothing else is said differently: literals, constants and the variables of
other calls are read as before, and what a node evaluates is what it was, one by one
(`Node.Redirected.exprs`). Nodes keep their ids, and classes stay classes.
-/

namespace JavaMend

/-! ## A call that is made on another variable -/

/-- The variable of another name, in the same parentheses. -/
def Expr.renamed (name : String) : Expr → Expr
  | ⟨id, ty, .parens inner⟩ => ⟨id, ty, .parens (inner.renamed name)⟩
  | ⟨id, ty, .ident _ owner⟩ => ⟨id, ty, .ident name owner⟩
  | e => e

/-- The call on a variable of another name. -/
def Expr.redirected (name : String) (e : Expr) : Expr :=
  match e.form with
  | .call (some receiver) method args attribution =>
    { e with form := .call (some (receiver.renamed name)) method args attribution }
  | _ => e

/-- `out` is `n`, but for the call with the id `call`: it is a call on a local in `n`, and is
made on a variable of another name in `out`. -/
inductive Node.Redirected (call : NodeId) (name : String) : Node → Node → Prop where
  | here {e : Expr} {variable_ : String} (at_ : e.id = call) (onLocal : e.callsLocal variable_ = true)
      (once : ∀ c ∈ (Node.expr e).children, ∀ m ∈ c.subtree, m.id ≠ call) :
      Redirected call name (.expr e) (.expr (e.redirected name))
  | kept {n : Node} (apart : ∀ m ∈ n.subtree, m.id ≠ call) : Redirected call name n n
  | around {n out : Node} (other : n.id ≠ call) (inside : ∃ m ∈ n.subtree, m.id = call)
      (same : out.id = n.id) (label : out.label = n.label)
      (length : n.children.length = out.children.length)
      (children : ∀ c c', (c, c') ∈ n.children.zip out.children → Redirected call name c c') :
      Redirected call name n out

namespace Node.Redirected

variable {call : NodeId} {name : String} {n out : Node} {e e' : Expr} {s s' : Stmt} {b b' : Block}

/-- Where the call is not, nothing changes. -/
theorem eq_of_apart (h : Redirected call name n out) (apart : ∀ m ∈ n.subtree, m.id ≠ call) :
    out = n := by
  cases h with
  | here at_ => exact (apart _ mem_subtree_self at_).elim
  | kept => rfl
  | around _ inside =>
    obtain ⟨m, mem, at_⟩ := inside
    exact (apart m mem at_).elim

/-- What is not the call keeps its label, and so do its children, one by one. -/
theorem children (h : Redirected call name n out) (other : n.id ≠ call ∨ n.expr? = none) :
    out.id = n.id ∧ out.label = n.label ∧
      List.Forall₂ (Redirected call name) n.children out.children := by
  cases h with
  | here at_ =>
    rcases other with other | noExpr
    · exact (other at_).elim
    · cases noExpr
  | kept apart =>
    refine ⟨rfl, rfl, List.forall₂_same.mpr fun c mem => .kept fun m inside => ?_⟩
    exact apart m (mem_subtree_of_child mem inside)
  | around _ _ same label length children =>
    exact ⟨same, label, List.forall₂_iff_zip.mpr ⟨length, fun {c c'} => children c c'⟩⟩

/-- What an expression becomes: the call on another variable, or the same form. -/
theorem expr_cases (h : Redirected call name (.expr e) (.expr e')) :
    (e.id = call ∧ e' = e.redirected name ∧ ∃ variable_, e.callsLocal variable_ = true) ∨
      e.id ≠ call ∧ e'.id = e.id ∧ e'.ty = e.ty ∧
        ExprForm.Related (fun c c' => Redirected call name (.expr c) (.expr c')) e.form e'.form := by
  by_cases at_ : e.id = call
  · refine .inl ⟨at_, ?_⟩
    cases h with
    | here _ onLocal => exact ⟨rfl, _, onLocal⟩
    | kept apart => exact (apart _ mem_subtree_self at_).elim
    | around other => exact (other at_).elim
  · obtain ⟨same, label, children⟩ := h.children (.inl at_)
    obtain ⟨ty, related⟩ := ExprForm.related_of_label label children
    exact .inr ⟨at_, same, ty, related⟩

/-- A call on a local is a call with a receiver. -/
theorem form_of_callsLocal {variable_ : String} (onLocal : e.callsLocal variable_ = true) :
    ∃ receiver method args attribution,
      e.form = .call (some receiver) method args attribution ∧
        receiver.unparen.localName? = some variable_ := by
  obtain ⟨id, ty, form⟩ := e
  unfold Expr.callsLocal Expr.receiver? at onLocal
  cases form with
  | call receiver method args attribution =>
    cases receiver with
    | some receiver => exact ⟨receiver, method, args, attribution, rfl, eq_of_beq onLocal⟩
    | none => cases onLocal
  | _ => cases onLocal

/-- The call on another variable is still a call. -/
theorem form_of_redirected {variable_ : String} (onLocal : e.callsLocal variable_ = true) :
    ∃ receiver receiver' method args attribution,
      e.form = .call (some receiver) method args attribution ∧
        (e.redirected name).form = .call (some receiver') method args attribution := by
  obtain ⟨receiver, method, args, attribution, form, -⟩ := form_of_callsLocal onLocal
  refine ⟨receiver, receiver.renamed name, method, args, attribution, form, ?_⟩
  unfold Expr.redirected
  rw [form]

/-! ## What is read off expressions -/

/-- What is read off a form and its parts is what it was, if no receiver is read. -/
theorem reading {β : Type} {read : Expr → β} (h : Redirected call name (.expr e) (.expr e'))
    (ofForm : ∀ c, read c = read ⟨0, .unknown, c.form⟩)
    (noReceiver : ∀ receiver receiver' method args attribution,
      read ⟨0, .unknown, .call receiver' method args attribution⟩ =
        read ⟨0, .unknown, .call receiver method args attribution⟩)
    (parts : ∀ {form form' : ExprForm Expr},
      ExprForm.Related (fun c c' => Redirected call name (.expr c) (.expr c')) form form' →
        read ⟨0, .unknown, form'⟩ = read ⟨0, .unknown, form⟩) : read e' = read e := by
  rw [ofForm e, ofForm e']
  rcases h.expr_cases with ⟨-, rfl, _, onLocal⟩ | ⟨-, -, -, related⟩
  · obtain ⟨_, _, _, _, _, at_, at_'⟩ := @form_of_redirected name _ _ onLocal
    rw [at_, at_']
    exact noReceiver ..
  · exact parts related

theorem ty (h : Redirected call name (.expr e) (.expr e')) : e'.ty = e.ty := by
  rcases h.expr_cases with ⟨-, rfl, _, onLocal⟩ | ⟨-, -, ty, -⟩
  · unfold Expr.redirected
    split <;> rfl
  · exact ty

theorem literal? (h : Redirected call name (.expr e) (.expr e')) : e'.literal? = e.literal? := by
  refine h.reading (fun _ => rfl) (fun _ _ _ _ _ => rfl) fun related => ?_
  cases related <;> rfl

theorem stringValue? (h : Redirected call name (.expr e) (.expr e')) :
    e'.stringValue? = e.stringValue? := by
  refine h.reading (fun _ => rfl) (fun _ _ _ _ _ => rfl) fun related => ?_
  cases related <;> rfl

theorem constantName? (h : Redirected call name (.expr e) (.expr e')) :
    e'.constantName? = e.constantName? := by
  refine h.reading (fun _ => rfl) (fun _ _ _ _ _ => rfl) fun related => ?_
  cases related <;> rfl

theorem variableName? (h : Redirected call name (.expr e) (.expr e')) :
    e'.variableName? = e.variableName? := by
  refine h.reading (fun _ => rfl) (fun _ _ _ _ _ => rfl) fun related => ?_
  cases related with
  | @field target target' field below =>
    let ofThis (target : Expr) : Option String := Expr.variableName? ⟨0, .unknown, .field target field⟩
    have ofIdent (id : NodeId) (ty : Ty) (target : String) (owner : Option Ty) :
        ofThis ⟨id, ty, .ident target owner⟩ = if target = "this" then some field else none := by
      by_cases this : target = "this"
      · cases this
        rfl
      · simp [ofThis, Expr.variableName?, this]
    show ofThis target' = ofThis target
    refine below.reading (fun ⟨id, ty, form⟩ => ?_) (fun _ _ _ _ _ => rfl) fun related => ?_
    · cases form with
      | ident => rw [ofIdent, ofIdent]
      | _ => rfl
    · cases related <;> rfl
  | _ => rfl

theorem unparen (h : Redirected call name (.expr e) (.expr e')) :
    Redirected call name (.expr e.unparen) (.expr e'.unparen) := by
  fun_induction Expr.unparen e generalizing e' with
  | case1 id ty inner ih =>
    rcases h.expr_cases with ⟨-, -, _, onLocal⟩ | ⟨-, -, -, related⟩
    · cases onLocal
    · obtain ⟨id', ty', form'⟩ := e'
      cases related with
      | parens below =>
        rw [Expr.unparen]
        exact ih below
  | case2 e other =>
    have same : e'.unparen = e' := by
      rcases h.expr_cases with ⟨-, rfl, _, onLocal⟩ | ⟨-, -, -, related⟩
      · obtain ⟨_, _, _, _, _, -, at_'⟩ := @form_of_redirected name _ _ onLocal
        generalize e.redirected name = e' at at_'
        obtain ⟨id, ty, form⟩ := e'
        cases at_'
        rfl
      · obtain ⟨id, ty, form⟩ := e
        obtain ⟨id', ty', form'⟩ := e'
        cases related with
        | parens => exact (other _ _ _ rfl).elim
        | _ => rfl
    rwa [same]

/-- Every call but the one is on the variable that it was on. -/
theorem receiverName? (h : Redirected call name (.expr e) (.expr e')) (other : e.id ≠ call) :
    e'.receiverName? = e.receiverName? := by
  rcases h.expr_cases with ⟨at_, -⟩ | ⟨-, -, -, related⟩
  · exact (other at_).elim
  · have receivers : Option.Rel (fun c c' => Redirected call name (.expr c) (.expr c'))
        e.receiver? e'.receiver? := by
      unfold Expr.receiver?
      generalize e.form = form at related ⊢
      generalize e'.form = form' at related ⊢
      cases related with
      | call _ _ receiver => exact receiver
      | _ => exact .none
    unfold Expr.receiverName?
    generalize e.receiver? = receiver at receivers ⊢
    generalize e'.receiver? = receiver' at receivers ⊢
    cases receivers with
    | none => rfl
    | some below => exact below.unparen.variableName?

theorem unparen_renamed (e : Expr) {variable_ : String} (isLocal : e.unparen.localName? = some variable_) :
    (e.renamed name).unparen.variableName? = some name := by
  fun_induction Expr.unparen e with
  | case1 id ty inner ih =>
    rw [Expr.renamed, Expr.unparen]
    exact ih isLocal
  | case2 e other =>
    obtain ⟨id, ty, form⟩ := e
    cases form with
    | ident => rfl
    | parens => exact (other _ _ _ rfl).elim
    | _ => cases isLocal

/-- The one call is on the other variable. -/
theorem receiverName?_redirected {variable_ : String} (onLocal : e.callsLocal variable_ = true) :
    (e.redirected name).receiverName? = some name := by
  obtain ⟨receiver, method, args, attribution, form, isLocal⟩ := form_of_callsLocal onLocal
  unfold Expr.receiverName? Expr.receiver? Expr.redirected
  rw [form]
  exact unparen_renamed receiver isLocal

/-! ## What calls say -/

theorem boolean? (h : Redirected call name (.expr e) (.expr e')) :
    XmlInput.boolean? e' = XmlInput.boolean? e := by
  have below := h.unparen
  unfold XmlInput.boolean?
  generalize e.unparen = c at below ⊢
  generalize e'.unparen = c' at below ⊢
  rcases below.expr_cases with ⟨-, rfl, _, onLocal⟩ | ⟨-, -, -, related⟩
  · obtain ⟨_, _, _, _, _, at_, at_'⟩ := @form_of_redirected name _ _ onLocal
    rw [at_, at_']
  · generalize c.form = form at related ⊢
    generalize c'.form = form' at related ⊢
    cases related with
    | field _ target => simp only [target.ty]
    | _ => rfl

end Node.Redirected

/-- The second argument says what the first does. -/
structure Expr.SameArgument (a a' : Expr) : Prop where
  constantName : a'.unparen.constantName? = a.unparen.constantName?
  literal : a'.unparen.literal? = a.unparen.literal?
  stringValue : a'.unparen.stringValue? = a.unparen.stringValue?
  boolean : XmlInput.boolean? a' = XmlInput.boolean? a

/-- The second call says what the first does, on whatever variable. -/
structure Expr.SameCall (e e' : Expr) : Prop where
  method : e'.method? = e.method?
  args : List.Forall₂ SameArgument e.args e'.args

theorem Expr.SameArgument.refl (a : Expr) : SameArgument a a := ⟨rfl, rfl, rfl, rfl⟩

theorem Expr.SameCall.refl (e : Expr) : SameCall e e :=
  ⟨rfl, List.forall₂_same.mpr fun a _ => .refl a⟩

namespace Expr.SameCall

variable {e e' : Expr} {calls calls' : List Expr}

theorem acceptsAny (h : e.SameCall e') (shapes : List Signature) :
    CallMatcher.standard.acceptsAny e' shapes = CallMatcher.standard.acceptsAny e shapes :=
  CallMatcher.acceptsAny_congr h.method shapes

/-- What is read off the first argument. -/
theorem first (h : e.SameCall e') {α : Type} {read : Expr → Option α}
    (reads : ∀ {a a' : Expr}, a.SameArgument a' → read a' = read a) :
    e'.args.head?.bind read = e.args.head?.bind read := by
  have args := h.args
  generalize e.args = as at args ⊢
  generalize e'.args = as' at args ⊢
  cases args with
  | nil => rfl
  | cons same => exact reads same

/-- What is read off the second argument. -/
theorem second (h : e.SameCall e') {α : Type} {read : Expr → Option α}
    (reads : ∀ {a a' : Expr}, a.SameArgument a' → read a' = read a) :
    e'.args[1]?.bind read = e.args[1]?.bind read := by
  have args := h.args
  generalize e.args = as at args ⊢
  generalize e'.args = as' at args ⊢
  cases args with
  | nil => rfl
  | cons _ rest =>
    cases rest with
    | nil => rfl
    | cons same => exact reads same

/-- Whether some call is of a sort. -/
theorem any (h : List.Forall₂ SameCall calls calls') {p : Expr → Bool}
    (reads : ∀ {e e' : Expr}, e.SameCall e' → p e' = p e) : calls'.any p = calls.any p := by
  induction h with
  | nil => rfl
  | cons same _ ih => rw [List.any_cons, List.any_cons, reads same, ih]

/-- The calls of a shape. -/
theorem filter (h : List.Forall₂ SameCall calls calls') (shapes : List Signature) :
    List.Forall₂ SameCall (calls.filter (CallMatcher.standard.acceptsAny · shapes))
      (calls'.filter (CallMatcher.standard.acceptsAny · shapes)) := by
  refine List.rel_filter (fun e e' same => ?_) h
  show _ = true ↔ _ = true
  rw [same.acceptsAny]

end Expr.SameCall

namespace Node.Redirected

variable {call : NodeId} {name : String} {n out : Node} {e e' : Expr} {s s' : Stmt} {b b' : Block}

theorem sameArgument (h : Redirected call name (.expr e) (.expr e')) : e.SameArgument e' :=
  ⟨h.unparen.constantName?, h.unparen.literal?, h.unparen.stringValue?, h.boolean?⟩

theorem sameCall (h : Redirected call name (.expr e) (.expr e')) : e.SameCall e' := by
  rcases h.expr_cases with ⟨-, rfl, _, onLocal⟩ | ⟨-, -, -, related⟩
  · obtain ⟨_, _, _, _, _, at_, at_'⟩ := @form_of_redirected name _ _ onLocal
    constructor
    · unfold Expr.method?
      rw [at_, at_']
    · unfold Expr.args
      rw [at_, at_']
      exact List.forall₂_same.mpr fun a _ => .refl a
  · obtain ⟨method, args⟩ := Expr.args_related related
    exact ⟨method, args.imp fun _ _ => sameArgument⟩

/-! ## What is evaluated -/

/-- What stands where an expression stood says the same, and is a call on the same variable
unless it is the one call. -/
structure Instead (call : NodeId) (name : String) (e e' : Expr) : Prop where
  alike : e.SameCall e'
  receiver : e.id ≠ call ∧ e'.receiverName? = e.receiverName? ∨
    e.id = call ∧ e'.receiverName? = some name

theorem instead (h : Redirected call name (.expr e) (.expr e')) : Instead call name e e' := by
  refine ⟨h.sameCall, ?_⟩
  rcases h.expr_cases with ⟨at_, rfl, _, onLocal⟩ | ⟨other, -⟩
  · exact .inr ⟨at_, receiverName?_redirected onLocal⟩
  · exact .inl ⟨other, h.receiverName? other⟩

theorem opensScope (h : Redirected call name n out) : out.opensScope = n.opensScope := by
  cases h with
  | here => rfl
  | kept => rfl
  | around _ _ _ label => exact opensScope_of_label label

end Node.Redirected

namespace Node

variable {call : NodeId} {name : String} {n out : Node} {e : Expr}

theorem children_paired (length : n.children.length = out.children.length) :
    List.Forall₂ (fun c c' => (c, c') ∈ n.children.zip out.children) n.children out.children :=
  List.forall₂_iff_zip.mpr ⟨length, fun {_ _} pair => pair⟩

theorem mem_subtree_of_mem_exprs (mem : e ∈ n.exprs) : .expr e ∈ n.subtree := by
  induction n using inductionOn with
  | step n ih =>
    rw [exprs_eq] at mem
    rcases List.mem_append.mp mem with here | below
    · cases n with
      | expr =>
        cases List.mem_singleton.mp here
        exact mem_subtree_self
      | _ => cases here
    · obtain ⟨c, child, inside⟩ := List.mem_flatMap.mp below
      split at inside
      · cases inside
      · exact mem_subtree_of_child child (ih c child inside)

namespace Redirected

/-- Where the call is not, the same is evaluated. -/
theorem exprs_of_apart (apart : ∀ m ∈ n.subtree, m.id ≠ call) :
    List.Forall₂ (Instead call name) n.exprs n.exprs :=
  List.forall₂_same.mpr fun e mem =>
    ⟨.refl e, .inl ⟨apart _ (mem_subtree_of_mem_exprs mem), rfl⟩⟩

/-- A variable in parentheses is no call, whatever its name. -/
theorem exprs_renamed {variable_ : String} (e : Expr) (isLocal : e.unparen.localName? = some variable_)
    (apart : ∀ m ∈ (Node.expr e).subtree, m.id ≠ call) :
    List.Forall₂ (Instead call name) (Node.expr e).exprs (Node.expr (e.renamed name)).exprs := by
  fun_induction Expr.unparen e with
  | case1 id ty inner ih =>
    rw [Expr.renamed, exprs_eq, exprs_eq]
    refine .cons ⟨⟨rfl, .nil⟩, .inl ⟨apart _ mem_subtree_self, rfl⟩⟩ ?_
    show List.Forall₂ _ (List.flatMap _ [Node.expr inner]) (List.flatMap _ [Node.expr _])
    rw [List.flatMap_singleton, List.flatMap_singleton]
    exact ih isLocal fun m mem => apart m (mem_subtree_of_child List.mem_cons_self mem)
  | case2 e other =>
    obtain ⟨id, ty, form⟩ := e
    cases form with
    | ident =>
      rw [Expr.renamed, exprs_eq, exprs_eq]
      exact .cons ⟨⟨rfl, .nil⟩, .inl ⟨apart _ mem_subtree_self, rfl⟩⟩ .nil
    | parens => exact (other _ _ _ rfl).elim
    | _ => cases isLocal

/-- What is evaluated in a node and in what it became. -/
theorem exprs (h : Redirected call name n out) :
    List.Forall₂ (Instead call name) n.exprs out.exprs := by
  induction h with
  | @here e _ at_ onLocal once =>
    have own : Instead call name e (e.redirected name) := (here at_ onLocal once).instead
    obtain ⟨receiver, method, args, attribution, form, isLocal⟩ := form_of_callsLocal onLocal
    obtain ⟨id, ty, _⟩ := e
    cases form
    rw [exprs_eq, exprs_eq]
    refine .cons own ?_
    show List.Forall₂ _ (List.flatMap _ (Node.expr receiver :: args.map Node.expr))
      (List.flatMap _ (Node.expr (receiver.renamed name) :: args.map Node.expr))
    rw [List.flatMap_cons, List.flatMap_cons]
    have pairs : List.Forall₂ (fun c c' => c' = c ∧ ∀ m ∈ c.subtree, m.id ≠ call)
        (args.map Node.expr) (args.map Node.expr) :=
      List.forall₂_same.mpr fun c child => ⟨rfl, once c (List.mem_cons_of_mem _ child)⟩
    refine List.rel_append (exprs_renamed receiver isLocal (once _ List.mem_cons_self))
      (List.rel_flatMap pairs fun c c' ⟨same, apart⟩ => ?_)
    subst same
    split
    · exact .nil
    · exact exprs_of_apart apart
  | kept apart => exact exprs_of_apart apart
  | @around n out other inside same label length children ih =>
    rw [exprs_eq, exprs_eq]
    refine List.rel_append ?_ (List.rel_flatMap (children_paired length) fun c c' pair => ?_)
    · cases n with
      | expr e =>
        cases out with
        | expr e' => exact .cons (around other inside same label length children).instead .nil
        | _ => cases label
      | _ =>
        cases out with
        | expr => cases label
        | _ => exact .nil
    · rw [(children c c' pair).opensScope]
      split
      · exact .nil
      · exact ih c c' pair

/-! ## What stands in a class -/

/-- The statements of a block, one by one. -/
theorem stmts {b b' : Block} (h : Redirected call name (.block b) (.block b')) :
    List.Forall₂ (fun s s' => Redirected call name (.stmt s) (.stmt s')) b.stmts b'.stmts := by
  obtain ⟨-, -, children⟩ := h.children (.inr rfl)
  change List.Forall₂ _ (b.stmts.map Node.stmt) (b'.stmts.map Node.stmt) at children
  rwa [List.forall₂_map_left_iff, List.forall₂_map_right_iff] at children

/-- The statements of what is a block. -/
theorem block?_stmts (h : Redirected call name n out) :
    List.Forall₂ (fun s s' => Redirected call name (.stmt s) (.stmt s'))
      (n.block?.map (·.stmts) |>.getD []) (out.block?.map (·.stmts) |>.getD []) := by
  cases n with
  | block b =>
    obtain ⟨-, label, -⟩ := h.children (.inr rfl)
    cases out with
    | block b' => exact h.stmts
    | _ => cases label
  | expr e =>
    cases out with
    | block =>
      cases h with
      | around _ _ _ label => cases label
    | _ => exact .nil
  | _ =>
    obtain ⟨-, label, -⟩ := h.children (.inr rfl)
    cases out with
    | block => cases label
    | _ => exact .nil

end Redirected

end Node

/-! ## Nodes and their ids -/

theorem Expr.renamed_ids (name : String) (e : Expr) :
    (Node.expr (e.renamed name)).subtree.map Node.id = (Node.expr e).subtree.map Node.id := by
  fun_induction Expr.renamed name e with
  | case1 id ty inner ih =>
    rw [Node.subtree_eq, Node.subtree_eq]
    show id :: (List.flatMap _ [Node.expr (inner.renamed name)]).map Node.id =
      id :: (List.flatMap _ [Node.expr inner]).map Node.id
    rw [List.flatMap_singleton, List.flatMap_singleton, ih]
  | case2 id ty old owner => 
    rw [Node.subtree_eq, Node.subtree_eq]
    rfl
  | case3 e => rfl

namespace Node.Redirected

variable {call : NodeId} {name : String} {n out m : Node} {head : ClassHead} {b : Block}

/-- Every node keeps its id. -/
theorem ids (h : Redirected call name n out) : out.subtree.map Node.id = n.subtree.map Node.id := by
  induction h with
  | @here e _ _ onLocal =>
    obtain ⟨receiver, method, args, attribution, form, -⟩ := form_of_callsLocal onLocal
    obtain ⟨id, ty, _⟩ := e
    cases form
    rw [subtree_eq, subtree_eq]
    show id :: (List.flatMap _ (Node.expr (receiver.renamed name) :: args.map Node.expr)).map Node.id =
      id :: (List.flatMap _ (Node.expr receiver :: args.map Node.expr)).map Node.id
    rw [List.flatMap_cons, List.flatMap_cons, List.map_append, List.map_append, Expr.renamed_ids]
  | kept => rfl
  | @around n out _ _ same _ length children ih =>
    have below : List.Forall₂ Eq (n.children.flatMap fun c => c.subtree.map Node.id)
        (out.children.flatMap fun c => c.subtree.map Node.id) := by
      refine List.rel_flatMap (children_paired length) fun c c' pair => ?_
      rw [ih c c' pair]
      exact List.forall₂_same.mpr fun _ _ => rfl
    rw [List.forall₂_eq_eq_eq] at below
    rw [subtree_eq, subtree_eq, List.map_cons, List.map_cons, List.map_flatMap, List.map_flatMap, same, below]

/-- The call stands in the only child. -/
theorem around_child {c c' : Node} (h : Redirected call name c c') (inside : ∃ m ∈ c.subtree, m.id = call)
    (other : n.id ≠ call) (same : out.id = n.id) (label : out.label = n.label)
    (before : n.children = [c]) (after : out.children = [c']) : Redirected call name n out := by
  obtain ⟨m, below, at_⟩ := inside
  refine .around other ⟨m, mem_subtree_of_child (before ▸ List.mem_cons_self) below, at_⟩ same label ?_ ?_
  · rw [before, after]
    rfl
  · rw [before, after]
    intro d d' pair
    cases List.mem_singleton.mp pair
    exact h

/-- A class stays one. -/
theorem class? (h : Redirected call name n out) (isClass : n.class? = some (head, b)) :
    ∃ b', out.class? = some (head, b') ∧ Redirected call name (.block b) (.block b') := by
  have noExpr : n.expr? = none := by
    cases n with
    | expr => cases isClass
    | _ => rfl
  obtain ⟨-, label, children⟩ := h.children (.inr noExpr)
  obtain ⟨b', isClass'⟩ := class?_of_label label isClass
  rw [children_of_class isClass, children_of_class isClass'] at children
  exact ⟨b', isClass', (List.forall₂_cons.mp children).1⟩

end Node.Redirected

end JavaMend
