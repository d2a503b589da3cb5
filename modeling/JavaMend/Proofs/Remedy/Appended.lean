import JavaMend.Proofs.Remedy.Appending
import JavaMend.Proofs.Remedy.Entries
import JavaMend.Proofs.Tree.Members

/-!
# Trees that were appended to

What was in a tree before statements were appended to it is still there: expressions and
declarations are what they were, and a node evaluates whatever it did
(`Node.Appended.exprsBelow_subset`). Where the plan has nothing to say the tree is the same
(`Node.Appended.eq_of_idle`).
-/

namespace JavaMend

/-! ## Trees to which nothing is appended -/

/-- The plan says nothing about the blocks below a node. -/
inductive Node.Idle (plan : Block → Path → List Addition) : List Node → Node → Prop where
  | intro {above : List Node} {n : Node} (here : ∀ b, n = .block b → plan b ⟨n :: above⟩ = [])
      (below : ∀ c ∈ n.children, Node.Idle plan (n :: above) c) : Node.Idle plan above n

section

variable {plan : Block → Path → List Addition} {above : List Node} {n out : Node}

namespace Node

theorem Idle.here {b : Block} (h : Idle plan above (.block b)) : plan b ⟨.block b :: above⟩ = [] := by
  cases h with
  | intro here => exact here b rfl

theorem Idle.child {c : Node} (h : Idle plan above n) (mem : c ∈ n.children) :
    Idle plan (n :: above) c := by
  cases h with
  | intro _ below => exact below c mem

/-- Where the plan says nothing, nothing changes. -/
theorem Appended.eq_of_idle (h : Appended plan above n out) (idle : Idle plan above n) : out = n := by
  induction h with
  | around open_ pairs label before after visited kept ih =>
    refine kept ?_
    rw [before, after]
    refine List.map_congr_left fun p mem => ih p mem (idle.child ?_)
    rw [before]
    exact List.mem_map_of_mem mem
  | @block above b out parts isStatic before after visited written kept ih =>
    refine congrArg Node.block (kept idle.here fun p mem => Node.stmt.inj (ih p mem (idle.child ?_)))
    refine List.mem_map_of_mem ?_
    rw [before]
    exact List.mem_map_of_mem mem

theorem idle_expr (e : Expr) (above : List Node) : Idle plan above (.expr e) := by
  refine .intro (fun b at_ => nomatch at_) fun c mem => ?_
  obtain ⟨sub, below, rfl⟩ := List.mem_map.mp mem
  exact idle_expr sub _
termination_by sizeOf e
decreasing_by exact Expr.sizeOf_lt_of_mem_children below

theorem idle_declaration {s : Stmt} {decl : Declaration Variable} (h : s.declaration? = some decl)
    (above : List Node) : Idle plan above (.stmt s) := by
  refine .intro (fun b at_ => nomatch at_) fun c mem => ?_
  obtain ⟨id, form⟩ := s
  cases form with
  | declare decl =>
    obtain ⟨v, -, rfl⟩ := List.mem_map.mp mem
    refine .intro (fun b at_ => nomatch at_) fun c mem => ?_
    obtain ⟨init, -, rfl⟩ := List.mem_map.mp mem
    exact idle_expr init _
  | _ => cases h

theorem idle_expression {s : Stmt} {e : Expr} (h : s.form = .expr e) (above : List Node) :
    Idle plan above (.stmt s) := by
  refine .intro (fun b at_ => nomatch at_) fun c mem => ?_
  obtain ⟨id, form⟩ := s
  cases h
  cases List.mem_singleton.mp mem
  exact idle_expr e _

/-! ## Expressions that stay -/

theorem Appended.label (h : Appended plan above n out) : out.label = n.label := by
  cases h with
  | around _ _ label => exact label
  | block _ isStatic => exact congrArg Node.Label.block isStatic

theorem exprsBelow_eq (n : Node) : n.exprsBelow =
    n.children.flatMap fun c => if c.opensScope then [] else c.expr?.toList ++ c.exprsBelow := by
  rw [exprsBelow]
  simp only [List.flatMap_subtype, List.unattach_attach]

theorem exprs_eq (n : Node) : n.exprs =
    n.expr?.toList ++ n.children.flatMap fun c => if c.opensScope then [] else c.exprs := by
  show n.expr?.toList ++ n.exprsBelow = _
  rw [exprsBelow_eq]
  rfl

theorem opensScope_of_label (label : out.label = n.label) : out.opensScope = n.opensScope := by
  unfold opensScope
  rw [kind_eq, kind_eq, label]

theorem Appended.expr? (h : Appended plan above n out) {e : Expr} (at_ : n = .expr e) : out = .expr e := by
  subst at_
  exact h.eq_of_idle (idle_expr e above)

/-- What is evaluated at a child is evaluated below the node that has what became of it. -/
theorem Appended.mem_exprsBelow {m m' : Node} {e : Expr} (h : Appended plan above m m')
    (below : m.exprsBelow ⊆ m'.exprsBelow) (inside : m' ∈ out.children)
    (mem : e ∈ if m.opensScope then [] else m.expr?.toList ++ m.exprsBelow) : e ∈ out.exprsBelow := by
  rw [exprsBelow_eq]
  refine List.mem_flatMap.mpr ⟨m', inside, ?_⟩
  rw [opensScope_of_label h.label]
  split at mem
  · cases mem
  · rename_i open_
    rw [if_neg open_]
    refine (List.mem_append.mp mem).elim (fun own => List.mem_append_left _ ?_)
      fun further => List.mem_append_right _ (below further)
    cases m with
    | expr e' =>
      rw [h.expr? rfl]
      exact own
    | _ => cases own

/-- What is evaluated below a node still is. -/
theorem Appended.exprsBelow_subset (h : Appended plan above n out) : n.exprsBelow ⊆ out.exprsBelow := by
  induction h with
  | around open_ pairs label before after visited kept ih =>
    intro e mem
    rw [exprsBelow_eq, before] at mem
    obtain ⟨c, hc, mem⟩ := List.mem_flatMap.mp mem
    obtain ⟨p, hp, rfl⟩ := List.mem_map.mp hc
    exact (visited p hp).mem_exprsBelow (ih p hp) (after ▸ List.mem_map_of_mem hp) mem
  | block parts isStatic before after visited written kept ih =>
    intro e mem
    rw [exprsBelow_eq] at mem
    obtain ⟨c, hc, mem⟩ := List.mem_flatMap.mp mem
    obtain ⟨s, hs, rfl⟩ := List.mem_map.mp hc
    rw [before] at hs
    obtain ⟨p, hp, rfl⟩ := List.mem_map.mp hs
    refine (visited p hp).mem_exprsBelow (ih p hp) (List.mem_map_of_mem ?_) mem
    rw [after]
    exact List.mem_flatMap.mpr ⟨p, hp, List.mem_cons_self⟩

/-- What becomes of the children of a node. -/
theorem Appended.child (h : Appended plan above n out) (open_ : n.block? = none) {c : Node}
    (mem : c ∈ n.children) : ∃ c' ∈ out.children, Appended plan (n :: above) c c' := by
  cases h with
  | around _ pairs _ before after visited =>
    rw [before] at mem
    obtain ⟨p, hp, rfl⟩ := List.mem_map.mp mem
    exact ⟨p.2, after ▸ List.mem_map_of_mem hp, visited p hp⟩
  | block => cases open_

/-- What becomes of the statements of a block. -/
theorem Appended.stmt {b : Block} (h : Appended plan above (.block b) out) :
    ∃ b', out = .block b' ∧ ∀ s ∈ b.stmts, ∃ s' ∈ b'.stmts,
      Appended plan (.block b :: above) (.stmt s) (.stmt s') := by
  cases h with
  | around open_ => cases open_
  | @block _ _ b' parts _ before after visited =>
    refine ⟨b', rfl, fun s mem => ?_⟩
    rw [before] at mem
    obtain ⟨p, hp, rfl⟩ := List.mem_map.mp mem
    refine ⟨p.visited, ?_, visited p hp⟩
    rw [after]
    exact List.mem_flatMap.mpr ⟨p, hp, List.mem_cons_self⟩

/-- What a statement evaluates it still does. -/
theorem Appended.exprs_subset {s s' : Stmt} (h : Appended plan above (.stmt s) (.stmt s')) :
    (Node.stmt s).exprs ⊆ (Node.stmt s').exprs := h.exprsBelow_subset

end Node

end

/-- A member that is executed stays one. -/
theorem Path.isExecutable_of_label {s s' : Stmt}
    (label : (Node.stmt s').label = (Node.stmt s).label) : Path.isExecutable s' = Path.isExecutable s := by
  have label : s'.form.blank = s.form.blank := Node.Label.stmt.inj label
  unfold Path.isExecutable
  revert label
  cases s'.form <;> cases s.form <;> simp [StmtForm.blank]

/-- The class whose body it is stays the class. -/
theorem Path.bodyOwner?_of_label {n n' c c' : Node} {above above' : List Node} (label : n'.label = n.label) :
    (⟨c' :: n' :: above'⟩ : Path).bodyOwner? = (⟨c :: n :: above⟩ : Path).bodyOwner? := by
  show (n'.class?.map (·.1.ty)) = n.class?.map (·.1.ty)
  cases n <;> cases n' <;> try cases label
  case stmt s s' =>
    obtain ⟨id, form⟩ := s
    obtain ⟨id', form'⟩ := s'
    have label : form'.blank = form.blank := Node.Label.stmt.inj label
    cases form <;> cases form' <;> simp [StmtForm.blank] at label <;> simp [Node.class?, label]
  case cls c c' =>
    have head : c'.head = c.head := Node.Label.cls.inj label
    simp [Node.class?, head]
  all_goals rfl

/-- A call that is a statement is evaluated by it. -/
theorem Node.mem_exprs_of_form {s : Stmt} {e : Expr} (h : s.form = .expr e) : e ∈ (Node.stmt s).exprs := by
  obtain ⟨id, form⟩ := s
  cases h
  show e ∈ (Node.stmt ⟨id, .expr e⟩).exprsBelow
  rw [Node.exprsBelow_eq]
  exact List.mem_flatMap.mpr ⟨.expr e, List.mem_cons_self, List.mem_cons_self⟩

/-! ## Bodies -/

/-- The property holds of all blocks that are no class bodies. -/
def Node.AllBodies (P : Block → Prop) (n : Node) : Prop :=
  n.All fun m => m.class? = none → ∀ b, .block b ∈ m.children → P b

namespace Node

variable {P : Block → Prop}

instance [DecidablePred P] (n : Node) : Decidable (n.AllBodies P) :=
  decidable_of_iff
    (∀ m ∈ n.subtree, m.class? = none → ∀ c ∈ m.children, ∀ b ∈ c.block?, P b) <| by
    refine forall₂_congr fun m _ => imp_congr_right fun _ => ⟨fun h b mem => h _ mem b rfl, ?_⟩
    intro h c mem b isBlock
    cases c with
    | block b' =>
      cases isBlock
      exact h b mem
    | _ => cases isBlock

theorem allBodies_expr (e : Expr) : (Node.expr e).AllBodies P := by
  refine all_iff.mpr ⟨fun _ b mem => ?_, fun c mem => ?_⟩
  · obtain ⟨sub, -, at_⟩ := List.mem_map.mp mem
    cases at_
  · obtain ⟨sub, below, rfl⟩ := List.mem_map.mp mem
    exact allBodies_expr sub
termination_by sizeOf e
decreasing_by exact Expr.sizeOf_lt_of_mem_children below

theorem allBodies_expression {s : Stmt} {e : Expr} (h : s.form = .expr e) :
    (Node.stmt s).AllBodies P := by
  obtain ⟨id, form⟩ := s
  cases h
  refine all_iff.mpr ⟨fun _ b mem => ?_, fun c mem => ?_⟩
  · cases List.mem_singleton.mp mem
  · cases List.mem_singleton.mp mem
    exact allBodies_expr e

/-- A block of which all statements are calls. -/
theorem allBodies_calls {b : Block} (calls : ∀ s ∈ b.stmts, ∃ e, s.form = .expr e) :
    (Node.block b).AllBodies P := by
  refine all_iff.mpr ⟨fun _ b' mem => ?_, fun c mem => ?_⟩
  · obtain ⟨s, -, at_⟩ := List.mem_map.mp mem
    cases at_
  · obtain ⟨s, hs, rfl⟩ := List.mem_map.mp mem
    obtain ⟨e, isCall⟩ := calls s hs
    exact allBodies_expression isCall

end Node

/-! ## Units -/

section

variable {plan : Block → Path → List Addition}

/-- What holds of the bodies of a unit does not depend on what it imports. -/
theorem Node.AllBodies.unit {P : Block → Prop} {unit out : CompilationUnit}
    (h : (Node.unit unit).AllBodies P) (same : out.classes = unit.classes) :
    (Node.unit out).AllBodies P := by
  have children : (Node.unit out).children = (Node.unit unit).children :=
    congrArg (List.map Node.cls) same
  refine Node.all_iff.mpr ⟨fun _ b mem => ?_, fun c mem => h.child (children ▸ mem)⟩
  rw [children] at mem
  exact h.self rfl b mem

/-- The pass of a remedy that appends succeeds on a unit without shared nodes, and leaves
one. -/
theorem Remedy.Appends.succeeds {remedy : Remedy Unit} (appends : remedy.Appends plan)
    (succeeds : remedy.Succeeds)
    (notes : ∀ tree mark, (Regime.accounting (fun _ => false) tree mark).Notes remedy)
    {env : PassEnv} (standard : env.splicer = .standard) {unit : CompilationUnit} {next : NodeId}
    (drawn : Drawn 0 next ((Node.unit unit).parts fun _ => false)) :
    ∃ out used changed, (remedy.visitor env).pass () unit next = (.ok out, used) ∧
      Drawn 0 used ((Node.unit out.unit).parts fun _ => false) ∧
      Node.Appended plan [] (.unit unit) (.unit changed) ∧ out.unit.classes = changed.classes ∧
        (changed = unit → out.unit = unit) := by
  obtain ⟨out, used, ran⟩ := Remedy.pass_succeeds standard succeeds () unit next
  have lawful := @Regime.accounting_lawful (fun _ => false) _ _ drawn
  obtain ⟨changed, appended, classes, kept⟩ := appends.pass lawful (notes _ _) standard rfl ran
  obtain ⟨⟨new, fresh, owned⟩, -⟩ := Regime.pass_mends lawful
    (Regime.visitor_mends lawful (notes _ _) standard) rfl ran
  exact ⟨out, used, changed, ran, (drawn.add fresh).of_le owned, appended, classes, kept⟩

end

end JavaMend
