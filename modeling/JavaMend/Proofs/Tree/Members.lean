import JavaMend.Proofs.Patch.Replaced
import JavaMend.Proofs.Traversal.Rebuild
import JavaMend.Proofs.Tree.Sound

/-!
# Members of classes

The body of a class is a block like any other, but not every statement may stand in it:
only fields, methods, nested classes and initializers are members. `Node.Orderly` says
that the bodies of all classes below a node hold members only. It is a matter of labels,
so it stays true where only expressions are replaced.
-/

namespace JavaMend

/-- Does the form declare a field, a method or a class, or is it an initializer? -/
def StmtForm.isMember {ε ν σ β : Type} : StmtForm ε ν σ β → Bool
  | declare _ | method _ _ | cls _ _ | block _ => true
  | _ => false

/-- May the statement stand in the body of a class? -/
def Stmt.isMember (s : Stmt) : Bool := s.form.isMember

/-- Is the block fit for a class? It is no `static` initializer and holds members only. -/
def Block.isClassBody (b : Block) : Bool := !b.isStatic && b.stmts.all Stmt.isMember

/-- The expressions that initialize the fields among the statements of a block. -/
def Block.fieldInits (b : Block) : List Expr :=
  b.stmts.flatMap fun s => (s.declaration?.toList.flatMap (·.vars)).filterMap (·.init)

namespace Node

/-- Is the node no statement, or one that may stand in the body of a class? -/
def isMember (n : Node) : Bool := n.stmt?.all Stmt.isMember

/-- The bodies of all classes below the node hold members only. -/
def Orderly (n : Node) : Prop := n.All fun m => ∀ c ∈ m.class?, c.2.isClassBody = true

instance (n : Node) : Decidable n.Orderly :=
  inferInstanceAs (Decidable (∀ m ∈ n.subtree, ∀ c ∈ m.class?, c.2.isClassBody = true))

/-- The node is orderly, and none of the classes below it has a field with a `bad`
initializer. -/
def Tidy (bad : Expr → Bool) (n : Node) : Prop := n.All fun m => ∀ c ∈ m.class?,
  c.2.isClassBody = true ∧ ∀ init ∈ c.2.fieldInits, bad init.unparen = false

variable {bad : Expr → Bool} {n out : Node}

theorem Tidy.orderly (h : n.Tidy bad) : n.Orderly := h.imp fun _ tidy c mem => (tidy c mem).1

/-- Where nothing is bad, tidy is orderly. -/
theorem Orderly.tidy (h : n.Orderly) : n.Tidy fun _ => false :=
  h.imp fun _ orderly c mem => ⟨orderly c mem, fun _ _ => rfl⟩

theorem isMember_of_label (same : out.label = n.label) : out.isMember = n.isMember := by
  have blank (form : StmtForm Expr Variable Stmt Block) : form.blank.isMember = form.isMember := by
    cases form <;> rfl
  cases n with
  | stmt s =>
    cases out with
    | stmt s' =>
      have forms : s'.form.blank = s.form.blank := Label.stmt.inj same
      show s'.form.isMember = s.form.isMember
      rw [← blank, forms, blank]
    | _ => cases same
  | _ => cases out <;> first | rfl | cases same

/-- The only child of a class is its body. -/
theorem children_of_class {head : ClassHead} {body : Block} (h : n.class? = some (head, body)) :
    n.children = [.block body] := by
  cases n with
  | cls decl =>
    cases h
    rfl
  | stmt s =>
    obtain ⟨id, form⟩ := s
    cases form with
    | cls head body =>
      cases h
      rfl
    | _ => cases h
  | _ => cases h

/-- A node with the label of a class is a class of that head. -/
theorem class?_of_label {head : ClassHead} {body : Block} (label : out.label = n.label)
    (isClass : n.class? = some (head, body)) : ∃ body', out.class? = some (head, body') := by
  cases n with
  | cls decl =>
    cases out with
    | cls decl' =>
      cases isClass
      have heads : decl'.head = decl.head := Label.cls.inj label
      exact ⟨decl'.body, by rw [← heads]; rfl⟩
    | _ => cases label
  | stmt s =>
    cases out with
    | stmt s' =>
      have forms : s'.form.blank = s.form.blank := Label.stmt.inj label
      obtain ⟨id, form⟩ := s
      obtain ⟨id', form'⟩ := s'
      cases form with
      | cls head body =>
        cases isClass
        cases form' with
        | cls head' body' =>
          cases (StmtForm.cls.inj forms).1
          exact ⟨body', rfl⟩
        | _ => cases forms
      | _ => cases isClass
    | _ => cases label
  | _ => cases isClass

/-- There are no classes in an expression. -/
theorem noClass_expr (e : Expr) : (Node.expr e).All fun m => m.class? = none := by
  refine all_iff.mpr ⟨rfl, fun c mem => ?_⟩
  obtain ⟨sub, below, rfl⟩ := List.mem_map.mp mem
  exact noClass_expr sub
termination_by sizeOf e
decreasing_by exact Expr.sizeOf_lt_of_mem_children below

theorem orderly_expr (e : Expr) : (Node.expr e).Orderly :=
  (noClass_expr e).imp fun m none c mem => by
    rw [none] at mem
    cases mem

/-- A node that is no class is orderly if its children are. -/
theorem orderly_of_children (noClass : n.class? = none) (children : ∀ c ∈ n.children, c.Orderly) :
    n.Orderly := by
  refine all_iff.mpr ⟨fun c mem => ?_, children⟩
  rw [noClass] at mem
  cases mem

theorem orderly_block {b : Block} (stmts : ∀ s ∈ b.stmts, (Node.stmt s).Orderly) :
    (Node.block b).Orderly := by
  refine orderly_of_children rfl fun c mem => ?_
  obtain ⟨s, inside, rfl⟩ := List.mem_map.mp mem
  exact stmts s inside

/-- What is written into a tree has no classes. -/
theorem orderly_of_sound {known : String → Prop} (sound : n.All (Sound known)) : n.Orderly :=
  sound.imp fun m h c mem => by
    rw [h.noClass] at mem
    cases mem

end Node

/-! ## What a node may become -/

/-- The block is the body of a tidy class, the first of the nodes above it. -/
def Block.IsBodyBelow (bad : Expr → Bool) (b : Block) (above : List Node) : Prop :=
  ∃ owner up head, above = owner :: up ∧ owner.class? = some (head, b) ∧ owner.Tidy bad

theorem Block.isClassBody_iff {b : Block} :
    b.isClassBody = true ↔ b.isStatic = false ∧ ∀ s ∈ b.stmts, s.isMember = true := by
  simp [isClassBody]

namespace Node

/-- Below some nodes, the node becomes another one and all classes stay in order. -/
structure Kept (bad : Expr → Bool) (above : List Node) (n out : Node) : Prop where
  orderly : n.Tidy bad → out.Orderly
  member : out.isMember = n.isMember
  body : ∀ b b', n = .block b → out = .block b' → b.IsBodyBelow bad above → b'.isClassBody = true

variable {bad : Expr → Bool} {n out : Node} {above : List Node}

theorem Kept.self (bad : Expr → Bool) (above : List Node) (n : Node) : Kept bad above n n where
  orderly tidy := tidy.orderly
  member := rfl
  body b b' here here' := by
    cases here.symm.trans here'
    rintro ⟨owner, up, head, -, isClass, tidy⟩
    exact (tidy.self _ isClass).1

/-- A node that is rebuilt around children of which all is kept. -/
theorem Kept.refilled {news : List Node} (refilled : n.Refilled out news)
    (children : List.Forall₂ (Kept bad (n :: above)) n.children news) : Kept bad above n out where
  orderly tidy := by
    refine all_iff.mpr ⟨?_, fun c mem => ?_⟩
    · rintro ⟨head, body⟩ isClass
      obtain ⟨body', was⟩ := class?_of_label refilled.label.symm isClass
      rw [children_of_class was, ← refilled.children, children_of_class isClass] at children
      obtain ⟨kept, -⟩ := List.forall₂_cons.mp children
      exact kept.body body' body rfl rfl ⟨n, above, head, rfl, was, tidy⟩
    · rw [refilled.children] at mem
      obtain ⟨old, inside, kept⟩ := exists_of_forall₂ children mem
      exact kept.orderly (tidy.child inside)
  member := isMember_of_label refilled.label
  body b b' here here' := by
    rintro ⟨owner, up, head, -, isClass, tidy⟩
    subst here here'
    obtain ⟨static, members⟩ := Block.isClassBody_iff.mp (tidy.self _ isClass).1
    have stmts : List.Forall₂ (fun s s' => s'.isMember = s.isMember) b.stmts b'.stmts := by
      rw [← refilled.children] at children
      have both := List.forall₂_map_right_iff.mp (List.forall₂_map_left_iff.mp children)
      exact both.imp fun s s' kept => kept.member
    refine Block.isClassBody_iff.mpr ⟨(Label.block.inj refilled.label).trans static, fun s mem => ?_⟩
    obtain ⟨old, inside, same⟩ := exists_of_forall₂ stmts mem
    rw [same]
    exact members old inside

/-- Where only expressions are replaced, all is kept. -/
theorem Kept.expr (e e' : Expr) : Kept bad above (.expr e) (.expr e') where
  orderly _ := orderly_expr e'
  member := rfl
  body _ _ here := nomatch here

end Node

end JavaMend
