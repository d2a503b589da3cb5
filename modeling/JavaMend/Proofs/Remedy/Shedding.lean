import Mathlib.Logic.Relation
import JavaMend.Proofs.Patch.Replaced
import JavaMend.Proofs.Patch.Scoping
import JavaMend.Remedy.PathTraversal

/-!
# Taking protections out again

A block is protected by containment guards and by `final` locals that expressions were moved
into. Both can be taken out again: a guard is deleted, and of a local the declaration is
deleted and its value put in the place of each read of it. `Node.Shed` does this once, at one
place of a tree, and `Node.Sheds` at least once. Ids do not matter to either: the trees are
compared label by label.

An extraction under a name that the block does not read is undone by taking the local out
(`Node.Extracted`): no read is caught that stood there before.
-/

namespace JavaMend

/-! ## Inlining -/

/-- The second node is the first, with a node alike to `value` in the place of each read of
the local `name`. -/
inductive Node.Inlines (name : String) (value : Expr) : Node → Node → Prop where
  | read {n out : Node} (reads : n.expr?.bind Expr.localName? = some name)
      (alike : out.alike (.expr value) = true) : Inlines name value n out
  | around {n out : Node} (other : n.expr?.bind Expr.localName? ≠ some name)
      (label : out.label = n.label)
      (children : List.Forall₂ (Inlines name value) n.children out.children) :
      Inlines name value n out

namespace Node.Inlines

variable {name : String} {value : Expr} {n : Node}

/-- A node that does not read the local stays as it is. -/
theorem of_unread (unread : name ∉ n.localReads) : n.Inlines name value n := by
  induction n using inductionOn with
  | step n ih =>
    refine .around (fun reads => unread ?_) rfl (List.forall₂_same.mpr fun c child => ?_)
    · rw [localReads_eq, reads]
      exact List.mem_cons_self
    · exact ih c child fun reads => unread (localReads_subset_of_child child reads)

end Node.Inlines

/-- What becomes of a node where a local is read in the place of some expressions: these come back
when the expression is inlined for the local, and nothing but the local is read in addition. -/
structure Node.Extracted (name : String) (value : Expr) (n out : Node) : Prop where
  inlines : name ∉ n.localReads → out.Inlines name value n
  reads : ∀ x ∈ out.localReads, x ∈ n.localReads ∨ x = name

namespace Node.Extracted

variable {name : String} {value read : Expr}

theorem self (n : Node) : n.Extracted name value n := ⟨.of_unread, fun _ => .inl⟩

theorem given {e : Expr} (form : read.form = .ident name none)
    (alike : (Node.expr e).isAlikeExpr value = true) :
    (Node.expr e).Extracted name value (.expr read) where
  inlines _ := .read (by show read.localName? = _; rw [Expr.localName?, form]) alike
  reads x mem := by
    rw [localReads_expr, Expr.localReads_eq, Expr.localName?, Expr.children, form] at mem
    exact .inr (by simpa [ExprForm.children] using mem)

theorem rebuilt {n out : Node} {news : List Node} (refilled : n.Refilled out news)
    (children : List.Forall₂ (Extracted name value) n.children news) :
    n.Extracted name value out where
  inlines unread := by
    refine .around (fun reads => unread ?_) refilled.label.symm ?_
    · rw [localReads_eq, ← localName?_of_label refilled.label, reads]
      exact List.mem_cons_self
    · rw [refilled.children]
      refine List.Forall₂.flip ?_
      rw [List.forall₂_iff_zip] at children ⊢
      refine ⟨children.1, fun {c c'} mem => (children.2 mem).inlines fun reads => unread ?_⟩
      exact localReads_subset_of_child (List.of_mem_zip mem).1 reads
  reads x mem := by
    rw [localReads_eq, localName?_of_label refilled.label, refilled.children, List.mem_append] at mem
    rw [localReads_eq, List.mem_append, or_assoc]
    refine mem.imp_right fun below => ?_
    obtain ⟨c', inside, mem⟩ := List.mem_flatMap.mp below
    obtain ⟨c, child, each⟩ := exists_of_forall₂ children inside
    exact (each.reads x mem).imp_left fun mem => List.mem_flatMap.mpr ⟨c, child, mem⟩

end Node.Extracted

/-- Reads of a local in the place of an expression, all over a statement. -/
theorem Stmt.replaceAlike?_extracted {stmt changed : Stmt} {target read : Expr} {name : String}
    {next used : NodeId} (form : read.form = .ident name none)
    (replaced : stmt.replaceAlike? target read next = (some changed, used)) :
    (Node.stmt stmt).Extracted name target (.stmt changed) :=
  Node.replaceAlike?_keeps .self (fun _ _ _ => .rebuilt) (fun _ => .given form)
    (Stmt.replaceAlike?_node replaced)

/-! ## Taking out -/

/-- `if (!check) { throw thrown; }`, where the check is whether a path starts with another. -/
def Stmt.isContainmentGuard : Stmt → Bool
  | ⟨_, .ifElse ⟨_, _, .unary .not ⟨_, _, .call _ _ _ (some m)⟩⟩
      ⟨_, .block ⟨_, _, [⟨_, .throwStmt _⟩]⟩⟩ none⟩ =>
    PathTraversal.Guarding.pathStartsWith.any (·.accepts m)
  | _ => false

namespace Node

/-- A guard or a local is taken out of the first node, which leaves the second. -/
inductive Shed : Node → Node → Prop where
  | guard {out b : Block} {front back : List Stmt} {guard : Stmt}
      (isStatic : out.isStatic = b.isStatic) (guards : guard.isContainmentGuard = true)
      (before : out.stmts = front ++ guard :: back) (after : b.stmts = front ++ back) :
      Shed (.block out) (.block b)
  | final {out b : Block} {front rest inlined : List Stmt} {declaration : Stmt}
      {typeName : String} {v : Variable} {value : Expr} (isStatic : out.isStatic = b.isStatic)
      (declares : declaration.form = .declare ⟨[.final], typeName, [v]⟩)
      (init : v.init = some value) (before : out.stmts = front ++ declaration :: rest)
      (after : b.stmts = front ++ inlined)
      (inlines : List.Forall₂ (fun s s' => (Node.stmt s).Inlines v.name value (.stmt s')) rest
        inlined) :
      Shed (.block out) (.block b)
  | within {out n c' c : Node} {front back : List Node} (label : out.label = n.label)
      (before : out.children = front ++ c' :: back) (after : n.children = front ++ c :: back)
      (inner : Shed c' c) : Shed out n

/-- Guards and locals are taken out of the first node, one at least, which leaves the second. -/
def Sheds : Node → Node → Prop := Relation.TransGen Shed

variable {n out c c' : Node} {front back : List Node}

theorem Shed.label (h : Shed out n) : out.label = n.label := by
  cases h with
  | guard isStatic => exact congrArg Label.block isStatic
  | final isStatic => exact congrArg Label.block isStatic
  | within label => exact label

theorem Sheds.label (h : out.Sheds n) : out.label = n.label := by
  induction h with
  | single step => exact step.label
  | tail _ step ih => exact ih.trans step.label

/-- A node with another node in the place of one child. -/
theorem exists_refilled {m : Node} (split : n.children = front ++ c :: back)
    (label : m.label = c.label) :
    ∃ mid : Node, mid.label = n.label ∧ mid.children = front ++ m :: back := by
  have fits : List.Forall₂ SameSort n.children (front ++ m :: back) := by
    have same (nodes : List Node) : List.Forall₂ SameSort nodes nodes :=
      List.forall₂_same.mpr fun _ _ => rfl
    rw [split]
    exact List.rel_append (same front) (.cons (sameSort_of_label label.symm) (same back))
  have refilled := n.refilled_withChildren n.id fits
  exact ⟨_, refilled.label, refilled.children⟩

/-- What is taken out of a child is taken out of the node. -/
theorem Sheds.below (label : out.label = n.label) (before : out.children = front ++ c' :: back)
    (after : n.children = front ++ c :: back) (h : c'.Sheds c) : out.Sheds n := by
  induction h generalizing n with
  | single step => exact .single (.within label before after step)
  | @tail m c _ step ih =>
    obtain ⟨mid, midLabel, children⟩ := exists_refilled after step.label
    exact .tail (ih (label.trans midLabel.symm) children)
      (.within midLabel children after step)

/-- Children behind `front` out of which things are taken, or that are the same. -/
theorem sheds_behind {olds news : List Node}
    (children : List.Forall₂ (fun c c' => c' = c ∨ Sheds c' c) olds news)
    (label : out.label = n.label) (before : out.children = front ++ news) (after : n.children = front ++ olds) :
    news = olds ∨ out.Sheds n := by
  induction children generalizing front out with
  | nil => exact .inl rfl
  | @cons c c' olds news first rest ih =>
    rw [List.append_cons] at after
    rcases first with rfl | sheds
    · rw [List.append_cons] at before
      exact (ih label before after).imp_left fun same => by rw [same]
    · obtain ⟨mid, midLabel, children⟩ := exists_refilled before sheds.label.symm
      have here : out.Sheds mid := .below midLabel.symm before children sheds
      rw [List.append_cons] at children
      rcases ih (midLabel.trans label) children after with rfl | later
      · refine .inr (.below label before ?_ sheds)
        rw [after, ← List.append_cons]
      · exact .inr (here.trans later)

/-- If things are taken out of the children of a node, they are taken out of the node. -/
theorem sheds_of_children (label : out.label = n.label)
    (children : List.Forall₂ (fun c c' => c' = c ∨ c'.Sheds c) n.children out.children)
    (changed : out.children ≠ n.children) : out.Sheds n :=
  (sheds_behind children label (List.nil_append _).symm (List.nil_append _).symm).resolve_left
    changed

end Node

end JavaMend
