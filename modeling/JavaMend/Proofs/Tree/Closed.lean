import JavaMend.Proofs.Tree.Scoping
import JavaMend.Proofs.Tree.Sound

/-!
# Locals that are in scope where they are read

A tree is closed in a region if each local that is read in it is in scope there
(`Node.Closed`): it is declared in the region of the read, or around the classes and methods
that the read stands in. What is in scope in the tree only grows on the way in, so a tree is
closed if all that it reads is in scope around it (`Node.closed_of_reads`), and a tree that is
closed stays so where more is in scope (`Node.Closed.wider`).

Whether declarations bring locals into scope depends on what they stand in: in the body of a
class they are fields. This much of a region can be read off the nodes above
(`Region.below`).
-/

namespace JavaMend

/-! ## Reads -/

/-- The local that an expression reads, if it is a plain name. The simple name of the class
that the expression is of stands for the class. -/
def Expr.read? (e : Expr) : Option String := if e.isTypeName then none else e.localName?

namespace Node

/-- The local that a node reads itself. -/
def read? (n : Node) : Option String := n.expr?.bind Expr.read?

/-- The locals that are read anywhere in a tree, once per read. -/
def reads (n : Node) : List String := n.subtree.filterMap read?

variable {n c m out : Node} {x : String}

theorem reads_eq (n : Node) : n.reads = n.read?.toList ++ n.children.flatMap reads := by
  unfold reads
  rw [subtree_eq, List.filterMap_cons, List.filterMap_flatMap]
  cases n.read? <;> rfl

theorem mem_reads : x ∈ n.reads ↔ ∃ m ∈ n.subtree, m.read? = some x := List.mem_filterMap

theorem reads_subset_of_mem (below : m ∈ n.subtree) : m.reads ⊆ n.reads := by
  intro x mem
  obtain ⟨k, inside, reads⟩ := mem_reads.mp mem
  exact mem_reads.mpr ⟨k, subtree_trans below inside, reads⟩

theorem reads_subset_of_child (child : c ∈ n.children) : c.reads ⊆ n.reads :=
  reads_subset_of_mem (mem_subtree_of_child child mem_subtree_self)

/-- Nodes of one label read one local themselves, if any. -/
theorem read?_of_label (label : out.label = n.label) : out.read? = n.read? := by
  cases n <;> cases out <;> simp only [Node.label, Label.expr.injEq, reduceCtorEq] at label <;>
    try rfl
  next e e' =>
    show e'.read? = e.read?
    unfold Expr.read?
    rw [Expr.isTypeName_of_blank label.1 label.2, Expr.localName?_of_blank label.2]

end Node

/-! ## Regions -/

namespace Region

/-- Both regions are among the members of a class, or both are in code. -/
def SameKind (r r' : Region) : Prop := r = members ↔ r' = members

/-- A region of the kind that a node below these nodes stands in. -/
def below (above : List Node) : Region := above.foldr (fun n r => n.label.region r) (code [])

/-- In the second region, with what is in scope around it, is all that is in scope in the first. -/
structure Wider (outer : List String) (r : Region) (outer' : List String) (r' : Region) : Prop where
  kind : r.SameKind r'
  names : ∀ x ∈ outer ++ r.names, x ∈ outer' ++ r'.names

variable {outer outer' : List String} {r r' : Region} {label : Node.Label}

theorem declaring_members {names : List String} : r.declaring names = members ↔ r = members := by
  cases r <;> simp [declaring]

theorem SameKind.declaring (h : r.SameKind r') (names names' : List String) :
    (r.declaring names).SameKind (r'.declaring names') := by
  unfold SameKind
  rwa [declaring_members, declaring_members]

theorem SameKind.region (h : r.SameKind r') (label : Node.Label) :
    (label.region r).SameKind (label.region r') := by
  have inner : r.inner.SameKind r'.inner := by cases r <;> cases r' <;> simp [SameKind, Region.inner]
  cases label with
  | stmt form => cases form <;> first | exact inner | exact h | exact Iff.rfl
  | unit => exact Iff.rfl
  | cls => exact Iff.rfl
  | _ => exact h

theorem mem_declaring {names : List String} {x : String} (inCode : r ≠ members) :
    x ∈ (r.declaring names).names ↔ x ∈ r.names ∨ x ∈ names := by
  cases r with
  | members => exact (inCode rfl).elim
  | code locals => exact List.mem_append

theorem names_declaring (r : Region) (names : List String) : r.names ⊆ (r.declaring names).names := by
  cases r with
  | members => exact List.nil_subset _
  | code locals => exact List.subset_append_left _ _

namespace Wider

theorem refl (outer : List String) (r : Region) : Wider outer r outer r := ⟨Iff.rfl, fun _ h => h⟩

theorem declaring (h : Wider outer r outer' r') (names : List String) :
    Wider outer (r.declaring names) outer' (r'.declaring names) where
  kind := h.kind.declaring names names
  names x mem := by
    cases r with
    | members =>
      cases h.kind.mp rfl
      exact h.names x mem
    | code locals =>
      cases r' with
      | members => cases h.kind.mpr rfl
      | code locals' =>
        show x ∈ outer' ++ (locals' ++ names)
        rw [← List.append_assoc]
        have mem : x ∈ outer ++ (locals ++ names) := mem
        rw [← List.append_assoc] at mem
        exact (List.mem_append.mp mem).elim (fun mem => List.mem_append_left _ (h.names x mem))
          (List.mem_append_right _)

/-- More around. -/
theorem around (outer more : List String) (r : Region) : Wider outer r (outer ++ more) r where
  kind := Iff.rfl
  names _ mem := (List.mem_append.mp mem).elim
    (fun mem => List.mem_append_left _ (List.mem_append_left _ mem)) (List.mem_append_right _)

/-- More names behind. -/
theorem declaring_more (h : Wider outer r outer' r') {names names' : List String}
    (more : names ⊆ names') : Wider outer (r.declaring names) outer' (r'.declaring names') where
  kind := h.kind.declaring names names'
  names x mem := by
    have wide := (h.declaring names).names x mem
    cases r' with
    | members => exact wide
    | code locals =>
      simp only [Region.declaring, Region.names, List.mem_append] at wide ⊢
      exact wide.imp_right fun mem => mem.imp_right (@more x)

theorem region (h : Wider outer r outer' r') (label : Node.Label) :
    Wider (outer ++ r.names) (label.region r) (outer' ++ r'.names) (label.region r') where
  kind := h.kind.region label
  names x mem := by
    have around (mem : x ∈ r.names) : x ∈ outer' ++ r'.names := h.names x (List.mem_append_right _ mem)
    have inner (mem : x ∈ r.inner.names) : x ∈ r.names := by
      cases r with
      | members => cases mem
      | code locals => exact mem
    rcases List.mem_append.mp mem with mem | mem
    · exact List.mem_append_left _ (h.names x mem)
    · cases label with
      | stmt form =>
        cases form with
        | method head body => exact List.mem_append_right _ mem
        | cls head body => cases mem
        | declare decl => exact List.mem_append_left _ (around mem)
        | _ => exact List.mem_append_left _ (around (inner mem))
      | unit => cases mem
      | cls => cases mem
      | _ => exact List.mem_append_left _ (around mem)

end Wider

end Region

/-! ## Closed trees -/

namespace Node

variable {outer outer' : List String} {r r' : Region} {n c out : Node} {x : String}

/-- Is every local that is read in the tree in scope in its region, or named in `outer`, which is
what is in scope around the region? -/
def isClosed (outer : List String) (r : Region) (n : Node) : Bool :=
  n.read?.all (outer ++ r.names).contains &&
    (n.scopes r).attach.all fun ⟨p, _⟩ => p.2.isClosed (outer ++ r.names) p.1
termination_by sizeOf n
decreasing_by exact sizeOf_lt_of_mem_children (mem_children_of_scopes ‹_›)

/-- Every local that is read in the tree is in scope. -/
abbrev Closed (outer : List String) (r : Region) (n : Node) : Prop := n.isClosed outer r = true

theorem closed_iff : n.Closed outer r ↔
    (∀ x ∈ n.read?, x ∈ outer ++ r.names) ∧ ∀ p ∈ n.scopes r, p.2.Closed (outer ++ r.names) p.1 := by
  rw [Closed, isClosed]
  simp [Option.all_eq_true]

theorem Closed.below (h : n.Closed outer r) {p : Region × Node} (mem : p ∈ n.scopes r) :
    p.2.Closed (outer ++ r.names) p.1 :=
  (closed_iff.mp h).2 p mem

/-- A tree that is closed stays so where more is in scope. -/
theorem Closed.wider (h : n.Closed outer r) (wider : Region.Wider outer r outer' r') :
    n.Closed outer' r' := by
  induction n using inductionOn generalizing outer outer' r r' with
  | step n ih =>
    refine closed_iff.mpr ⟨fun x reads => wider.names x ((closed_iff.mp h).1 x reads), fun p' mem' => ?_⟩
    have grows : ∀ s s' names, Region.Wider (outer ++ r.names) s (outer' ++ r'.names) s' →
        Region.Wider (outer ++ r.names) (s.declaring names) (outer' ++ r'.names) (s'.declaring names) :=
      fun _ _ names wider => wider.declaring names
    have related : List.Forall₂ (fun p p' =>
        Region.Wider (outer ++ r.names) p.1 (outer' ++ r'.names) p'.1 ∧ p.2 = p'.2)
        (n.scopes r) (n.scopes r') :=
      scopes_related grows (wider.region n.label) rfl (List.forall₂_same.mpr fun _ _ => ⟨rfl, rfl⟩)
    obtain ⟨p, mem, sees, same⟩ := exists_of_forall₂ related mem'
    have below := mem_children_of_scopes mem'
    rw [← same] at below ⊢
    exact ih p.2 below (h.below mem) sees

/-- A tree that is closed stays so behind more declarations. -/
theorem Closed.behind (h : n.Closed outer r) (names : List String) :
    n.Closed outer (r.declaring names) := by
  have wider := (Region.Wider.refl outer r).declaring_more (List.nil_subset names)
  rw [Region.declaring_nil] at wider
  exact h.wider wider

/-- A tree is closed if all that it reads is in scope around it. -/
theorem closed_of_reads (reads : ∀ x ∈ n.reads, x ∈ outer ++ r.names) : n.Closed outer r := by
  induction n using inductionOn generalizing outer r with
  | step n ih =>
    refine closed_iff.mpr ⟨fun x here => reads x ?_, fun p mem => ?_⟩
    · rw [reads_eq]
      exact List.mem_append_left _ (Option.mem_toList.mpr here)
    · have child := mem_children_of_scopes mem
      refine ih p.2 child fun x below => ?_
      exact List.mem_append_left _ (reads x (reads_subset_of_child child below))

/-! ## Nodes in turn -/

/-- Nodes in turn, each closed where it stands. -/
def ClosedInTurn (outer : List String) (r : Region) (nodes : List Node) : Prop :=
  ∀ p ∈ r.inTurn nodes, p.2.Closed outer p.1

theorem closedInTurn_nil : ClosedInTurn outer r [] := fun _ none => (List.not_mem_nil none).elim

theorem closedInTurn_cons {rest : List Node} : ClosedInTurn outer r (n :: rest) ↔
    n.Closed outer r ∧ ClosedInTurn outer (r.declaring n.declares) rest := by
  unfold ClosedInTurn
  rw [Region.inTurn, List.forall_mem_cons]

theorem closedInTurn_append {nodes more : List Node} : ClosedInTurn outer r (nodes ++ more) ↔
    ClosedInTurn outer r nodes ∧ ClosedInTurn outer (r.declaring (nodes.flatMap declares)) more := by
  unfold ClosedInTurn
  rw [Region.inTurn_append, List.forall_mem_append]

theorem ClosedInTurn.wider {nodes : List Node} (h : ClosedInTurn outer r nodes)
    (wider : Region.Wider outer r outer' r') : ClosedInTurn outer' r' nodes := by
  induction nodes generalizing r r' with
  | nil => exact closedInTurn_nil
  | cons n rest ih =>
    obtain ⟨first, others⟩ := closedInTurn_cons.mp h
    exact closedInTurn_cons.mpr ⟨first.wider wider, ih others (wider.declaring n.declares)⟩

/-- Nodes that only read what is in scope are closed where they stand. -/
theorem closedInTurn_of_reads {nodes : List Node}
    (reads : ∀ n ∈ nodes, ∀ x ∈ n.reads, x ∈ outer ++ r.names) : ClosedInTurn outer r nodes := by
  induction nodes generalizing r with
  | nil => exact closedInTurn_nil
  | cons n rest ih =>
    refine closedInTurn_cons.mpr
      ⟨closed_of_reads (reads n List.mem_cons_self), ih fun m mem x read => ?_⟩
    rcases List.mem_append.mp (reads m (List.mem_cons_of_mem _ mem) x read) with around | here
    · exact List.mem_append_left _ around
    · exact List.mem_append_right _ (r.names_declaring _ here)

/-- What is in scope in a region and around it does not change if the region counts as around it. -/
theorem closedInTurn_around {nodes : List Node} :
    ClosedInTurn (outer ++ r.names) r nodes ↔ ClosedInTurn outer r nodes := by
  constructor
  · exact fun h => h.wider ⟨Iff.rfl, fun x mem => (List.mem_append.mp mem).elim (fun mem => mem)
      (List.mem_append_right _)⟩
  · exact fun h => h.wider (.around outer r.names r)

theorem closed_block {b : Block} :
    (block b).Closed outer r ↔ ClosedInTurn outer r (b.stmts.map stmt) := by
  have groups : (block b).groups = [b.stmts.map stmt] := rfl
  rw [← closedInTurn_around, closed_iff, scopes, groups, List.flatMap_singleton]
  exact and_iff_right fun x none => (Option.not_mem_none x none).elim

/-- A statement that is a block. -/
theorem closed_stmt_block {id : NodeId} {b : Block} (closed : (block b).Closed outer r.inner) :
    (stmt ⟨id, .block b⟩).Closed outer r :=
  closed_iff.mpr ⟨(fun x none => (Option.not_mem_none x none).elim),
    List.forall_mem_singleton.mpr (closed.wider (.around outer r.names r.inner))⟩

/-- A `try` with one clause, in code. -/
theorem closed_try {id : NodeId} {body : Block} {clause : CatchClause Variable Block}
    {locals : List String} (closed : (block body).Closed outer (.code locals))
    (parameter : clause.parameter.init = none)
    (handler : (block clause.body).Closed outer (.code (locals ++ [clause.parameter.name]))) :
    (stmt ⟨id, .tryCatch [] body [clause] none⟩).Closed outer (.code locals) := by
  have silent : (var clause.parameter).Closed (outer ++ locals) (.code locals) := by
    refine closed_iff.mpr ⟨(fun x none => (Option.not_mem_none x none).elim), fun p mem => ?_⟩
    have child := mem_children_of_scopes mem
    rw [children, parameter] at child
    cases child
  refine closed_iff.mpr ⟨(fun x none => (Option.not_mem_none x none).elim), ?_⟩
  exact List.forall_mem_cons.mpr ⟨closed.wider (.around _ _ _),
    List.forall_mem_cons.mpr ⟨silent, List.forall_mem_singleton.mpr (handler.wider (.around _ _ _))⟩⟩

/-! ## Expressions -/

/-- In an expression, all stands in the region of the expression. -/
theorem scopes_expr (r : Region) (e : Expr) :
    (expr e).scopes r = e.children.map fun c => (r, expr c) := by
  have silent (exprs : List Expr) (r : Region) :
      r.inTurn (exprs.map expr) = exprs.map fun c => (r, expr c) := by
    induction exprs with
    | nil => rfl
    | cons first rest ih =>
      rw [List.map_cons, Region.inTurn]
      exact congrArg (_ :: ·) ((congrArg (Region.inTurn · _) r.declaring_nil).trans ih)
  have groups : (expr e).groups = [e.children.map expr] := rfl
  rw [scopes, groups, List.flatMap_singleton]
  exact silent e.children r

/-- An expression is closed if and only if all that it reads is in scope. -/
theorem closed_expr {e : Expr} :
    (expr e).Closed outer r ↔ ∀ x ∈ (expr e).reads, x ∈ outer ++ r.names := by
  refine ⟨fun closed => ?_, closed_of_reads⟩
  generalize at_ : expr e = n at closed
  induction n using inductionOn generalizing e outer with
  | step n ih =>
    subst at_
    intro x mem
    rw [reads_eq] at mem
    rcases List.mem_append.mp mem with here | below
    · exact (closed_iff.mp closed).1 x (Option.mem_toList.mp here)
    · obtain ⟨c, child, mem⟩ := List.mem_flatMap.mp below
      obtain ⟨sub, inside, rfl⟩ := List.mem_map.mp child
      have stands : (r, expr sub) ∈ (expr e).scopes r := by
        rw [scopes_expr]
        exact List.mem_map_of_mem inside
      exact (List.mem_append.mp (ih (expr sub) child rfl (closed.below stands) x mem)).elim
        (fun mem => mem) (List.mem_append_right _)

/-! ## What stays closed -/

/-- What is known of the region that a node stands in, below the nodes `above`, and of what is in
scope around it. -/
abbrev Place := List Node → List String → Region → Prop

/-- What is known of a place is known of the places of the children. -/
def Place.Inherited (known : Place) : Prop :=
  ∀ above n outer r, known above outer r → ∀ p ∈ n.scopes r, known (n :: above) (outer ++ r.names) p.1

/-- The region is of the kind that the nodes above give it. -/
def Place.ofKind : Place := fun above _ r => r.SameKind (.below above)

/-- The name is in scope. -/
def Place.naming (x : String) : Place := fun _ outer r => x ∈ outer ++ r.names

def Place.any : Place := fun _ _ _ => True

theorem Place.inherited_ofKind : Place.ofKind.Inherited := by
  intro above n outer r kind p mem
  obtain ⟨group, -, mem⟩ := List.mem_flatMap.mp mem
  obtain ⟨front, back, -, region⟩ := Region.split_inTurn mem
  have own := (kind.region n.label).declaring (front.flatMap declares) []
  rw [← region, Region.declaring_nil] at own
  exact own

theorem Place.inherited_naming (x : String) : (Place.naming x).Inherited :=
  fun _ _ _ _ known _ _ => List.mem_append_left _ known

theorem Place.inherited_any : Place.any.Inherited := fun _ _ _ _ _ _ _ => trivial

/-- In such a place, the second node can stand in the place of the first. -/
structure StaysClosed (known : Place) (above : List Node) (n out : Node) : Prop where
  declares : out.declares = n.declares
  closed : ∀ outer r, known above outer r → n.Closed outer r → out.Closed outer r

theorem StaysClosed.refl (known : Place) (above : List Node) (n : Node) : StaysClosed known above n n :=
  ⟨rfl, fun _ _ _ closed => closed⟩

theorem StaysClosed.refilled {known : Place} (inherited : known.Inherited) {above : List Node}
    {news : List Node} (refilled : n.Refilled out news)
    (children : List.Forall₂ (StaysClosed known (n :: above)) n.children news) :
    StaysClosed known above n out := by
  obtain ⟨rfl, label⟩ := refilled
  refine ⟨declares_refilled label (children.imp fun _ _ stays => stays.declares),
    fun outer r here closed => closed_iff.mpr ⟨fun x reads => ?_, fun p' mem' => ?_⟩⟩
  · rw [read?_of_label label] at reads
    exact (closed_iff.mp closed).1 x reads
  · have related := scopes_related (fun r r' names => congrArg (Region.declaring · names))
      (Eq.refl (n.label.region r)) label
      (children.imp fun _ _ stays => And.intro stays stays.declares)
    obtain ⟨p, mem, region, stays⟩ := exists_of_forall₂ related mem'
    rw [← region]
    exact stays.closed _ _ (inherited above n outer r here p mem) (closed.below mem)

/-- Wherever that is known, the second node can stand in the place of the first. -/
def StandsFor (known : Place) (n out : Node) : Prop := ∀ above, StaysClosed known above n out

theorem StandsFor.refl (known : Place) (n : Node) : StandsFor known n n :=
  fun above => .refl known above n

theorem StandsFor.refilled {known : Place} (inherited : known.Inherited) (n out : Node)
    (news : List Node) (refilled : n.Refilled out news)
    (children : List.Forall₂ (StandsFor known) n.children news) : StandsFor known n out :=
  fun above => .refilled inherited refilled (children.imp fun _ _ stays => stays (n :: above))

/-- An expression that reads no more can stand in the place of another one. -/
theorem StaysClosed.expr {known : Place} {above : List Node} {e new : Expr}
    (reads : (Node.expr new).reads ⊆ (Node.expr e).reads) :
    StaysClosed known above (.expr e) (.expr new) :=
  ⟨rfl, fun _ _ _ closed => closed_expr.mpr fun _ mem => closed_expr.mp closed _ (reads mem)⟩

end Node

end JavaMend
