import JavaMend.Proofs.Tree.Lens
import JavaMend.Proofs.Tree.Places
import JavaMend.Proofs.Tree.Sound
import JavaMend.Traversal.Scope

/-!
# Locals and their scopes

A local, a loop variable, a resource or the parameter of a catch clause may not be
declared where another local or a parameter of its name is in scope
(`Node.WellScoped`). What is in scope somewhere in a tree is a `Region`, and
`Node.scopes` says in which region the children of a node stand: methods,
initializers and classes start afresh, blocks and loops add what they declare.

The regions of the children follow from the label of the node and from the names that
the children declare (`Node.scopes_refilled`). Below a statement or a block no more is
in scope than around it and what the node is known to bring in, `Node.bindings`
(`Node.scopes_names`).
-/

namespace JavaMend

/-! ## Regions -/

/-- What is in scope at a place: in code some locals and parameters. In the body of a
class there are none, and what is declared there are fields. -/
inductive Region where
  | members
  | code (locals : List String)
deriving DecidableEq

namespace Region

/-- The names that no local may be declared with. -/
def names : Region → List String
  | members => []
  | code locals => locals

/-- The region after a declaration of some names. -/
def declaring (r : Region) (more : List String) : Region :=
  match r with
  | members => members
  | code locals => code (locals ++ more)

/-- The region in a statement. One that stands in the body of a class is an
initializer. -/
def inner : Region → Region
  | members => code []
  | code locals => code locals

end Region

/-- The names that are in scope behind a node. -/
def Node.declares : Node → List String
  | stmt s => s.declaredNames
  | var v => [v.name]
  | _ => []

/-- The nodes of a list with their regions, where each stands behind those before it. -/
def Region.inTurn (r : Region) : List Node → List (Region × Node)
  | [] => []
  | n :: rest => (r, n) :: (r.declaring n.declares).inTurn rest

/-- The children of a statement in groups. Each stands behind those before it in its
group, and behind no others. -/
def Stmt.groups (s : Stmt) : List (List Node) :=
  match s.form with
  | .ifElse _ _ _ => s.children.map ([·])
  | .tryCatch resources body catches finish =>
    (resources.flatMap (·.children) ++ [.block body]) :: catches.map (·.children) ++
      finish.toList.map ([.block ·])
  | _ => [s.children]

/-- The region that a node of some label opens for its children. -/
def Node.Label.region (r : Region) : Node.Label → Region
  | .unit _ _ => .members
  | .cls _ => .members
  | .stmt (.cls _ _) => .members
  | .stmt (.method head _) => .code (head.params.map (·.name))
  | .stmt (.declare _) => r
  | .stmt _ => r.inner
  | _ => r

namespace Node

/-- The children of a node in groups. -/
def groups : Node → List (List Node)
  | stmt s => s.groups
  | n => [n.children]

/-- The children of a node that stands in a region, with their own regions. -/
def scopes (r : Region) (n : Node) : List (Region × Node) :=
  n.groups.flatMap (n.label.region r).inTurn

theorem groups_flatten (n : Node) : n.groups.flatten = n.children := by
  cases n with
  | stmt s =>
    obtain ⟨id, form⟩ := s
    cases form with
    | ifElse condition onTrue onFalse =>
      simp only [groups, Stmt.groups, ← List.flatMap_def, ← List.map_eq_flatMap, List.map_id']
      rfl
    | tryCatch resources body catches finish =>
      simp [groups, Stmt.groups, children, Stmt.children, ← List.flatMap_def, ← List.map_eq_flatMap]
    | _ => simp [groups, Stmt.groups, children]
  | _ => simp [groups]

end Node

namespace Region

variable {r : Region}

theorem declaring_nil (r : Region) : r.declaring [] = r := by
  cases r with
  | members => rfl
  | code locals => rw [declaring, List.append_nil]

theorem declaring_declaring (r : Region) (some more : List String) :
    (r.declaring some).declaring more = r.declaring (some ++ more) := by
  cases r with
  | members => rfl
  | code locals => simp only [declaring, List.append_assoc]

theorem mem_names_declaring {more : List String} {x : String} (mem : x ∈ (r.declaring more).names) :
    x ∈ r.names ∨ x ∈ more := by
  cases r with
  | members => cases mem
  | code locals => exact List.mem_append.mp mem

theorem inTurn_nodes (r : Region) (nodes : List Node) : (r.inTurn nodes).map (·.2) = nodes := by
  induction nodes generalizing r with
  | nil => rfl
  | cons n rest ih => rw [inTurn, List.map_cons, ih]

theorem inTurn_append (r : Region) (nodes more : List Node) :
    r.inTurn (nodes ++ more) =
      r.inTurn nodes ++ (r.declaring (nodes.flatMap Node.declares)).inTurn more := by
  induction nodes generalizing r with
  | nil => rw [List.flatMap_nil, declaring_nil]; rfl
  | cons n rest ih =>
    rw [List.cons_append, inTurn, ih, inTurn, List.flatMap_cons, declaring_declaring]
    rfl

/-- A node that stands in turn stands behind those before it. -/
theorem split_inTurn {nodes : List Node} {p : Region × Node} (mem : p ∈ r.inTurn nodes) :
    ∃ front back, nodes = front ++ p.2 :: back ∧
      p.1 = r.declaring (front.flatMap Node.declares) := by
  induction nodes generalizing r with
  | nil => cases mem
  | cons n rest ih =>
    rw [inTurn, List.mem_cons] at mem
    rcases mem with rfl | mem
    · exact ⟨[], rest, rfl, (declaring_nil r).symm⟩
    · obtain ⟨front, back, rfl, region⟩ := ih mem
      refine ⟨n :: front, back, rfl, ?_⟩
      rw [region, declaring_declaring, List.flatMap_cons]

end Region

namespace Node

variable {r : Region} {n : Node}

theorem scopes_nodes (r : Region) (n : Node) : (n.scopes r).map (·.2) = n.children := by
  unfold scopes
  rw [List.map_flatMap, ← groups_flatten, List.flatten_eq_flatMap]
  exact List.flatMap_congr fun group _ => Region.inTurn_nodes _ group

theorem mem_children_of_scopes {p : Region × Node} (mem : p ∈ n.scopes r) : p.2 ∈ n.children := by
  rw [← n.scopes_nodes r]
  exact List.mem_map_of_mem mem

/-! ## Well-scoped trees -/

/-- Is no variable of the tree declared where its name is in scope? -/
def isWellScoped (r : Region) (n : Node) : Bool :=
  n.var?.all (fun v => !r.names.contains v.name) &&
    (n.scopes r).attach.all fun ⟨p, _⟩ => p.2.isWellScoped p.1
termination_by sizeOf n
decreasing_by exact sizeOf_lt_of_mem_children (mem_children_of_scopes ‹_›)

/-- No variable of the tree is declared where its name is in scope. -/
abbrev WellScoped (r : Region) (n : Node) : Prop := n.isWellScoped r = true

theorem wellScoped_iff : n.WellScoped r ↔
    (∀ v, n = .var v → v.name ∉ r.names) ∧ ∀ p ∈ n.scopes r, p.2.WellScoped p.1 := by
  rw [WellScoped, isWellScoped]
  cases n <;> simp [var?]

theorem WellScoped.below (h : n.WellScoped r) {p : Region × Node} (mem : p ∈ n.scopes r) :
    p.2.WellScoped p.1 :=
  (wellScoped_iff.mp h).2 p mem

/-- An expression declares nothing. -/
theorem wellScoped_expr (r : Region) (e : Expr) : (Node.expr e).WellScoped r := by
  generalize at_ : Node.expr e = n
  induction n using inductionOn generalizing e r with
  | step n ih =>
    subst at_
    refine wellScoped_iff.mpr ⟨nofun, fun p mem => ?_⟩
    have below := mem_children_of_scopes mem
    obtain ⟨sub, -, same⟩ := List.mem_map.mp below
    exact ih p.2 below p.1 sub same

end Node

/-! ## What the regions of the children depend on -/

/-- Statements of one label with as many children have groups of the same sizes. -/
theorem Stmt.groups_sizes {s s' : Stmt} (label : s'.form.blank = s.form.blank)
    (same : s.children.length = s'.children.length) :
    s.groups.map List.length = s'.groups.map List.length := by
  have declared (decls : List (Declaration Variable)) : (decls.flatMap (·.children)).length =
      ((decls.map (·.map fun _ => ())).map (·.vars.length)).sum := by
    simp [List.length_flatMap, Declaration.children, Declaration.map, Function.comp_def]
  obtain ⟨id, form⟩ := s
  obtain ⟨id', form'⟩ := s'
  cases form <;> cases form' <;> simp only [StmtForm.blank, reduceCtorEq] at label
  case ifElse => simpa [groups, Function.comp_def] using same
  case tryCatch resources body catches finish resources' body' catches' finish' =>
    obtain ⟨blanks, -, clauses, last⟩ := StmtForm.tryCatch.inj label
    have resourced : (resources.flatMap (·.children)).length =
        (resources'.flatMap (·.children)).length := by rw [declared, declared, blanks]
    have caught : catches.length = catches'.length := by
      simpa using (congrArg List.length clauses).symm
    have finished : finish.toList.length = finish'.toList.length := by
      cases finish <;> cases finish' <;> simp at last ⊢
    simp [groups, CatchClause.children, Function.comp_def, resourced, caught, finished]
  all_goals exact congrArg (fun size => [size]) same

namespace Node

variable {r : Region} {n : Node}

/-- Lists that are cut at the same places are related part by part. -/
theorem forall₂_of_flatten {α β : Type} {R : α → β → Prop} {as : List (List α)} {bs : List (List β)}
    (sizes : as.map List.length = bs.map List.length) (related : List.Forall₂ R as.flatten bs.flatten) :
    List.Forall₂ (List.Forall₂ R) as bs := by
  induction as generalizing bs with
  | nil =>
    cases List.map_eq_nil_iff.mp sizes.symm
    exact .nil
  | cons a as ih =>
    obtain ⟨b, bs, rfl, size, sizes⟩ := List.map_eq_cons_iff.mp sizes.symm
    rw [List.flatten_cons, List.flatten_cons] at related
    refine .cons ?_ (ih sizes.symm ?_)
    · have first := List.forall₂_take a.length related
      rwa [List.take_left, ← size, List.take_left] at first
    · have rest := List.forall₂_drop a.length related
      rwa [List.drop_left, ← size, List.drop_left] at rest

variable {keeps : Node → Node → Prop} {out : Node}

/-- Nodes of one label whose children are related have related groups. -/
theorem groups_refilled (label : out.label = n.label)
    (children : List.Forall₂ keeps n.children out.children) :
    List.Forall₂ (List.Forall₂ keeps) n.groups out.groups := by
  have same := children.length_eq
  rw [← groups_flatten, ← groups_flatten] at children
  refine forall₂_of_flatten ?_ children
  cases n <;> cases out <;> simp only [Node.label, reduceCtorEq, Label.stmt.injEq] at label
  case stmt s s' => exact Stmt.groups_sizes label same
  all_goals exact congrArg (fun size => [size]) same

/-- What the children declare, taken together. -/
theorem flatMap_declares {nodes news : List Node}
    (same : List.Forall₂ (fun c c' => c'.declares = c.declares) nodes news) :
    news.flatMap declares = nodes.flatMap declares := by
  induction same with
  | nil => rfl
  | cons same _ ih => rw [List.flatMap_cons, List.flatMap_cons, same, ih]

theorem flatMap_declares_resources (resources : List (Declaration Variable)) :
    (resources.flatMap (·.children)).flatMap declares =
      resources.flatMap fun decl => decl.vars.map (·.name) := by
  simp [Declaration.children, List.flatMap_assoc, List.flatMap_map, declares, ← List.map_eq_flatMap]

theorem flatMap_declares_clauses (clauses : List (CatchClause Variable Block)) :
    (clauses.flatMap (·.children)).flatMap declares = clauses.map (·.parameter.name) := by
  simp [CatchClause.children, List.flatMap_assoc, declares, ← List.map_eq_flatMap]

theorem flatMap_declares_blocks (blocks : List Block) : (blocks.map block).flatMap declares = [] :=
  List.flatMap_eq_nil_iff.mpr fun _ mem => by
    obtain ⟨b, -, rfl⟩ := List.mem_map.mp mem
    rfl

/-- What a node declares follows from its label and its children. -/
theorem declares_refilled (label : out.label = n.label)
    (children : List.Forall₂ (fun c c' => c'.declares = c.declares) n.children out.children) :
    out.declares = n.declares := by
  cases n <;> cases out <;> simp only [Node.label, reduceCtorEq, Label.stmt.injEq, Label.var.injEq] at label
  case stmt s s' =>
    obtain ⟨id, form⟩ := s
    obtain ⟨id', form'⟩ := s'
    cases form <;> cases form' <;> simp only [StmtForm.blank, reduceCtorEq] at label
    case declare decl decl' =>
      have same := flatMap_declares children
      simpa [children, Node.children, Stmt.children, Declaration.children, List.flatMap_map, declares,
        ← List.map_eq_flatMap, Stmt.declaredNames] using same
    all_goals rfl
  case var => exact congrArg (fun name => [name]) label.1
  all_goals rfl

/-- What a node brings in for its children follows from its label and its children. -/
theorem bindings_refilled (label : out.label = n.label)
    (children : List.Forall₂ (fun c c' => c'.declares = c.declares) n.children out.children) :
    out.bindings = n.bindings := by
  cases n <;> cases out <;> simp only [Node.label, reduceCtorEq, Label.stmt.injEq] at label
  case block b b' =>
    have same := flatMap_declares children
    rwa [Node.children, Node.children, List.flatMap_map, List.flatMap_map] at same
  case stmt s s' =>
    obtain ⟨id, form⟩ := s
    obtain ⟨id', form'⟩ := s'
    cases form <;> cases form' <;> simp only [StmtForm.blank, reduceCtorEq] at label
    case forLoop init _ _ _ init' _ _ _ =>
      obtain ⟨inits, -, -⟩ := StmtForm.forLoop.inj label
      have size : init'.length = init.length := by simpa using congrArg List.length inits
      have first := List.forall₂_take (init.map Node.stmt).length children
      simp only [Node.children, Stmt.children, List.append_assoc, List.take_left] at first
      rw [List.length_map, ← size, ← List.length_map (f := Node.stmt), List.take_left] at first
      have same := flatMap_declares first
      rwa [List.flatMap_map, List.flatMap_map] at same
    case forEach =>
      exact (List.forall₂_cons.mp children).1
    case tryCatch resources body catches finish resources' body' catches' finish' =>
      have same := flatMap_declares children
      simp only [Node.children, Stmt.children, List.flatMap_append, List.flatMap_singleton,
        flatMap_declares_resources, flatMap_declares_clauses, flatMap_declares_blocks,
        List.append_nil, declares] at same
      exact same
    case method head body head' body' =>
      rw [(StmtForm.method.inj label).1]
      rfl
    all_goals rfl
  all_goals rfl

end Node

namespace Region

variable {sees : Region → Region → Prop} {keeps : Node → Node → Prop}

/-- Nodes in turn that declare the same stand in related regions, if declarations keep
regions related. -/
theorem inTurn_related (declaring : ∀ r r' names, sees r r' →
      sees (r.declaring names) (r'.declaring names)) {r r' : Region} (related : sees r r')
    {nodes news : List Node}
    (each : List.Forall₂ (fun c c' => keeps c c' ∧ c'.declares = c.declares) nodes news) :
    List.Forall₂ (fun p p' => sees p.1 p'.1 ∧ keeps p.2 p'.2) (r.inTurn nodes) (r'.inTurn news) := by
  induction each generalizing r r' with
  | nil => exact .nil
  | cons first _ ih =>
    rw [inTurn, inTurn, first.2]
    exact .cons ⟨related, first.1⟩ (ih (declaring _ _ _ related))

end Region

namespace Node

variable {sees : Region → Region → Prop} {keeps : Node → Node → Prop} {n out : Node}
  {r r' : Region}

theorem scopes_related (declaring : ∀ r r' names, sees r r' →
      sees (r.declaring names) (r'.declaring names))
    (related : sees (n.label.region r) (n.label.region r')) (label : out.label = n.label)
    (children : List.Forall₂ (fun c c' => keeps c c' ∧ c'.declares = c.declares) n.children
      out.children) :
    List.Forall₂ (fun p p' => sees p.1 p'.1 ∧ keeps p.2 p'.2) (n.scopes r) (out.scopes r') := by
  unfold scopes
  rw [label]
  exact List.rel_flatMap (groups_refilled label children)
    fun _ _ group => Region.inTurn_related declaring related group

/-- A node that is rebuilt around children that are well-scoped where the old ones stood
is well-scoped where it stood. -/
theorem WellScoped.refilled (stands : Region → Node → Prop) (h : n.WellScoped r)
    (label : out.label = n.label) (all : ∀ p ∈ n.scopes r, stands p.1 p.2)
    (children : List.Forall₂ (fun c c' => (∀ r, stands r c → c.WellScoped r → c'.WellScoped r) ∧
      c'.declares = c.declares) n.children out.children) : out.WellScoped r := by
  refine wellScoped_iff.mpr ⟨fun v at_ => ?_, fun p' mem' => ?_⟩
  · subst at_
    cases n <;> simp only [Node.label, reduceCtorEq, Label.var.injEq] at label
    exact label.1 ▸ (wellScoped_iff.mp h).1 _ rfl
  · have same : ∀ r r' names, r = r' → Region.declaring r names = r'.declaring names :=
      fun _ _ names => congrArg (Region.declaring · names)
    have related := scopes_related same (Eq.refl (n.label.region r)) label children
    obtain ⟨p, mem, region, each⟩ := exists_of_forall₂ related mem'
    rw [← region]
    exact each _ (all p mem) (h.below mem)

/-! ## One more name -/

end Node

/-- The second region is the first one with at most one more name in scope. -/
inductive Region.Adds (x : String) : Region → Region → Prop where
  | members : Adds x .members .members
  | code {locals locals' : List String} (names : ∀ y ∈ locals', y ∈ locals ∨ y = x) :
    Adds x (.code locals) (.code locals')

namespace Region.Adds

variable {x : String} {r r' : Region}

theorem names (h : r.Adds x r') : ∀ y ∈ r'.names, y ∈ r.names ∨ y = x := by
  cases h with
  | members => nofun
  | code names => exact names

theorem refl (x : String) (r : Region) : r.Adds x r := by
  cases r with
  | members => exact .members
  | code locals => exact .code fun _ => .inl

theorem declaring_self (x : String) (r : Region) : r.Adds x (r.declaring [x]) := by
  cases r with
  | members => exact .members
  | code locals => exact .code fun y mem => by simpa using mem

theorem declaring (h : r.Adds x r') (more : List String) :
    (r.declaring more).Adds x (r'.declaring more) := by
  cases h with
  | members => exact .members
  | code names =>
    refine .code fun y mem => ?_
    rcases List.mem_append.mp mem with mem | mem
    · exact (names y mem).imp_left (List.mem_append_left _)
    · exact .inl (List.mem_append_right _ mem)

theorem region (h : r.Adds x r') (label : Node.Label) : (label.region r).Adds x (label.region r') := by
  have inner : r.inner.Adds x r'.inner := by
    cases h with
    | members => exact refl _ _
    | code names => exact .code names
  cases label with
  | stmt form => cases form <;> first | exact inner | exact h | exact refl _ _
  | unit => exact refl _ _
  | cls => exact refl _ _
  | _ => exact h

end Region.Adds

namespace Node

variable {x : String} {n c : Node} {r r' : Region}

theorem mem_declaredNames : x ∈ n.declaredNames ↔ ∃ v, .var v ∈ n.subtree ∧ v.name = x := by
  unfold declaredNames
  rw [List.mem_filterMap]
  constructor
  · rintro ⟨m, mem, name⟩
    cases m with
    | var v => exact ⟨v, mem, Option.some.inj name⟩
    | _ => cases name
  · rintro ⟨v, mem, rfl⟩
    exact ⟨.var v, mem, rfl⟩

theorem mem_declaredNames_of_child (mem : c ∈ n.children) (declared : x ∈ c.declaredNames) :
    x ∈ n.declaredNames := by
  obtain ⟨v, below, name⟩ := mem_declaredNames.mp declared
  exact mem_declaredNames.mpr ⟨v, mem_subtree_of_child mem below, name⟩

/-- One more name in scope does not matter to a tree that does not declare it. -/
theorem WellScoped.adds (h : n.WellScoped r) (adds : r.Adds x r') (new : x ∉ n.declaredNames) :
    n.WellScoped r' := by
  induction n using inductionOn generalizing r r' with
  | step n ih =>
    refine wellScoped_iff.mpr ⟨fun v at_ declared => ?_, fun p' mem' => ?_⟩
    · rcases adds.names _ declared with old | same
      · exact (wellScoped_iff.mp h).1 v at_ old
      · exact new (mem_declaredNames.mpr ⟨v, at_ ▸ mem_subtree_self, same⟩)
    · have grows : ∀ r r' names, Region.Adds x r r' →
          (r.declaring names).Adds x (r'.declaring names) := fun _ _ names h => h.declaring names
      have related : List.Forall₂ (fun p p' => p.1.Adds x p'.1 ∧ p.2 = p'.2) (n.scopes r)
          (n.scopes r') :=
        scopes_related grows (adds.region n.label) rfl (List.forall₂_same.mpr fun c _ => ⟨rfl, rfl⟩)
      obtain ⟨p, mem, region, same⟩ := exists_of_forall₂ related mem'
      have below := mem_children_of_scopes mem'
      rw [← same] at below ⊢
      exact ih p.2 below (h.below mem) region fun declared =>
        new (mem_declaredNames_of_child below declared)

/-- One more name in scope does not matter to nodes in turn that do not declare it. -/
theorem wellScoped_inTurn {nodes : List Node} (h : ∀ p ∈ r.inTurn nodes, p.2.WellScoped p.1)
    (adds : r.Adds x r') (new : ∀ n ∈ nodes, x ∉ n.declaredNames) :
    ∀ p ∈ r'.inTurn nodes, p.2.WellScoped p.1 := by
  induction nodes generalizing r r' with
  | nil => nofun
  | cons n rest ih =>
    rw [Region.inTurn, List.forall_mem_cons] at h ⊢
    refine ⟨h.1.adds adds (new n List.mem_cons_self), ?_⟩
    exact ih h.2 (adds.declaring n.declares) fun m mem => new m (List.mem_cons_of_mem _ mem)

/-- What is in scope where the children of a node start. -/
theorem region_names : ∀ y ∈ (n.label.region r).names, y ∈ r.names ∨ y ∈ n.bindings := by
  intro y mem
  have inner (mem : y ∈ r.inner.names) : y ∈ r.names := by
    cases r with
    | members => cases mem
    | code locals => exact mem
  cases n with
  | unit => cases mem
  | cls => cases mem
  | stmt s =>
    obtain ⟨id, form⟩ := s
    cases form with
    | method head body => exact .inr mem
    | cls head body => cases mem
    | declare decl => exact .inl mem
    | _ => exact .inl (inner mem)
  | _ => exact .inl mem

/-- What is in scope behind a child of a statement or a block, for children that are more
than variables, is brought in by the node. -/
theorem declares_subset_bindings {group : List Node} (mem : group ∈ n.groups)
    (inner : ∃ m ∈ group, m.var? = none) (before : c ∈ group.dropLast) :
    c.declares ⊆ n.bindings := by
  have inside : c ∈ group := List.dropLast_subset _ before
  have silent (none : c.declares = []) : c.declares ⊆ n.bindings := by
    rw [none]
    exact List.nil_subset _
  cases n with
  | block b =>
    cases List.mem_singleton.mp mem
    obtain ⟨s, stmts, rfl⟩ := List.mem_map.mp inside
    exact fun y named => List.mem_flatMap.mpr ⟨s, stmts, named⟩
  | stmt s =>
    obtain ⟨id, form⟩ := s
    cases form with
    | declare decl =>
      cases List.mem_singleton.mp mem
      obtain ⟨m, inside, open_⟩ := inner
      obtain ⟨v, -, rfl⟩ := List.mem_map.mp inside
      cases open_
    | ifElse condition onTrue onFalse =>
      obtain ⟨m, -, rfl⟩ := List.mem_map.mp mem
      cases before
    | forLoop init condition update body =>
      cases List.mem_singleton.mp mem
      simp only [Stmt.children, List.dropLast_concat, List.mem_append, List.mem_map] at before
      rcases before with (⟨s, inits, rfl⟩ | ⟨e, -, rfl⟩) | ⟨e, -, rfl⟩
      · exact fun y named => List.mem_flatMap.mpr ⟨s, inits, named⟩
      · exact silent rfl
      · exact silent rfl
    | forEach typeName item iterable body =>
      cases List.mem_singleton.mp mem
      simp only [Stmt.children, List.dropLast, List.mem_cons, List.not_mem_nil, or_false] at before
      rcases before with rfl | rfl
      · exact List.Subset.refl _
      · exact silent rfl
    | tryCatch resources body catches finish =>
      simp only [groups, Stmt.groups, List.cons_append, List.mem_cons, List.mem_append,
        List.mem_map] at mem
      rcases mem with rfl | ⟨clause, mem, rfl⟩ | ⟨b, -, rfl⟩
      · rw [List.dropLast_concat] at before
        obtain ⟨decl, declared, before⟩ := List.mem_flatMap.mp before
        obtain ⟨v, vars, rfl⟩ := List.mem_map.mp before
        refine List.cons_subset.mpr ⟨List.mem_append_left _ ?_, List.nil_subset _⟩
        exact List.mem_flatMap.mpr ⟨decl, declared, List.mem_map_of_mem vars⟩
      · cases List.mem_singleton.mp before
        refine List.cons_subset.mpr ⟨List.mem_append_right _ ?_, List.nil_subset _⟩
        exact List.mem_map_of_mem mem
      · cases before
    | whileLoop condition body =>
      cases List.mem_singleton.mp mem
      cases List.mem_singleton.mp before
      exact silent rfl
    | returnStmt value =>
      cases List.mem_singleton.mp mem
      cases value <;> cases before
    | method head body =>
      cases List.mem_singleton.mp mem
      cases body <;> cases before
    | _ =>
      cases List.mem_singleton.mp mem
      cases before
  | cls d =>
    cases List.mem_singleton.mp mem
    cases before
  | _ =>
    cases List.mem_singleton.mp mem
    obtain ⟨m, -, rfl⟩ := List.mem_map.mp inside
    exact silent rfl

/-- Around the statements and blocks in a node, no more is in scope than around the node
and what it brings in. -/
theorem scopes_names {p : Region × Node} (mem : p ∈ n.scopes r) (var : p.2.var? = none) :
    ∀ y ∈ p.1.names, y ∈ r.names ∨ y ∈ n.bindings := by
  intro y named
  obtain ⟨group, inGroups, mem⟩ := List.mem_flatMap.mp mem
  obtain ⟨front, back, rfl, region⟩ := Region.split_inTurn mem
  rw [region] at named
  rcases Region.mem_names_declaring named with outer | behind
  · exact region_names y outer
  · obtain ⟨c, mem, named⟩ := List.mem_flatMap.mp behind
    refine .inr (declares_subset_bindings inGroups ⟨p.2, by simp, var⟩ ?_ named)
    rw [List.dropLast_append_of_ne_nil (List.cons_ne_nil _ _)]
    exact List.mem_append_left _ mem

end Node

end JavaMend
