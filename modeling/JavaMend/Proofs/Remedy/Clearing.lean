import JavaMend.Proofs.Remedy.Protecting
import JavaMend.Proofs.Remedy.Scoped

/-!
# Constructions that can be guarded where they stand

Path traversal moves the construction of a path in front of the statement that it stands in, or
guards the path behind that statement. What the construction reads has to be in scope there. In a
statement that is closed, all that an expression outside of its blocks reads is in scope around
the statement or declared by the statement outside of its blocks (`Node.Closed.surface`). So it
is enough that no construction reads what is declared there, and that a variable which holds a
construction is declared by the statement itself (`Node.Clears`).

Before that, texts are split, so the constructions of the unit are not all that there are. What
takes the place of an expression reads what the expression read, so a text is split only where
this leaves the statement clear (`Node.Rearranged`).
-/

namespace JavaMend

/-! ## What expressions outside of blocks read -/

namespace Node

/-- The names of the variables of a node that are declared outside of the blocks in it. -/
def surfaceNames (n : Node) : List String := n.surfaceVars.map (·.name)

variable {n c out : Node} {outer : List String} {r : Region} {x : String} {e : Expr}

theorem surfaceNames_eq (open_ : n.block? = none) :
    n.surfaceNames = n.var?.toList.map (·.name) ++ n.children.flatMap surfaceNames := by
  unfold surfaceNames
  rw [surfaceVars_eq open_, List.map_append, List.map_flatMap]

/-- What a node declares is declared outside of the blocks in it. -/
theorem declares_subset_surfaceNames (n : Node) : n.declares ⊆ n.surfaceNames := by
  have named (v : Variable) : v.name ∈ (var v).surfaceNames := by
    rw [surfaceNames_eq rfl]
    exact List.mem_append_left _ (List.mem_singleton_self _)
  intro x mem
  cases n with
  | var v =>
    cases List.mem_singleton.mp mem
    exact named v
  | stmt s =>
    obtain ⟨id, form⟩ := s
    cases form with
    | declare decl =>
      obtain ⟨v, held, rfl⟩ := List.mem_map.mp mem
      rw [surfaceNames_eq rfl]
      exact List.mem_append_right _ (List.mem_flatMap.mpr ⟨.var v, List.mem_map_of_mem held, named v⟩)
    | _ => cases mem
  | _ => cases mem

/-- Only a method brings more into scope before its children, and these are blocks. -/
theorem region_names_of_open (child : c ∈ n.children) (open_ : c.block? = none) :
    (n.label.region r).names ⊆ r.names := by
  have inner : r.inner.names ⊆ r.names := by
    cases r with
    | members => exact List.Subset.refl _
    | code locals => exact List.Subset.refl _
  cases n with
  | unit => exact List.nil_subset _
  | cls => exact List.nil_subset _
  | stmt s =>
    obtain ⟨id, form⟩ := s
    cases form with
    | method head body =>
      obtain ⟨b, -, rfl⟩ := List.mem_map.mp child
      cases open_
    | cls => exact List.nil_subset _
    | declare => exact List.Subset.refl _
    | _ => exact inner
  | _ => exact List.Subset.refl _

/-- In a closed node, what an expression outside of the blocks reads is in scope around the node
or declared outside of the blocks. -/
theorem Closed.surface (closed : n.Closed outer r) (stands : e ∈ n.surface) (reads : x ∈ (expr e).reads) :
    x ∈ outer ++ r.names ∨ x ∈ n.surfaceNames := by
  induction n using inductionOn generalizing outer r with
  | step n ih =>
    have open_ : n.block? = none := by
      cases n with
      | block b =>
        rw [surface_block] at stands
        cases stands
      | _ => rfl
    rw [surface_eq open_] at stands
    rcases List.mem_append.mp stands with own | below
    · cases n with
      | expr e' =>
        cases List.mem_singleton.mp own
        exact .inl (closed_expr.mp closed x reads)
      | _ => cases own
    obtain ⟨c, child, inside⟩ := List.mem_flatMap.mp below
    have plain : c.block? = none := by
      cases c with
      | block b =>
        rw [surface_block] at inside
        cases inside
      | _ => rfl
    rw [surfaceNames_eq open_]
    have named {c : Node} (child : c ∈ n.children) (mem : x ∈ c.surfaceNames) :
        x ∈ n.var?.toList.map (·.name) ++ n.children.flatMap surfaceNames :=
      List.mem_append_right _ (List.mem_flatMap.mpr ⟨c, child, mem⟩)
    rw [← scopes_nodes r] at child
    obtain ⟨p, inRegion, rfl⟩ := List.mem_map.mp child
    have child := mem_children_of_scopes inRegion
    rcases ih p.2 child (closed.below inRegion) inside with around | declared
    · -- The child stands behind those before it in its group.
      obtain ⟨group, grouped, turn⟩ := List.mem_flatMap.mp inRegion
      obtain ⟨front, back, split, region⟩ := Region.split_inTurn turn
      rcases List.mem_append.mp around with outside | here
      · exact .inl outside
      rw [region] at here
      rcases Region.mem_names_declaring here with opened | before
      · exact .inl (List.mem_append_right _ (region_names_of_open child plain opened))
      · obtain ⟨d, earlier, mem⟩ := List.mem_flatMap.mp before
        refine .inr (named (c := d) ?_ (declares_subset_surfaceNames d mem))
        rw [← groups_flatten]
        exact List.mem_flatten.mpr ⟨group, grouped, split ▸ List.mem_append_left _ earlier⟩
    · exact .inr (named child declared)

end Node

/-! ## Statements that are clear -/

namespace PathTraversal

/-- The calls that construct a path, or that splitting a text makes one of. -/
def constructs (e : Expr) : Bool :=
  CallMatcher.standard.acceptsAny e Guarding.fileWithChild ||
    CallMatcher.standard.acceptsAny e Guarding.pathResolve ||
    CallMatcher.standard.acceptsAny e Normalize.fileOfString ||
    CallMatcher.standard.acceptsAny e Normalize.stringPathSinks

/-- Does a construction initialize the variable? -/
def holdsPath (v : Variable) : Bool := v.init.any fun init => constructs init.unparen

end PathTraversal

namespace Node

open PathTraversal

/-- Outside of the blocks in the node, constructions read only locals that are known, and only
variables that are named hold one. -/
structure Clears (known named : String → Prop) (n : Node) : Prop where
  reads : ∀ e ∈ n.surface, constructs e = true → e.ReadsFrom known
  held : ∀ v ∈ n.surfaceVars, holdsPath v = true → named v.name

/-- No construction reads what its statement declares outside of blocks, and a variable that holds
one is declared by the statement itself. The bodies of classes are no initializers. -/
structure ClearsAll (n : Node) : Prop where
  stmts : ∀ b ∈ n.block?, ∀ s ∈ b.stmts,
    (stmt s).Clears (· ∉ (stmt s).surfaceNames) (· ∈ s.declaredNames)
  classes : ∀ c ∈ n.class?, c.2.isStatic = false

instance (known named : String → Prop) [DecidablePred known] [DecidablePred named] (n : Node) :
    Decidable (n.Clears known named) :=
  decidable_of_iff ((∀ e ∈ n.surface, constructs e = true → ∀ x ∈ (expr e).reads, known x) ∧
    ∀ v ∈ n.surfaceVars, holdsPath v = true → named v.name) ⟨fun h => ⟨h.1, h.2⟩, fun h => ⟨h.1, h.2⟩⟩

instance (n : Node) : Decidable n.ClearsAll :=
  decidable_of_iff ((∀ b ∈ n.block?, ∀ s ∈ b.stmts,
    (stmt s).Clears (· ∉ (stmt s).surfaceNames) (· ∈ s.declaredNames)) ∧
      ∀ c ∈ n.class?, c.2.isStatic = false) ⟨fun h => ⟨h.1, h.2⟩, fun h => ⟨h.1, h.2⟩⟩

variable {known named : String → Prop} {n c out : Node}

theorem clears_iff (open_ : n.block? = none) : n.Clears known named ↔
    (∀ e ∈ n.expr?, constructs e = true → e.ReadsFrom known) ∧
      (∀ v ∈ n.var?, holdsPath v = true → named v.name) ∧ ∀ c ∈ n.children, c.Clears known named := by
  constructor
  · rintro ⟨reads, held⟩
    rw [surface_eq open_] at reads
    rw [surfaceVars_eq open_] at held
    refine ⟨fun e own => reads e (List.mem_append_left _ (Option.mem_toList.mpr own)),
      fun v own => held v (List.mem_append_left _ (Option.mem_toList.mpr own)), fun c child => ⟨?_, ?_⟩⟩
    · exact fun e mem => reads e (List.mem_append_right _ (List.mem_flatMap.mpr ⟨c, child, mem⟩))
    · exact fun v mem => held v (List.mem_append_right _ (List.mem_flatMap.mpr ⟨c, child, mem⟩))
  · rintro ⟨own, var, below⟩
    refine ⟨fun e mem => ?_, fun v mem => ?_⟩
    · rw [surface_eq open_] at mem
      rcases List.mem_append.mp mem with here | mem
      · exact own e (Option.mem_toList.mp here)
      · obtain ⟨c, child, mem⟩ := List.mem_flatMap.mp mem
        exact (below c child).reads e mem
    · rw [surfaceVars_eq open_] at mem
      rcases List.mem_append.mp mem with here | mem
      · exact var v (Option.mem_toList.mp here)
      · obtain ⟨c, child, mem⟩ := List.mem_flatMap.mp mem
        exact (below c child).held v mem

theorem clears_block (b : Block) : (block b).Clears known named where
  reads e mem := by
    rw [surface_block] at mem
    cases mem
  held v mem := by
    rw [surfaceVars] at mem
    cases mem

end Node

/-! ## Splitting texts -/

namespace PathTraversal

/-- Whether an expression is a construction is part of its label. -/
theorem constructs_of_label {e e' : Expr} (label : (Node.expr e').label = (Node.expr e).label) :
    constructs e' = constructs e := by
  have same := CallMatcher.acceptsAny_congr (Expr.method?_of_label label)
  unfold constructs
  rw [same, same, same, same]

/-- A construction is a call. -/
theorem unparen_of_constructs {e : Expr} (construction : constructs e = true) : e.unparen = e := by
  cases found : e.method? with
  | some m => exact Expr.unparen_of_method found
  | none =>
    simp [constructs, CallMatcher.acceptsAny_of_none found] at construction

end PathTraversal

namespace Node

open PathTraversal

/-- A construction, with any parentheses around it. -/
def isConstruction (n : Node) : Bool := n.expr?.any fun e => constructs e.unparen

/-- What splitting texts makes of a node can stand in its place, and is clear where the node is. -/
structure Rearranged (n out : Node) : Prop where
  standsFor : n.StandsFor .any out
  reads : out.reads ⊆ n.reads
  names : out.surfaceNames = n.surfaceNames
  clears : ∀ known named, n.Clears known named → out.Clears known named
  whole : out.isConstruction = true → n.isConstruction = true
  static : out.block?.map (·.isStatic) = n.block?.map (·.isStatic)
  all : n.All ClearsAll → out.All ClearsAll

theorem Rearranged.refl (n : Node) : n.Rearranged n where
  standsFor := .refl .any n
  reads := List.Subset.refl _
  names := rfl
  clears _ _ h := h
  whole h := h
  static := rfl
  all h := h

theorem Rearranged.trans {a b c : Node} (first : a.Rearranged b) (second : b.Rearranged c) :
    a.Rearranged c where
  standsFor above :=
    ⟨(second.standsFor above).declares.trans (first.standsFor above).declares, fun outer r _ closed =>
      (second.standsFor above).closed outer r trivial ((first.standsFor above).closed outer r trivial closed)⟩
  reads := List.Subset.trans second.reads first.reads
  names := second.names.trans first.names
  clears known named h := second.clears known named (first.clears known named h)
  whole h := first.whole (second.whole h)
  static := second.static.trans first.static
  all h := second.all (first.all h)

variable {n out : Node} {news : List Node} {known named : String → Prop}

theorem block?_of_label (label : out.label = n.label) (open_ : n.block? = none) : out.block? = none := by
  cases out with
  | block b' =>
    cases n with
    | block b => cases open_
    | _ => cases label
  | _ => rfl

theorem Rearranged.holdsPath {v v' : Variable}
    (children : List.Forall₂ Rearranged (Node.var v).children (Node.var v').children)
    (holds : PathTraversal.holdsPath v' = true) : PathTraversal.holdsPath v = true := by
  obtain ⟨id, name, ty, init⟩ := v
  obtain ⟨id', name', ty', init'⟩ := v'
  cases init' with
  | none => cases holds
  | some e' =>
    cases init with
    | none => cases children
    | some e => exact (List.forall₂_cons.mp children).1.whole holds

/-- A node that is no block is clear where what becomes of its parts is. -/
theorem Rearranged.clears_refilled (open_ : n.block? = none) (refilled : n.Refilled out news)
    (children : List.Forall₂ Rearranged n.children news) (reads : out.reads ⊆ n.reads)
    (clears : n.Clears known named) : out.Clears known named := by
  obtain ⟨rfl, label⟩ := refilled
  obtain ⟨own, var, below⟩ := (clears_iff open_).mp clears
  refine (clears_iff (block?_of_label label open_)).mpr ⟨fun e' isExpr construction => ?_, fun v' isVar holds => ?_, ?_⟩
  · cases out with
    | expr e' =>
      cases isExpr
      cases n with
      | expr e =>
        have same : constructs e' = constructs e := constructs_of_label label
        exact fun x mem => own e rfl (same ▸ construction) x (reads mem)
      | _ => cases label
    | _ => cases isExpr
  · cases out with
    | var v' =>
      cases isVar
      cases n with
      | var v =>
        obtain ⟨name, -⟩ := Label.var.inj label
        exact name ▸ var v rfl (Rearranged.holdsPath children holds)
      | _ => cases label
    | _ => cases isVar
  · intro c' mem
    obtain ⟨c, child, became⟩ := exists_of_forall₂ children mem
    exact became.clears known named (below c child)

/-- What is no construction in parentheses becomes none if its parts become none. -/
theorem Rearranged.whole_refilled (label : out.label = n.label)
    (children : List.Forall₂ Rearranged n.children out.children) (construction : out.isConstruction = true) :
    n.isConstruction = true := by
  cases out with
  | expr e' =>
    cases n with
    | expr e =>
      revert construction
      show constructs e'.unparen = true → constructs e.unparen = true
      fun_cases Expr.unparen e' with
      | case1 id' ty' inner' =>
        obtain ⟨id, ty, form⟩ := e
        obtain ⟨-, forms⟩ := Label.expr.inj label
        cases form with
        | parens inner => exact (List.forall₂_cons.mp children).1.whole
        | _ => cases forms
      | case2 =>
        rw [constructs_of_label label]
        exact fun construction => (unparen_of_constructs construction).symm ▸ construction
    | _ => cases label
  | _ => cases construction

/-- The statements of a block are clear where what becomes of them is. -/
theorem Rearranged.clearsAll_refilled (label : out.label = n.label)
    (children : List.Forall₂ Rearranged n.children out.children) (clears : n.ClearsAll) :
    out.ClearsAll where
  stmts := by
    rintro b' isBlock s' mem
    cases out with
    | block b =>
      cases isBlock
      cases n with
      | block b =>
        obtain ⟨c, child, became⟩ := exists_of_forall₂ children (List.mem_map_of_mem mem)
        obtain ⟨s, inside, rfl⟩ := List.mem_map.mp child
        have declared : s'.declaredNames = s.declaredNames := (became.standsFor []).declares
        rw [became.names, declared]
        exact became.clears _ _ (clears.stmts b rfl s inside)
      | _ => cases label
    | _ => cases isBlock
  classes := by
    rintro ⟨head, b'⟩ isClass
    obtain ⟨b, isClass'⟩ := class?_of_label label.symm isClass
    have static := clears.classes _ isClass'
    rw [children_of_class isClass, children_of_class isClass'] at children
    have same := (List.forall₂_cons.mp children).1.static
    exact (Option.some.inj same).trans static

theorem surfaceNames_refilled (label : out.label = n.label)
    (children : List.Forall₂ Rearranged n.children out.children) : out.surfaceNames = n.surfaceNames := by
  cases open_ : n.block? with
  | some b =>
    cases n with
    | block b =>
      cases out with
      | block b' => rw [surfaceNames, surfaceNames, surfaceVars, surfaceVars]; rfl
      | _ => cases label
    | _ => cases open_
  | none =>
    have own : out.var?.toList.map (·.name) = n.var?.toList.map (·.name) := by
      cases out with
      | var v' =>
        cases n with
        | var v => exact congrArg (fun name => [name]) (Label.var.inj label).1
        | _ => cases label
      | _ => cases n <;> first | rfl | cases label
    have below : out.children.flatMap surfaceNames = n.children.flatMap surfaceNames := by
      generalize n.children = cs, out.children = cs' at children
      induction children with
      | nil => rfl
      | cons first _ ih => rw [List.flatMap_cons, List.flatMap_cons, first.names, ih]
    rw [surfaceNames_eq open_, surfaceNames_eq (block?_of_label label open_), own, below]

theorem Rearranged.refilled (refilled : n.Refilled out news)
    (children : List.Forall₂ Rearranged n.children news) : n.Rearranged out := by
  obtain ⟨rfl, label⟩ := refilled
  have reads : out.reads ⊆ n.reads := by
    intro x mem
    rw [reads_eq, read?_of_label label, List.mem_append] at mem
    rw [reads_eq, List.mem_append]
    refine mem.imp_right fun below => ?_
    obtain ⟨c', inside, mem⟩ := List.mem_flatMap.mp below
    obtain ⟨c, child, became⟩ := exists_of_forall₂ children inside
    exact List.mem_flatMap.mpr ⟨c, child, became.reads mem⟩
  refine ⟨.refilled Place.inherited_any n out _ ⟨rfl, label⟩ (children.imp fun _ _ became => became.standsFor),
    reads, ?_, fun known named clears => ?_, whole_refilled label children, ?_, fun all => ?_⟩
  · exact surfaceNames_refilled label children
  · cases n with
    | block b =>
      cases out with
      | block b' => exact clears_block b'
      | _ => cases label
    | _ => exact clears_refilled rfl ⟨rfl, label⟩ children reads clears
  · cases n <;> cases out <;> first | rfl | cases label | skip
    exact congrArg some (Label.block.inj label)
  · refine all_iff.mpr ⟨clearsAll_refilled label children all.self, fun c' mem => ?_⟩
    obtain ⟨c, child, became⟩ := exists_of_forall₂ children mem
    exact became.all (all.child child)

/-- An expression declares nothing. -/
theorem surfaceVars_expr (e : Expr) : (expr e).surfaceVars = [] := by
  rw [surfaceVars_eq rfl]
  refine List.flatMap_eq_nil_iff.mpr fun c child => ?_
  obtain ⟨sub, below, rfl⟩ := List.mem_map.mp child
  exact surfaceVars_expr sub
termination_by sizeOf e
decreasing_by exact Expr.sizeOf_lt_of_mem_children below

theorem clearsAll_expr (e : Expr) : (expr e).All ClearsAll := by
  refine all_iff.mpr ⟨⟨fun b none => (Option.not_mem_none b none).elim,
    fun c none => (Option.not_mem_none c none).elim⟩, fun c child => ?_⟩
  obtain ⟨sub, below, rfl⟩ := List.mem_map.mp child
  exact clearsAll_expr sub
termination_by sizeOf e
decreasing_by exact Expr.sizeOf_lt_of_mem_children below

/-- An expression is clear if it reads what is known. -/
theorem clears_expr {e : Expr} (reads : e.ReadsFrom known) : (expr e).Clears known named where
  reads e' mem _ x read := reads x (reads_subset_of_mem (mem_subtree_of_surface mem) read)
  held v mem _ := by
    rw [surfaceVars_expr] at mem
    cases mem

/-- A construction gives way to what reads no more. -/
theorem Rearranged.expr {e new : Expr} (construction : constructs e = true)
    (reads : new.ReadsFrom (· ∈ (Node.expr e).reads)) : Rearranged (.expr e) (.expr new) where
  standsFor _ := .expr reads
  reads := reads
  names := by rw [surfaceNames, surfaceNames, surfaceVars_expr, surfaceVars_expr]
  clears known named clears := by
    have here : e ∈ (Node.expr e).surface := by
      rw [surface_eq rfl]
      exact List.mem_cons_self
    exact clears_expr fun x mem => clears.reads e here construction x (reads x mem)
  whole _ := by
    show constructs e.unparen = true
    rwa [unparen_of_constructs construction]
  static := rfl
  all _ := clearsAll_expr new

end Node

/-- The kind of a region follows from the labels of the nodes above. -/
theorem Region.below_of_labels {above above' : List Node}
    (labels : above'.map Node.label = above.map Node.label) : below above' = below above := by
  have folded (nodes : List Node) :
      below nodes = (nodes.map Node.label).foldr (fun label r => label.region r) (code []) := by
    rw [List.foldr_map]
    rfl
  rw [folded, folded, labels]

namespace PathTraversal

/-- A construction may give way to an expression that reads no more. -/
def Splits (e new : Expr) : Prop :=
  constructs e = true ∧ new.ReadsFrom (· ∈ (Node.expr e).reads)

theorem rearranged_exchange : Node.Exchange Splits Node.Rearranged where
  refl := .refl
  trans := .trans
  refilled := .refilled
  gives splits := .expr splits.1 splits.2

/-- Only constructions are split. -/
theorem Normalize.normalized?_constructs (userInput : List NodeId) (e : Expr) :
    (normalized? .standard userInput e).Gives fun answer => answer.isSome → constructs e = true := by
  unfold normalized?
  split
  next => exact .pure fun none => (Bool.false_ne_true none).elim
  next =>
    split
    next accepted => exact fun _ _ => by simp [constructs, accepted]
    next =>
      split
      next accepted =>
        simp only [Bool.and_eq_true] at accepted
        exact fun _ _ => by simp [constructs, accepted.1.1]
      next => exact .pure fun none => (Bool.false_ne_true none).elim

theorem Guarding.constructs_of_parentAndChild? {e parent child : Expr}
    (found : parentAndChild? .standard e = some (parent, child)) : constructs e = true := by
  unfold parentAndChild? at found
  split at found
  next accepted => simp [constructs, accepted]
  next =>
    split at found
    next accepted => simp [constructs, accepted]
    next => cases found

/-- Where path traversal can guard what is constructed. -/
def Safe (above : List Node) (n : Node) : Prop :=
  (∀ owner ∈ above.head?, owner.class?.isSome → ∀ b ∈ n.block?, b.isStatic = false) ∧ n.All Node.ClearsAll

theorem Safe.child {above : List Node} {n c : Node} (h : Safe above n) (mem : c ∈ n.children) :
    Safe (n :: above) c := by
  refine ⟨?_, h.2.child mem⟩
  rintro _ ⟨⟩ isClass b isBlock
  obtain ⟨⟨head, body⟩, found⟩ := Option.isSome_iff_exists.mp isClass
  rw [Node.children_of_class found] at mem
  cases List.mem_singleton.mp mem
  cases isBlock
  exact h.2.self.classes _ found

variable {hidden : Expr → Bool} {tree : Multiset Node} {mark : NodeId} {env : PassEnv}

/-- The fix for a construction reads what is in scope where it is written. -/
theorem Guarding.fits_closing {settings : PathSettings} {e parent child : Expr} {above : List Node}
    {anchor : Stmt} {next : NodeId} {tainted : Expr} {directory : Option Expr} {kind : FixKind}
    (drawn : Drawn 0 mark tree)
    (stands : (Regime.closing Safe hidden tree mark).Stands (.expr e) above)
    (anchored : (⟨.expr e :: above⟩ : Path).anchor? = some anchor)
    (construction : parentAndChild? .standard e = some (parent, child))
    (reaches : reachesSink env ⟨.expr e :: above⟩ e = true)
    (made : (fixFor? settings ⟨.expr e :: above⟩ e parent next).1 = some (tainted, directory, kind)) :
    (Regime.closing Safe hidden tree mark).FitsNear (.expr e :: above)
      ⟨anchor, tainted, directory, kind⟩ := by
  intro front b up split open_
  refine Regime.fits_closing fun outer r safe faces => ?_
  obtain ⟨front', b', up', split', open_', inside, surface⟩ :=
    Path.anchor?_of_expr stands.genuine anchored
  obtain ⟨-, rfl, rfl⟩ := Path.nearest_unique (split.symm.trans split') open_ open_'
  have constructed := constructs_of_parentAndChild? construction
  have clears := safe.2.self.stmts b rfl anchor inside
  have genuine : Path.GenuineList (.block b :: up) := by
    have whole := stands.genuine
    rw [split] at whole
    exact Path.genuineList_right whole
  -- A field cannot be guarded, and a construction for one reaches no sink.
  have inCode : r ≠ .members := by
    intro members
    have owned := Region.owner_of_below genuine (faces.kind.mp members)
    cases up with
    | nil => simp [Path.bodyOwner?, Path.parent?] at owned
    | cons owner up =>
      have isClass : owner.class?.isSome := by
        change ((owner.class?).map (·.1.ty)).isSome at owned
        rwa [Option.isSome_map] at owned
      have static := safe.1 owner rfl isClass b rfl
      rw [reachesSink_of_field drawn stands split open_ isClass static] at reaches
      cases reaches
  have reads : e.ReadsFrom (· ∈ outer ++ r.names) := fun x mem =>
    (faces.closed.surface surface mem).resolve_right (clears.reads e surface constructed x mem)
  rcases fixFor?_cases made with ⟨v, variant, initialized, rfl, rfl, -, rfl⟩ | ⟨-, rfl, -, ending, rfl⟩
  · obtain ⟨between, init, rest, rfl, closed, held, unwrapped, same⟩ :=
      Path.variableAround?_cases stands.genuine rfl initialized
    have holds : holdsPath v = true := by
      unfold holdsPath
      rw [held, Option.any_some, stands.unparen_eq drawn unwrapped same]
      exact constructed
    have declared := clears.held v (Path.mem_surfaceVars_anchor stands.genuine closed anchored) holds
    refine List.forall_mem_cons.mpr ⟨v.mkRead_reads (fun _ => ?_) next, List.forall_mem_singleton.mpr ?_⟩
    · exact List.mem_append_right _ ((Region.mem_declaring inCode).mpr (.inr declared))
    · refine fun x mem => ?_
      have read := reads x (Node.reads_subset_of_child
        (List.mem_map_of_mem (mem_of_parentAndChild? construction)) mem)
      exact (List.mem_append.mp read).elim (List.mem_append_left _)
        fun here => List.mem_append_right _ (r.names_declaring _ here)
  · exact ⟨inCode, reads⟩

/-- The separator that completes a path is no local. -/
theorem PartialPath.mkCompleted_reads (directory : Expr) :
    (mkCompleted directory).Gives (Expr.ReadsFrom (· ∈ (Node.expr directory).reads)) := by
  have own : directory.ReadsFrom (· ∈ (Node.expr directory).reads) := fun x mem => mem
  refine (Expr.mkStaticField_reads (· ∈ (Node.expr directory).reads) rfl "separator" .string).bind
    fun separator silent => ?_
  exact (Expr.passes_readsFrom _).mkAdd own silent

theorem treats_closing (matcher : env.matcher = .standard) (settings : PathSettings) :
    Treats (.closing Safe hidden tree mark) (fun _ => .closing Safe hidden tree mark)
      (.closing Safe hidden tree mark) (.exchanging Splits Node.Rearranged hidden tree mark) env
      settings where
  lawful_complete _ _ drawn := Regime.closing_lawful drawn fun _ _ _ safe mem => safe.child mem
  lawful_split _ _ _ drawn := Regime.exchanging_lawful rearranged_exchange drawn
  lawful _ _ _ drawn := Regime.closing_lawful drawn fun _ _ _ safe mem => safe.child mem
  completes _ _ _ := PartialPath.notes (fun _ => rfl) fun e above directory anchor next _ _ _ =>
    Regime.fitsNear_closing (PartialPath.mkCompleted_reads directory next)
  splits _ _ userInput := Normalize.notes (fun _ => rfl)
    fun e above anchor next new imports _ _ made _ _ _ _ _ => by
      have own : e.ReadsFrom (· ∈ (Node.expr e).reads) := fun x mem => mem
      rw [matcher] at made
      refine ⟨new, imports, rfl, ?_, ?_⟩
      · exact Normalize.normalized?_constructs userInput e next (by rw [made]; rfl)
      · exact Normalize.normalized?_passes (Expr.passes_readsFrom _) .standard userInput own next
          (new, imports) made
  guards _ _ _ drawn := Guarding.notes newRead_covers
    fun _ _ _ _ _ _ _ _ _ stands anchored construction reaches made =>
      Guarding.fits_closing drawn stands anchored (matcher ▸ construction) reaches made
  completed _ _ _ _ became := became
  guarded block above above' split out body labels first second := by
    have first : (Node.block block).Rearranged (.block split) := first
    have second : Safe above' (.block split) →
        Node.StaysClosed .ofKind above' (.block split) (.block out) := second
    intro safe
    have around : Region.below above' = Region.below above := Region.below_of_labels labels
    have static : split.isStatic = block.isStatic := Option.some.inj first.static
    have still : Safe above' (.block split) := by
      refine ⟨fun owner' here isClass b isBlock => ?_, first.all safe.2⟩
      cases isBlock
      rw [static]
      cases above' with
      | nil => cases here
      | cons first' rest' =>
        cases here
        obtain ⟨owner, rest, rfl, label, -⟩ := List.map_eq_cons_iff.mp labels.symm
        obtain ⟨⟨head, body⟩, found⟩ := Option.isSome_iff_exists.mp isClass
        obtain ⟨body', found'⟩ := Node.class?_of_label label found
        exact safe.1 owner rfl (found' ▸ rfl) block rfl
    have stays := second still
    have split_ := first.standsFor above
    refine ⟨stays.declares.trans split_.declares, fun outer r kind closed => ?_⟩
    refine stays.closed outer r ?_ (split_.closed outer r trivial closed)
    show r.SameKind (.below above')
    rwa [around]

end PathTraversal

/-! ## Entries -/

/-- What the remediation relies on at each node, to read only what is in scope. -/
def Remediation.Shelters (matcher : CallMatcher) : Remediation → Node → Prop
  | cookieSecure, n => n.Shelters (Cookie.initializes matcher)
  | pathTraversal .., n => n.ClearsAll
  | _, _ => True

instance (matcher : CallMatcher) (r : Remediation) (n : Node) : Decidable (r.Shelters matcher n) :=
  match r with
  | .cookieSecure => inferInstanceAs (Decidable (n.Shelters (Cookie.initializes matcher)))
  | .pathTraversal .. => inferInstanceAs (Decidable n.ClearsAll)
  | .secureRandom | .secureRandomSeed | .xmlInputFactory | .documentBuilderFactory | .transformerFactory
  | .secureTempFile | .tempDirectory | .randomStringUtils | .privilegedCode => inferInstanceAs (Decidable True)

/-- What it relies on at a place. -/
def Remediation.Safe (matcher : CallMatcher) : Remediation → List Node → Node → Prop
  | cookieSecure => Node.Sheltered (Cookie.initializes matcher)
  | pathTraversal .. => PathTraversal.Safe
  | _ => fun _ _ => True

theorem Remediation.Safe.child {matcher : CallMatcher} {r : Remediation} {above : List Node} {n c : Node}
    (h : r.Safe matcher above n) (mem : c ∈ n.children) : r.Safe matcher (n :: above) c := by
  cases r with
  | cookieSecure => exact Node.Sheltered.child h mem
  | pathTraversal => exact PathTraversal.Safe.child h mem
  | _ => trivial

theorem Remediation.safe_of_shelters {matcher : CallMatcher} {r : Remediation} {n : Node}
    (shelters : n.All (r.Shelters matcher)) : r.Safe matcher [] n := by
  cases r with
  | cookieSecure => exact ⟨fun m none => (Option.not_mem_none m none).elim, shelters⟩
  | pathTraversal => exact ⟨fun m none => (Option.not_mem_none m none).elim, shelters⟩
  | _ => trivial

theorem Stmt.declaredNames_of_expression? {s : Stmt} {e : Expr} (h : s.expression? = some e) :
    s.declaredNames = [] := by
  obtain ⟨id, form⟩ := s
  cases form <;> first | rfl | cases h

theorem TempDirectory.declaredNames_of_stepCall? {s : Stmt} (h : (stepCall? s).isSome) :
    s.declaredNames = [] := by
  obtain ⟨id, form⟩ := s
  cases form <;> first | rfl | cases h

/-- The regime under which trees stay closed where the remediation is safe. -/
abbrev Remediation.closing (r : Remediation) (matcher : CallMatcher) (tree : Multiset Node)
    (mark : NodeId) : Regime :=
  .closing (r.Safe matcher) (r.repeats mark) tree mark

section

variable {hidden : Expr → Bool} {tree : Multiset Node} {mark : NodeId}

theorem Remediation.supports_closing {r : Remediation} {env : PassEnv} (drawn : Drawn 0 mark tree)
    (id : String) (matches_ : r ∈ plain ∨ env.matcher = .standard) :
    (r.closing env.matcher tree mark).Supports (fun _ => r.closing env.matcher tree mark)
      (r.closing env.matcher tree mark)
      (.exchanging PathTraversal.Splits Node.Rearranged (r.repeats mark) tree mark) env id r := by
  have own (e : Expr) : e.ReadsFrom (· ∈ (Node.expr e).reads) := fun _ mem => mem
  have all {known : String → Prop} {stmts : List Stmt} (reads : ∀ s ∈ stmts, s.ReadsFrom known) :
      ∀ n ∈ stmts.map Node.stmt, n.ReadsFrom known := List.forall_mem_map.mpr reads
  cases r with
  | pathTraversal =>
    have matcher : env.matcher = .standard := matches_.resolve_left (by simp [plain])
    exact ⟨rfl, PathTraversal.treats_closing matcher⟩
  | cookieSecure =>
    refine Cookie.notes (fun _ => rfl) (fun e above v anchor next stands new initialized anchored =>
      Cookie.fits_closing drawn stands new initialized anchored) fun e above arg anchor next _ _ => ?_
    exact Regime.fitsNear_closing ((Expr.passes_readsFrom _).literal next)
  | secureRandom =>
    refine Random.notes (fun _ => rfl) fun e above anchor next _ _ => Regime.fitsNear_closing ?_
    exact (Expr.passes_readsFrom _).mkCreate (fun a none => (List.not_mem_nil none).elim) next
  | secureRandomSeed =>
    refine Seed.notes fun stmt b above call _ seeds => Regime.fits_closing_remove ?_
    obtain ⟨e, found, -⟩ := Option.bind_eq_some_iff.mp seeds
    exact Stmt.declaredNames_of_expression? found
  | xmlInputFactory =>
    refine fun _ => XmlInput.notes fun b above f last properties next stands mem follows =>
      Factory.fits_closing drawn stands mem follows fun outer locals named => ?_
    exact Node.closedInTurn_of_reads (all (XmlInput.mkSettings_reads f properties named next))
  | documentBuilderFactory =>
    exact fun dtdsRequired => DocumentBuilder.notes
      fun b above f last feature exception xincludeSet next stands mem follows =>
        Factory.fits_closing drawn stands mem (fun _ => follows) fun outer locals named =>
          DocumentBuilder.mkSettings_closed f dtdsRequired xincludeSet named next
  | transformerFactory =>
    refine Transformer.notes fun b above f last settings next stands mem follows =>
      Factory.fits_closing drawn stands mem follows fun outer locals named => ?_
    exact Node.closedInTurn_of_reads (all (Transformer.mkSettings_reads f settings named next))
  | secureTempFile =>
    exact TempFile.notes (fun _ => rfl) fun e above anchor next new _ _ _ made =>
      Regime.fitsNear_closing (TempFile.replacement?_reads (own e) next new made)
  | tempDirectory =>
    refine TempDirectory.notes (fun _ => rfl) (fun b above site next new _ _ made => ?_)
      fun b above stmt tainted calls =>
        Regime.fits_closing_remove (TempDirectory.declaredNames_of_stepCall? calls)
    exact Regime.fits_closing fun _ _ _ _ =>
      TempDirectory.replacement?_reads (own site.create) next new made
  | randomStringUtils =>
    refine RandomString.notes (fun _ => rfl) (fun e above method anchor next _ _ => ?_)
      (fun b above owner anchor call next owns => ?_)
      (fun b above owner anchor call utils next owns => ?_) fun b above owner anchor call owns => ?_
    · exact Regime.fitsNear_closing
        ((Expr.passes_readsFrom _).make rfl (fun a none => (List.not_mem_nil none).elim) next)
    · exact Regime.fits_closing fun outer r _ _ =>
        Node.closedInTurn_of_reads (all (RandomString.mkHead_reads owner next))
    · exact Regime.fits_closing fun outer r _ _ => Stmt.closedInTurn_singleton.mpr
        (Node.closed_of_reads (RandomString.mkMethod_reads owner utils next))
    · exact Regime.fits_closing fun outer r _ faces =>
        .inl (faces.members (Option.isSome_of_eq_some owns))
  | privilegedCode => exact Privileged.notes id

end

/-- Every pass of the built-in catalog succeeds, and where every local that is read in a unit is in
scope, so it is in what the pass makes of the unit, if the unit shelters what the pass writes reads
of: the locals that new cookies initialize are declared by statements of blocks when cookies are
treated, and constructions of paths are clear of their statements when these are guarded. -/
theorem CatalogEntry.run_closed [GlobCompiler] {entry : CatalogEntry}
    (builtin : entry ∈ Catalog.builtin.entries) {settings : RemediationSettings}
    (valid : settings.validate = .ok ()) {env : PassEnv} (standard : env.splicer = .standard)
    (matches_ : entry.remediation ∈ Remediation.plain ∨ env.matcher = .standard)
    {unit : CompilationUnit} {next : NodeId} (distinct : ((Node.unit unit).subtree.map Node.id).Nodup)
    (old : ∀ n ∈ (Node.unit unit).subtree, n.id < next) {outer : List String}
    (closed : (Node.unit unit).Closed outer (.code []))
    (shelters : (Node.unit unit).All (entry.remediation.Shelters env.matcher)) :
    ∃ out used, entry.run settings env unit next = (.ok out, used) ∧
      (Node.unit out.unit).Closed outer (.code []) := by
  have drawn := Drawn.of_distinct distinct old
  have lawful : (entry.remediation.closing env.matcher ((Node.unit unit).parts fun _ => false)
      next).Lawful := Regime.closing_lawful drawn fun _ _ _ safe mem => safe.child mem
  obtain ⟨out, used, ran, -, changed, became, classes⟩ := run_mends standard lawful rfl builtin valid
    (Remediation.supports_closing drawn entry.id matches_)
  have stays : Node.StaysClosed .ofKind [] (.unit unit) (.unit changed) :=
    became (Remediation.safe_of_shelters shelters)
  have kept := stays.closed outer (.code []) Iff.rfl closed
  refine ⟨out, used, ran, Node.closed_iff.mpr
    ⟨fun x none => (Option.not_mem_none x none).elim, ?_⟩⟩
  have same : (Node.unit out.unit).scopes (.code []) = (Node.unit changed).scopes (.code []) := by
    show [out.unit.classes.map Node.cls].flatMap _ = [changed.classes.map Node.cls].flatMap _
    rw [classes]
    rfl
  rw [same]
  exact (Node.closed_iff.mp kept).2

section

attribute [local instance] GlobCompiler.standard

/-- A method that makes a cookie and opens a stream:
`void m(File dir, ZipEntry entry) { Cookie c = new Cookie("a", "b");
new FileOutputStream(new File(dir, entry.getName())); }` -/
theorem run_closed_cookieAndStream :
    let text (id : NodeId) (value : String) : Expr := ⟨id, .string, .literal (.string value)⟩
    let cookie : Expr :=
      ⟨6, .known Fqn.cookie, .create "Cookie" [text 7 "a", text 8 "b"] (some Jdk.cookie)⟩
    let declare : Stmt := ⟨4, .declare ⟨[], "Cookie", [⟨5, "c", .known Fqn.cookie, some cookie⟩]⟩⟩
    let name : Expr := ⟨13, .string,
      .call (some ⟨14, .known Fqn.zipEntry, .ident "entry" none⟩) "getName" [] (some Jdk.zipEntryGetName)⟩
    let file : Expr :=
      ⟨11, .file, .create "File" [⟨12, .file, .ident "dir" none⟩, name] (some Jdk.fileOfParentAndChild)⟩
    let stream : Expr := ⟨10, .known Fqn.fileOutputStream,
      .create "FileOutputStream" [file] (some Jdk.fileOutputStreamOfFile)⟩
    let method : Stmt := ⟨2, .method ⟨[], some "void", "m",
      [.ofType .file "dir", .ofType (.known Fqn.zipEntry) "entry"], []⟩
      (some ⟨3, false, [declare, ⟨9, .expr stream⟩]⟩)⟩
    let unit : CompilationUnit := ⟨0, none, [], [⟨1, ⟨[], "A", .known "A"⟩, ⟨15, false, [method]⟩⟩]⟩
    (Node.unit unit).Closed [] (.code []) ∧ ∀ entry ∈ Catalog.builtin.entries, ∃ out used,
      entry.run (.ofPreset .balanced) ⟨.standard, ⟨64, 8⟩, .standard⟩ unit 16 = (.ok out, used) ∧
        (Node.unit out.unit).Closed [] (.code []) := by
  intro text cookie declare name file stream method unit
  have closed : (Node.unit unit).Closed [] (.code []) := by decide +kernel
  have shelters : ∀ entry ∈ Catalog.builtin.entries,
      (Node.unit unit).All (entry.remediation.Shelters .standard) := by decide +kernel
  refine ⟨closed, fun entry builtin => ?_⟩
  exact CatalogEntry.run_closed builtin
    (by decide +kernel : (RemediationSettings.ofPreset .balanced).validate = .ok ())
    (rfl : PassEnv.splicer ⟨.standard, ⟨64, 8⟩, .standard⟩ = .standard)
    (.inr rfl)
    (by decide +kernel : ((Node.unit unit).subtree.map Node.id).Nodup)
    (by decide +kernel : ∀ n ∈ (Node.unit unit).subtree, n.id < 16) closed (shelters entry builtin)

end

end JavaMend
