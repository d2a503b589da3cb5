import JavaMend.Proofs.Patch.Waiting
import JavaMend.Proofs.Traversal.FreeNames
import JavaMend.Proofs.Traversal.Rebuild
import JavaMend.Proofs.Tree.Scoping
import JavaMend.Proofs.Tree.Sound

/-!
# Extractions and scopes

An extraction declares a local in front of a statement. Its name is none of the names
that are taken (`leastFreeName_not_mem`), and these are enough: the names that are
declared anywhere in the block as it is now, those in blocks further in among them, and
the names that the nodes around the block bring in (`Repair.takenNames_currentPath`).
So a repair that only extracts keeps a block well-scoped (`repair_wellScoped`).

The statement that an extraction rewrites is the one whose id the anchor of the fix, or
what took its place, has. `Repair.Scoped` keeps track of these along a repair: nodes of
one id are one node.

Java code reads a local only where one of its name is declared, or where something around it
brings the name into scope. `Node.Resolved` says so of the names that begin with some stem,
block by block: what a block reads is declared somewhere in the block, or it is a name that
the nodes around the block bring in. These are the names that a new local in the block keeps
clear of.
-/

namespace JavaMend

/-! ## Rewording -/

namespace Node

variable {n c c' out : Node} {r : Region}

theorem declaredNames_eq (n : Node) : n.declaredNames =
    (n.var?.map (·.name)).toList ++ n.children.flatMap declaredNames := by
  unfold declaredNames
  rw [subtree_eq, List.filterMap_cons, List.filterMap_flatMap]
  cases n.var? <;> rfl

/-- Nodes of one label declare one variable, if any. -/
theorem declaredName?_of_label {n out : Node} (label : out.label = n.label) :
    out.var?.map (·.name) = n.var?.map (·.name) := by
  cases n <;> cases out <;> simp only [Node.label, reduceCtorEq, Label.var.injEq] at label
  case var => exact congrArg some label.1
  all_goals rfl

theorem declaredNames_expr (e : Expr) : (Node.expr e).declaredNames = [] := by
  generalize at_ : Node.expr e = n
  induction n using inductionOn generalizing e with
  | step n ih =>
    subst at_
    rw [declaredNames_eq]
    refine List.flatMap_eq_nil_iff.mpr fun c mem => ?_
    obtain ⟨sub, -, same⟩ := List.mem_map.mp mem
    exact ih c mem sub same

/-- What a node declares is declared in it. -/
theorem declares_subset (n : Node) : n.declares ⊆ n.declaredNames := by
  cases n with
  | stmt s =>
    obtain ⟨id, form⟩ := s
    cases form with
    | declare decl =>
      intro x mem
      obtain ⟨v, declared, rfl⟩ := List.mem_map.mp mem
      exact mem_declaredNames.mpr
        ⟨v, mem_subtree_of_child (List.mem_map_of_mem declared) mem_subtree_self, rfl⟩
    | _ => exact List.nil_subset _
  | var v =>
    have self : v.name ∈ (var v).declaredNames := mem_declaredNames.mpr ⟨v, mem_subtree_self, rfl⟩
    exact List.cons_subset.mpr ⟨self, List.nil_subset _⟩
  | _ => exact List.nil_subset _

/-- As far as scopes go, the second node can stand in the place of the first. -/
structure ScopedAs (n out : Node) : Prop where
  declares : out.declares = n.declares
  declaredNames : out.declaredNames = n.declaredNames
  wellScoped : ∀ r, n.WellScoped r → out.WellScoped r

theorem ScopedAs.refl (n : Node) : n.ScopedAs n := ⟨rfl, rfl, fun _ h => h⟩

theorem ScopedAs.trans {a b c : Node} (first : a.ScopedAs b) (second : b.ScopedAs c) : a.ScopedAs c :=
  ⟨second.declares.trans first.declares, second.declaredNames.trans first.declaredNames,
    fun r h => second.wellScoped r (first.wellScoped r h)⟩

theorem ScopedAs.expr (e e' : Expr) : (Node.expr e).ScopedAs (.expr e') :=
  ⟨rfl, by rw [declaredNames_expr, declaredNames_expr], fun r _ => wellScoped_expr r e'⟩

theorem ScopedAs.refilled {news : List Node} (refilled : n.Refilled out news)
    (children : List.Forall₂ ScopedAs n.children news) : n.ScopedAs out := by
  obtain ⟨rfl, label⟩ := refilled
  refine ⟨declares_refilled label (children.imp fun _ _ h => h.declares), ?_, fun r h => ?_⟩
  · have own := declaredName?_of_label label
    have below : ∀ {nodes news : List Node}, List.Forall₂ ScopedAs nodes news →
        news.flatMap Node.declaredNames = nodes.flatMap Node.declaredNames := fun each => by
      induction each with
      | nil => rfl
      | cons first _ ih => rw [List.flatMap_cons, List.flatMap_cons, first.declaredNames, ih]
    rw [declaredNames_eq out, declaredNames_eq n, own, below children]
  · exact h.refilled (fun _ _ => True) label (fun _ _ => trivial)
      (children.imp fun _ _ h => ⟨fun r _ => h.wellScoped r, h.declares⟩)

end Node

/-- Expressions that are replaced in a statement do not matter to scopes. -/
theorem Stmt.replaceAlike?_scopedAs {stmt changed : Stmt} {target new : Expr} {next used : NodeId}
    (h : stmt.replaceAlike? target new next = (some changed, used)) :
    (Node.stmt stmt).ScopedAs (.stmt changed) :=
  Node.replaceAlike?_keeps .refl (fun _ _ _ => .refilled) (fun e _ => .expr e new)
    (Stmt.replaceAlike?_node h)

/-! ## One more declaration in a block -/

theorem Node.wellScoped_block {r : Region} {b : Block} :
    (Node.block b).WellScoped r ↔ ∀ p ∈ r.inTurn (b.stmts.map .stmt), p.2.WellScoped p.1 := by
  have groups : (Node.block b).groups = [b.stmts.map .stmt] := rfl
  rw [Node.wellScoped_iff, Node.scopes, groups, List.flatMap_singleton]
  exact and_iff_right nofun

/-- A variable is well-scoped where its name is not in scope. -/
theorem Node.wellScoped_var {r : Region} {v : Variable} (free : v.name ∉ r.names) : (Node.var v).WellScoped r := by
  refine Node.wellScoped_iff.mpr ⟨fun v' same => by cases same; exact free, fun p mem => ?_⟩
  obtain ⟨e, -, same⟩ := List.mem_map.mp (Node.mem_children_of_scopes mem)
  rw [← same]
  exact Node.wellScoped_expr p.1 e

/-- A statement that declares one variable is well-scoped where the name of the variable is
not in scope. -/
theorem Stmt.wellScoped_declare {r : Region} {stmt : Stmt} {modifiers : List Modifier}
    {typeName : String} {v : Variable} (form : stmt.form = .declare ⟨modifiers, typeName, [v]⟩)
    (new : v.name ∉ r.names) : (Node.stmt stmt).WellScoped r := by
  obtain ⟨id, form'⟩ := stmt
  cases form
  refine Node.wellScoped_iff.mpr ⟨nofun, fun p mem => ?_⟩
  have at_ : p = (r, .var v) := by
    simpa [Node.scopes, Node.groups, Stmt.groups, Stmt.children, Declaration.children,
      Node.label, StmtForm.blank, Node.Label.region, Region.inTurn] using mem
  subst at_
  exact Node.wellScoped_var new

/-- A block stays well-scoped if a variable is declared in it, in front of a statement, whose
name is neither in scope nor declared in the block. -/
theorem Block.wellScoped_declare {r : Region} {block out : Block} {front back : List Stmt}
    {core changed declaration : Stmt} {modifiers : List Modifier} {typeName : String} {v : Variable}
    (h : (Node.block block).WellScoped r) (split : block.stmts = front ++ core :: back)
    (same : (Node.stmt core).ScopedAs (.stmt changed))
    (form : declaration.form = .declare ⟨modifiers, typeName, [v]⟩)
    (free : v.name ∉ r.names) (new : v.name ∉ (Node.block block).declaredNames)
    (stmts : out.stmts = front ++ [declaration, changed] ++ back) :
    (Node.block out).WellScoped r := by
  have inside {s : Stmt} (mem : s ∈ block.stmts) : v.name ∉ (Node.stmt s).declaredNames := fun h =>
    new (Node.mem_declaredNames_of_child (List.mem_map_of_mem mem) h)
  have declares : (Node.stmt declaration).declares = [v.name] := by
    show declaration.declaredNames = _
    rw [Stmt.declaredNames, form]
    rfl
  rw [Node.wellScoped_block, split, List.map_append, List.map_cons, Region.inTurn_append,
    List.forall_mem_append, Region.inTurn, List.forall_mem_cons] at h
  obtain ⟨inFront, atCore, behind⟩ := h
  rw [Node.wellScoped_block, stmts, List.append_assoc, List.map_append, List.cons_append,
    List.cons_append, List.nil_append, List.map_cons, List.map_cons, Region.inTurn_append,
    List.forall_mem_append, Region.inTurn, List.forall_mem_cons, Region.inTurn,
    List.forall_mem_cons, declares]
  refine ⟨inFront, Stmt.wellScoped_declare form fun named => ?_, ?_, ?_⟩
  · rcases Region.mem_names_declaring named with outer | before
    · exact free outer
    · obtain ⟨c, mem, named⟩ := List.mem_flatMap.mp before
      obtain ⟨s, earlier, rfl⟩ := List.mem_map.mp mem
      exact inside (split ▸ List.mem_append_left _ earlier) (Node.declares_subset _ named)
  · refine (same.wellScoped _ atCore).adds (.declaring_self _ _) ?_
    rw [same.declaredNames]
    exact inside (split ▸ List.mem_append_right _ List.mem_cons_self)
  · rw [same.declares]
    refine Node.wellScoped_inTurn behind ((Region.Adds.declaring_self v.name _).declaring _)
      fun n mem => ?_
    obtain ⟨s, later, rfl⟩ := List.mem_map.mp mem
    exact inside (split ▸ List.mem_append_right _ (List.mem_cons_of_mem _ later))

/-! ## What is taken -/

namespace Path

variable {old new : Node} {above above' : List Node}

/-- Among the children of a node of a list only the one before it in the list has its id. -/
def ToldApart : List Node → Prop
  | n :: parent :: above =>
    (∀ c ∈ parent.children, c.same n = true → c = n) ∧ ToldApart (parent :: above)
  | _ => True

theorem toldApart_of_coherent {n : Node} {above : List Node} (genuine : GenuineList (n :: above))
    (coherent : ∀ m ∈ above, m.Coherent) : ToldApart (n :: above) := by
  induction above generalizing n with
  | nil => trivial
  | cons parent above ih =>
    obtain ⟨here, further⟩ := List.forall_mem_cons.mp coherent
    exact ⟨fun c mem same => here.eq_of_same mem genuine.1 same, ih genuine.2 further⟩

/-- Ancestors that are rebuilt around the same node, or around one that is not older than
`bound`, as their children are. -/
theorem toldApart_go {old new : Node} {above : List Node} (done : List Node) {next bound : NodeId}
    (genuine : GenuineList (old :: above)) (fit : Node.SameSort old new)
    (apart : ToldApart (old :: above)) (older : ∀ m ∈ above, ∀ c ∈ m.children, c.id < bound)
    (new_id : new = old ∨ bound ≤ new.id) (le : bound ≤ next) :
    ∃ above' used, replacing.go old new above done next = (done ++ above', used) ∧
      ToldApart (new :: above') := by
  induction above generalizing old new done next with
  | nil => exact ⟨[], next, by rw [List.append_nil]; rfl, trivial⟩
  | cons parent above ih =>
    obtain ⟨front, found, back, split, -, refilled⟩ :=
      Node.replaceChild_refilled next genuine.1 fit
    have from_ : bound ≤ (parent.replaceChild next old new).id := by
      rwa [Node.replaceChild, Node.id_withChildren]
    obtain ⟨here, further⟩ := List.forall_mem_cons.mp older
    obtain ⟨above', used, run, above_apart⟩ := ih
      (done ++ [parent.replaceChild next old new]) genuine.2
      (Node.sameSort_of_label refilled.label.symm) apart.2 further (.inr from_) (Nat.le_succ_of_le le)
    refine ⟨parent.replaceChild next old new :: above', used, ?_, fun c mem same => ?_, above_apart⟩
    · rw [replacing.go]
      show replacing.go parent _ above _ (next + 1) = _
      rw [run, List.append_assoc]
      rfl
    · rw [refilled.children, List.mem_append, List.mem_cons] at mem
      have stays (child : c ∈ parent.children) : c = new := by
        rcases new_id with at_ | late
        · rw [at_] at same ⊢
          exact apart.1 c child same
        · exact absurd (here c child) (Nat.not_lt_of_le (Node.id_of_same same ▸ late))
      rcases mem with mem | rfl | mem
      · exact stays (split ▸ List.mem_append_left _ mem)
      · rfl
      · exact stays (split ▸ List.mem_append_right _ (List.mem_cons_of_mem _ mem))

theorem toldApart_replacing {next used bound : NodeId} (genuine : GenuineList (old :: above))
    (fit : Node.SameSort old new) (apart : ToldApart (old :: above))
    (older : ∀ m ∈ above, ∀ c ∈ m.children, c.id < bound) (new_id : new = old ∨ bound ≤ new.id)
    (le : bound ≤ next)
    (run : (⟨old :: above⟩ : Path).replacing above.length new next = (⟨new :: above'⟩, used)) :
    ToldApart (new :: above') := by
  obtain ⟨rebuilt, last, went, told⟩ := toldApart_go [new] genuine fit apart older new_id le
  have whole : ((⟨old :: above⟩ : Path).upTo (above.length + 1)).outward = old :: above := by
    simp [upTo, length]
  have inside : above.length < (⟨old :: above⟩ : Path).length := Nat.lt_succ_self _
  unfold replacing at run
  rw [whole] at run
  simp only [inside, if_true] at run
  rw [Fresh.bind_of_eq went] at run
  cases run
  exact told

/-- Ancestors that are rebuilt bring the same names into scope, if what takes the place of a
child declares what the child declared. -/
theorem Rebuilt.bindings (rebuilt : Rebuilt old new above above')
    (apart : ToldApart (old :: above)) (same : new.declares = old.declares) :
    above'.map Node.bindings = above.map Node.bindings := by
  induction rebuilt with
  | root => rfl
  | @parent old new parent rebuilt found front back above above' split found_same refilled _ ih =>
    have here : found = old :=
      apart.1 found (split ▸ List.mem_append_right _ List.mem_cons_self) found_same
    have each : List.Forall₂ (fun c c' : Node => c'.declares = c.declares) parent.children
        rebuilt.children := by
      have unchanged (nodes : List Node) :
          List.Forall₂ (fun c c' : Node => c'.declares = c.declares) nodes nodes :=
        List.forall₂_same.mpr fun _ _ => rfl
      rw [split, refilled.children, here]
      exact List.rel_append (unchanged front) (.cons same (unchanged back))
    rw [List.map_cons, List.map_cons, Node.bindings_refilled refilled.label each,
      ih apart.2 (Node.declares_refilled refilled.label each)]

end Path

namespace Repair

variable {c c' : Repair} {before : Block} {above : List Node}

/-- The names that are taken at a block in repair: all that are declared in the block, and
those that the nodes above it bring into scope. -/
theorem takenNames_currentPath (path : c.path = ⟨.block before :: above⟩)
    (genuine : Path.GenuineList (.block before :: above))
    (apart : Path.ToldApart (.block before :: above)) {p : Path} {next used : NodeId}
    (current : c.currentPath next = (p, used)) :
    p.takenNames = (Node.block c.block).declaredNames ++
      ((Node.block c.block).bindings ++ above.flatMap (·.bindings)) := by
  obtain ⟨above', used', replaced, rebuilt⟩ :=
    Path.replacing_end genuine (show Node.SameSort (.block before) (.block c.block) from rfl) next
  have same := rebuilt.bindings apart rfl
  unfold currentPath at current
  rw [path] at current
  cases replaced.symm.trans current
  show _ ++ List.flatMap _ (_ :: above') = _
  have brought : above'.flatMap (·.bindings) = above.flatMap (·.bindings) := by
    rw [List.flatMap_def, same, ← List.flatMap_def]
  rw [List.flatMap_cons, brought]
  rfl

/-! ## Repairs that extract -/

/-- What is kept along a repair of `after` below the nodes of `above`: the block is
well-scoped wherever it was, if no more is in scope than these nodes bring in, and a
statement of it that has the id of an anchor, or of what took the place of one, is that
statement. -/
structure Scoped (anchors : List Stmt) (before after : Block) (above : List Node)
    (start next : NodeId) (c : Repair) : Prop where
  path : c.path = ⟨.block before :: above⟩
  wellScoped : ∀ r : Region, (∀ y ∈ r.names, y ∈ above.flatMap (·.bindings)) →
    (Node.block after).WellScoped r → (Node.block c.block).WellScoped r
  genuine : ∀ s ∈ anchors ++ c.renamed.map (·.2), ∀ t ∈ c.block.stmts, t.id = s.id → t = s
  bounded : ∀ s ∈ anchors ++ c.renamed.map (·.2) ++ c.block.stmts, s.id < next
  isStatic : c.block.isStatic = after.isStatic
  new : c.block = after ∨ start ≤ c.block.id ∧ c.block.id < next

/-- What a statement is followed to is the statement or was put in the place of one. -/
theorem mem_of_follow {known : List Stmt} (replaced : ∀ p ∈ c.renamed, p.2 ∈ known) {fuel : Nat}
    {stmt core : Stmt} (start : stmt ∈ known) (found : c.follow fuel stmt = some core) :
    core ∈ known := by
  induction fuel generalizing stmt with
  | zero => cases found
  | succ fuel ih =>
    rw [follow] at found
    split at found
    next =>
      cases found
      exact start
    next =>
      split at found
      next pair entry => exact ih (replaced _ (List.mem_of_find?_eq_some entry)) found
      next => cases found

namespace Scoped

variable {anchors : List Stmt} {after : Block} {start next used : NodeId} {σ : Type}
  {site site' : Site Note σ} {core : Stmt}

theorem mono (h : c.Scoped anchors before after above start next) (le : next ≤ used) :
    c.Scoped anchors before after above start used where
  path := h.path
  wellScoped := h.wellScoped
  genuine := h.genuine
  bounded s mem := Nat.lt_of_lt_of_le (h.bounded s mem) le
  isStatic := h.isStatic
  new := h.new.imp_right fun new => ⟨new.1, Nat.lt_of_lt_of_le new.2 le⟩

/-- The first place of a statement that is known to a repair. -/
theorem split (h : c.Scoped anchors before after above start next)
    (known : core ∈ anchors ++ c.renamed.map (·.2)) (present : (c.block.position? core).isSome) :
    ∃ front back, c.block.stmts = front ++ core :: back ∧ core.id ∉ front.map (·.id) := by
  obtain ⟨t, mem, same⟩ := List.mem_map.mp (Block.position?_isSome.mp present)
  obtain rfl := h.genuine core known t mem same
  obtain ⟨front, back, split, first⟩ := List.eq_append_cons_of_mem mem
  refine ⟨front, back, split, fun twice => ?_⟩
  obtain ⟨u, earlier, same⟩ := List.mem_map.mp twice
  obtain rfl := h.genuine t known u (split ▸ List.mem_append_left _ earlier) same
  exact first earlier

/-- The name of an extraction is none that is in scope around the block, or declared in it. -/
theorem free_name (h : c.Scoped anchors before after above start next)
    (genuine : Path.GenuineList (.block before :: above)) (coherent : ∀ n ∈ above, n.Coherent)
    {path : Path} (current : c.currentPath next = (path, used)) (base : String) :
    leastFreeName base (path.takenNames ++ c.extracted) ∉ above.flatMap (·.bindings) ∧
      leastFreeName base (path.takenNames ++ c.extracted) ∉ (Node.block c.block).declaredNames := by
  have taken := takenNames_currentPath h.path genuine
    (Path.toldApart_of_coherent genuine coherent) current
  have fresh := leastFreeName_not_mem base (path.takenNames ++ c.extracted)
  rw [taken, List.mem_append, List.mem_append, List.mem_append, not_or, not_or, not_or] at fresh
  rw [taken]
  exact ⟨fresh.1.2.2, fresh.1.1⟩

/-- A declaration and what takes the place of a statement stand in the block of a repair. -/
theorem swapped {front back : List Stmt} {changed declaration : Stmt} {extracted : List String}
    (h : c.Scoped anchors before after above start next)
    (split : c.block.stmts = front ++ core :: back) (le : next ≤ changed.id)
    (order : changed.id < declaration.id) (below : declaration.id < used)
    (started : start ≤ used)
    (wellScoped : ∀ r : Region, (∀ y ∈ r.names, y ∈ above.flatMap (·.bindings)) →
      (Node.block c.block).WellScoped r →
      (Node.block ⟨used, c.block.isStatic, front ++ [declaration, changed] ++ back⟩).WellScoped r) :
    Scoped anchors before after above start (used + 1)
      { c with
        block := ⟨used, c.block.isStatic, front ++ [declaration, changed] ++ back⟩
        renamed := c.renamed ++ [(core, changed)]
        extracted } := by
  have tracked : anchors ++ (c.renamed ++ [(core, changed)]).map (·.2) =
      anchors ++ c.renamed.map (·.2) ++ [changed] := by
    rw [List.map_append, List.append_assoc]
    rfl
  have standing {s : Stmt} (mem : s ∈ front ++ [declaration, changed] ++ back) :
      s = declaration ∨ s = changed ∨ s ∈ c.block.stmts := by
    rw [split]
    simp only [List.mem_append, List.mem_cons, List.not_mem_nil, or_false] at mem ⊢
    tauto
  have early {s : Stmt} (mem : s ∈ anchors ++ c.renamed.map (·.2) ++ c.block.stmts) :
      s.id < changed.id :=
    Nat.lt_of_lt_of_le (h.bounded s mem) le
  refine ⟨h.path, fun r names hr => wellScoped r names (h.wellScoped r names hr), ?_, ?_, h.isStatic,
    .inr ⟨started, Nat.lt_succ_self _⟩⟩
  · rw [tracked]
    intro s known t there same
    rcases List.mem_append.mp known with known | known
    · have before := early (List.mem_append_left _ known)
      rcases standing there with rfl | rfl | stands
      · exact absurd same (Nat.ne_of_gt (Nat.lt_trans before order))
      · exact absurd same (Nat.ne_of_gt before)
      · exact h.genuine s known t stands same
    · obtain rfl := List.mem_singleton.mp known
      rcases standing there with rfl | rfl | stands
      · exact absurd same (Nat.ne_of_gt order)
      · rfl
      · exact absurd same (Nat.ne_of_lt (early (List.mem_append_right _ stands)))
  · rw [tracked]
    intro s mem
    refine Nat.lt_succ_of_lt (Nat.lt_of_le_of_lt ?_ below)
    rcases List.mem_append.mp mem with known | there
    · rcases List.mem_append.mp known with known | new
      · exact Nat.le_of_lt (Nat.lt_trans (early (List.mem_append_left _ known)) order)
      · exact List.mem_singleton.mp new ▸ Nat.le_of_lt order
    · rcases standing there with rfl | rfl | stands
      · exact Nat.le_refl _
      · exact Nat.le_of_lt order
      · exact Nat.le_of_lt (Nat.lt_trans (early (List.mem_append_right _ stands)) order)

/-- An extraction keeps the block well-scoped. -/
theorem extract (h : c.Scoped anchors before after above start site.next)
    (genuine : Path.GenuineList (.block before :: above)) (coherent : ∀ n ∈ above, n.Coherent)
    (started : start ≤ site.next)
    (known : core ∈ anchors ++ c.renamed.map (·.2)) (present : (c.block.position? core).isSome)
    {tainted : Expr} {base : String}
    (ran : c.extract .standard core tainted base site = .ok c' site') :
    site.Asks site' ∧ c'.Scoped anchors before after above start site'.next := by
  obtain ⟨front, back, split, first⟩ := h.split known present
  obtain ⟨path, begun, name, read, named, replaced, current, free, reads, outcome⟩ :=
    ok_of_extract split first ran
  have named_le : begun ≤ named := by
    cases reads
    exact Nat.le_succ _
  have le : site.next ≤ named := Nat.le_trans (c.currentPath_grows.le current) named_le
  rcases outcome with ⟨nothing, rfl, rfl⟩ | ⟨changed, declaration, declared, rewrites, declares,
    rfl, rfl⟩
  · have grown := Nat.le_trans le ((core.replaceAlike?_grows _ _).le nothing)
    exact ⟨.of_next grown, h.mono grown⟩
  · have new := Stmt.replaceAlike?_id rewrites
    have new' := Stmt.mkDeclare_id declares
    have late : site.next ≤ changed.id := Nat.le_trans le new.1
    have order : changed.id < declaration.id := Nat.lt_of_lt_of_le new.2 new'.1
    have grown : site.next ≤ declared :=
      Nat.le_of_lt (Nat.lt_of_le_of_lt late (Nat.lt_trans order new'.2))
    have form : ∃ v : Variable, v.name = name ∧
        declaration.form = .declare ⟨[.final], tainted.ty.simpleName?.getD "var", [v]⟩ := by
      cases declares
      exact ⟨_, rfl, rfl⟩
    obtain ⟨v, rfl, form⟩ := form
    obtain ⟨outside, inside⟩ := h.free_name genuine coherent current base
    rw [← free] at outside inside
    refine ⟨⟨Nat.le_succ_of_le grown, _, rfl⟩,
      h.swapped split late order new'.2 (Nat.le_trans started grown) fun r names wellScoped => ?_⟩
    exact Block.wellScoped_declare wellScoped split (Stmt.replaceAlike?_scopedAs rewrites) form
      (fun named => outside (names _ named)) inside rfl

/-- A fix that extracts keeps the block well-scoped. -/
theorem apply (h : c.Scoped anchors before after above start site.next)
    (genuine : Path.GenuineList (.block before :: above)) (coherent : ∀ n ∈ above, n.Coherent)
    (started : start ≤ site.next)
    {fix : PendingFix} (extracts : fix.kind.tag = .extract) (anchor : fix.anchor ∈ anchors)
    (ran : Repair.apply .standard c fix site = .ok c' site') :
    site.Asks site' ∧ c'.Scoped anchors before after above start site'.next := by
  cases resolved : c.resolve? fix.anchor with
  | none =>
    obtain ⟨rfl, rfl⟩ := apply_of_unresolved resolved ran
    exact ⟨.of_next (Nat.le_refl _), h⟩
  | some core =>
    have known : core ∈ anchors ++ c.renamed.map (·.2) :=
      mem_of_follow (fun p mem => List.mem_append_right _ (List.mem_map_of_mem mem))
        (List.mem_append_left _ anchor) resolved
    unfold Repair.apply at ran
    simp only [resolved] at ran
    cases kind : fix.kind with
    | extract base =>
      simp only [kind] at ran
      exact h.extract genuine coherent started known (position?_of_follow resolved) ran
    | _ =>
      rw [kind] at extracts
      cases extracts

/-- Fixes that extract keep the block well-scoped. -/
theorem run {fixes : List PendingFix} (h : c.Scoped anchors before after above start site.next)
    (genuine : Path.GenuineList (.block before :: above)) (coherent : ∀ n ∈ above, n.Coherent)
    (started : start ≤ site.next)
    (extracts : ∀ fix ∈ fixes, fix.kind.tag = .extract ∧ fix.anchor ∈ anchors)
    (ran : fixes.foldlM (Repair.apply .standard) c site = .ok c' site') :
    (site.next ≤ site'.next ∧ site'.cursor.waiting = site.cursor.waiting) ∧
      c'.Scoped anchors before after above start site'.next := by
  induction fixes generalizing c site with
  | nil =>
    cases ran
    exact ⟨⟨Nat.le_refl _, rfl⟩, h⟩
  | cons fix fixes ih =>
    rw [List.foldlM_cons] at ran
    obtain ⟨c₁, site₁, ran₁, ran₂⟩ := VisitM.ok_of_bind ran
    obtain ⟨extracts, rest⟩ := List.forall_mem_cons.mp extracts
    obtain ⟨asks, h₁⟩ := h.apply genuine coherent started extracts.1 extracts.2 ran₁
    obtain ⟨⟨grown, waiting⟩, h'⟩ := ih h₁ (Nat.le_trans started asks.1) rest ran₂
    refine ⟨⟨Nat.le_trans asks.1 grown, waiting.trans ?_⟩, h'⟩
    obtain ⟨-, fqns, at_⟩ := asks
    rw [at_]
    exact site.cursor.waiting_requestImports fqns

end Scoped

variable {anchors : List Stmt} {after : Block} {next : NodeId}

/-- A repair that has not begun. -/
theorem scoped_start (anchored : ∀ s ∈ anchors, ∀ t ∈ after.stmts, t.id = s.id → t = s)
    (distinct : ∀ s ∈ after.stmts, ∀ t ∈ after.stmts, t.id = s.id → t = s)
    (bounded : ∀ s ∈ anchors ++ after.stmts, s.id < next) :
    Scoped anchors before after above next next (.start ⟨.block before :: above⟩ before after) := by
  have replaced : ∀ s ∈ (start ⟨.block before :: above⟩ before after).renamed.map (·.2),
      s ∈ after.stmts := by
    intro s mem
    obtain ⟨pair, entry, rfl⟩ := List.mem_map.mp mem
    unfold start at entry
    dsimp only at entry
    split at entry
    · exact (List.of_mem_zip (List.mem_filter.mp entry).1).2
    · cases entry
  refine ⟨rfl, fun _ _ h => h, fun s mem => ?_, fun s mem => bounded s ?_, rfl, .inl rfl⟩
  · rcases List.mem_append.mp mem with anchor | mem
    · exact anchored s anchor
    · exact distinct s (replaced s mem)
  · simp only [List.mem_append] at mem ⊢
    exact (mem.imp_left fun mem => mem.imp_right (replaced s)).elim (fun h => h) .inr

end Repair

/-- A repair whose fixes all extract: the block is well-scoped wherever it was, if no more is
in scope than the nodes above bring in. -/
theorem repair_wellScoped {σ : Type} {before after out : Block} {fixes : List PendingFix}
    {rest : List (Node × List PendingFix)} {site site' : Site Note σ}
    (waiting : site.cursor.waiting = (.block before, fixes) :: rest)
    (genuine : Path.GenuineList (.block before :: rest.map (·.1)))
    (coherent : ∀ n ∈ rest.map (·.1), n.Coherent)
    (extracts : ∀ fix ∈ fixes, fix.kind.tag = .extract ∧ fix.anchor.id < site.next ∧
      ∀ t ∈ after.stmts, t.id = fix.anchor.id → t = fix.anchor)
    (distinct : ∀ s ∈ after.stmts, ∀ t ∈ after.stmts, t.id = s.id → t = s)
    (bounded : ∀ s ∈ after.stmts, s.id < site.next)
    (ran : repair .standard before after site = .ok out site') :
    site.next ≤ site'.next ∧ site'.cursor.waiting = (.block before, []) :: rest ∧
      (∀ r : Region, (∀ y ∈ r.names, y ∈ (rest.map (·.1)).flatMap (·.bindings)) →
        (Node.block after).WellScoped r → (Node.block out).WellScoped r) ∧
      out.isStatic = after.isStatic ∧
      (out = after ∨ site.next ≤ out.id ∧ out.id < site'.next) := by
  unfold repair at ran
  obtain ⟨answer, site₁, ran₁, ran⟩ := VisitM.ok_of_bind ran
  obtain ⟨taken, next, cursor⟩ : answer = (site.cursor.take Note.fixTopic).1 ∧
      site₁.next = site.next ∧ site₁.cursor = (site.cursor.take Note.fixTopic).2 := by
    cases ran₁
    exact ⟨rfl, rfl, rfl⟩
  rcases Cursor.waiting_take waiting with ⟨none, rfl, left⟩ | ⟨pending, some, rfl, left⟩
  · rw [taken, none] at ran
    cases ran
    refine ⟨Nat.le_of_eq next.symm, ?_, fun _ _ h => h, rfl, .inl rfl⟩
    rw [cursor, left, waiting]
  · rw [taken, some] at ran
    obtain ⟨path, _, ran₂, ran⟩ := VisitM.ok_of_bind ran
    cases ran₂
    obtain ⟨c, _, ran, done⟩ := VisitM.ok_of_bind ran
    cases done
    rw [← cursor] at left
    have here : site₁.cursor.path = ⟨.block before :: rest.map (·.1)⟩ :=
      congrArg Path.mk (site₁.cursor.outward_path.trans (by rw [left, List.map_cons]))
    rw [here] at ran
    rw [← next] at extracts bounded ⊢
    have begun : Repair.Scoped (pending.fixes.map (·.anchor)) before after (rest.map (·.1))
        site₁.next site₁.next (.start ⟨.block before :: rest.map (·.1)⟩ before after) := by
      refine Repair.scoped_start (fun s mem => ?_) distinct fun s mem => ?_
      · obtain ⟨fix, noted, rfl⟩ := List.mem_map.mp mem
        exact (extracts fix noted).2.2
      · rcases List.mem_append.mp mem with mem | mem
        · obtain ⟨fix, noted, rfl⟩ := List.mem_map.mp mem
          exact (extracts fix noted).2.1
        · exact bounded s mem
    obtain ⟨⟨grown, kept⟩, h⟩ := begun.run genuine coherent (Nat.le_refl _) (fun fix mem => by
      have noted := pending.ordered_perm.mem_iff.mp mem
      exact ⟨(extracts fix noted).1, List.mem_map_of_mem noted⟩) ran
    exact ⟨grown, kept.trans left, h.wellScoped, h.isStatic, h.new⟩

/-! ## What is read -/

/-- The locals that are read anywhere in a subtree, once per read. -/
def Node.localReads (n : Node) : List String :=
  n.subtree.filterMap fun m => m.expr?.bind Expr.localName?

namespace Node

variable {n c m out : Node} {b : Block} {e : Expr} {x : String}

theorem localReads_eq (n : Node) : n.localReads =
    (n.expr?.bind Expr.localName?).toList ++ n.children.flatMap localReads := by
  unfold localReads
  rw [subtree_eq, List.filterMap_cons, List.filterMap_flatMap]
  cases n.expr?.bind Expr.localName? <;> rfl

theorem mem_localReads : x ∈ n.localReads ↔ ∃ e, .expr e ∈ n.subtree ∧ e.localName? = some x := by
  unfold localReads
  rw [List.mem_filterMap]
  constructor
  · rintro ⟨m, below, reads⟩
    obtain ⟨e, isExpr, named⟩ := Option.bind_eq_some_iff.mp reads
    cases m with
    | expr sub =>
      cases isExpr
      exact ⟨e, below, named⟩
    | _ => cases isExpr
  · rintro ⟨e, below, named⟩
    exact ⟨.expr e, below, named⟩

theorem localReads_subset_of_mem (below : m ∈ n.subtree) : m.localReads ⊆ n.localReads := by
  intro x reads
  obtain ⟨e, inside, named⟩ := mem_localReads.mp reads
  exact mem_localReads.mpr ⟨e, subtree_trans below inside, named⟩

theorem localReads_subset_of_child (child : c ∈ n.children) : c.localReads ⊆ n.localReads :=
  localReads_subset_of_mem (mem_subtree_of_child child mem_subtree_self)

theorem localReads_expr (e : Expr) : (expr e).localReads = e.localReads := by
  generalize at_ : expr e = n
  induction n using inductionOn generalizing e with
  | step n ih =>
    subst at_
    rw [localReads_eq, Expr.localReads_eq]
    refine congrArg (e.localName?.toList ++ ·) ?_
    show (e.children.map expr).flatMap localReads = _
    rw [List.flatMap_map]
    exact List.flatMap_congr fun c mem => ih _ (List.mem_map_of_mem mem) c rfl

/-- What a node that is no expression reads, its children read. -/
theorem localReads_of_plain (plain : n.expr? = none) :
    n.localReads = n.children.flatMap localReads := by
  rw [localReads_eq, plain]
  rfl

theorem mem_localReads_block :
    x ∈ (block b).localReads ↔ ∃ s ∈ b.stmts, x ∈ (stmt s).localReads := by
  have children : (block b).localReads = (b.stmts.map stmt).flatMap localReads :=
    localReads_of_plain rfl
  rw [children, List.flatMap_map, List.mem_flatMap]

theorem mem_declaredNames_block :
    x ∈ (block b).declaredNames ↔ ∃ s ∈ b.stmts, x ∈ (stmt s).declaredNames := by
  have children : (block b).declaredNames = [] ++ (b.stmts.map stmt).flatMap declaredNames :=
    declaredNames_eq _
  rw [children, List.nil_append, List.flatMap_map, List.mem_flatMap]

/-- Nodes of one label are reads of one local, if of any. -/
theorem localName?_of_label (label : out.label = n.label) :
    out.expr?.bind Expr.localName? = n.expr?.bind Expr.localName? := by
  cases n <;> cases out <;> simp only [Node.label, Label.expr.injEq, reduceCtorEq] at label <;>
    first | rfl | exact Expr.localName?_of_blank label.2

end Node

/-! ## What is known -/

/-- What a block reads under names that begin with `stem` is declared in it or in scope. -/
def Block.Knows (stem : String) (scope : List String) (b : Block) : Prop :=
  ∀ x ∈ (Node.block b).localReads, (∃ ending, x = stem ++ ending) →
    x ∈ (Node.block b).declaredNames ∨ x ∈ scope

/-- What is read under names that begin with `stem` is known at each block of the node, `scope`
being in scope around it. -/
inductive Node.Resolved (stem : String) : List String → Node → Prop where
  | node {scope : List String} {n : Node} (knows : ∀ b, n = .block b → b.Knows stem scope)
      (children : ∀ c ∈ n.children, Resolved stem (n.bindings ++ scope) c) : Resolved stem scope n

namespace Node.Resolved

variable {stem : String} {scope : List String} {n c : Node} {b : Block}

theorem knows (h : (block b).Resolved stem scope) : b.Knows stem scope := by
  cases h with
  | node knows _ => exact knows b rfl

theorem child (h : n.Resolved stem scope) (mem : c ∈ n.children) :
    c.Resolved stem (n.bindings ++ scope) := by
  cases h with
  | node _ children => exact children c mem

/-- A node that reads nothing under such a name. -/
theorem of_unread (unread : ∀ x ∈ n.localReads, ∀ ending, x ≠ stem ++ ending) :
    n.Resolved stem scope := by
  induction n using inductionOn generalizing scope with
  | step n ih =>
    refine .node (fun b same x mem stemmed => ?_) fun c child => ih c child fun x mem => ?_
    · obtain ⟨ending, same'⟩ := stemmed
      exact (unread x (same ▸ mem) ending same').elim
    · exact unread x (localReads_subset_of_child child mem)

/-- There are no blocks in an expression. -/
theorem expr (e : Expr) : (Node.expr e).Resolved stem scope := by
  generalize at_ : Node.expr e = n
  induction n using inductionOn generalizing e scope with
  | step n ih =>
    subst at_
    refine .node (fun b other => nomatch other) fun c child => ?_
    obtain ⟨sub, -, same⟩ := List.mem_map.mp child
    exact ih c child sub same

end Node.Resolved

end JavaMend
