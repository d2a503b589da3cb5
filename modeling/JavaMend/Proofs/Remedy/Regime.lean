import JavaMend.Proofs.Patch.Waiting
import JavaMend.Proofs.Traversal.Rebuild
import JavaMend.Proofs.Traversal.Surface
import JavaMend.Remedy.Pass

/-!
# Visits that own their nodes

A visit that notes fixes moves nodes about: what stood in the tree may be taken
apart, wait on a frame and be written back elsewhere. All nodes that there are at any
time, in what is not yet visited, in what has been made of the rest and in the fixes
that wait, are nodes of the tree or new, and none is there twice (`Regime.Owns`). This
is the invariant of a visit (`Regime.Holds`), next to what is known about each fix
that waits (`Regime.Anchored`): its anchor is a statement of the block it waits at,
and an expression to be extracted stands on the surface of its anchor.

What else a visit keeps to is a parameter, the rest of a `Regime`: which fixes may
wait at a block, and what a node may become. `Regime.run_mends` is the
induction over the tree, once for all.
-/

namespace JavaMend

/-- Children that came back as the same nodes are the children they were, if all else is
newer than them. -/
theorem Node.children_eq_of_same {n : Node} {news : List Node} {mark : NodeId}
    (new : List.Forall₂ (fun c out => out = c ∨ mark ≤ out.id) n.children news)
    (old : ∀ c ∈ n.children, c.id < mark)
    (same : ((n.children.zip news).all fun p => p.2.same p.1) = true) : news = n.children := by
  refine List.ext_getElem new.length_eq.symm fun i hi hi' => ?_
  have mem : (n.children[i], news[i]) ∈ n.children.zip news :=
    List.mem_iff_getElem.mpr ⟨i, by simpa using ⟨hi', hi⟩, by simp⟩
  have here := Node.id_of_same (List.all_eq_true.mp same _ mem)
  refine ((List.forall₂_iff_get.mp new).2 i hi' hi).resolve_right fun late => ?_
  exact Nat.not_lt_of_le late (here ▸ old _ (List.getElem_mem hi'))

/-- What a visit is held to. Expressions that are `hidden` are not accounted for. -/
structure Regime where
  hidden : Expr → Bool
  /-- The nodes there are before the visit. -/
  tree : Multiset Node
  /-- The first id of the visit. -/
  mark : NodeId
  /-- May a fix wait at the first of these nodes? -/
  fits : List Node → PendingFix → Prop
  /-- Below these nodes, may a node become another one? -/
  became : List Node → Node → Node → Prop
  /-- In the first of these nodes, may a statement become a segment? -/
  segment : List Node → Stmt → Segment → Prop

namespace Regime

variable {G : Regime} {σ : Type}

/-! ## Nodes that are owned -/

/-- The nodes are nodes of the tree or new, and none is there twice. -/
def Owns (G : Regime) (next : NodeId) (nodes : Multiset Node) : Prop :=
  ∃ new, Drawn G.mark next new ∧ nodes ≤ G.tree + new

section

variable {next used : NodeId} {nodes more new : Multiset Node}

theorem Owns.le (h : G.Owns next nodes) : G.mark ≤ next := by
  obtain ⟨new, drawn, -⟩ := h
  exact drawn.le

/-- What is made of nodes that are owned, and of new ones, is owned. -/
theorem Owns.spend (h : G.Owns next nodes) (drawn : Drawn next used new) (le : more ≤ nodes + new) :
    G.Owns used more := by
  obtain ⟨old, drawn₀, owned⟩ := h
  refine ⟨old + new, drawn₀.add drawn, ?_⟩
  calc more ≤ nodes + new := le
    _ ≤ G.tree + old + new := by gcongr
    _ = G.tree + (old + new) := add_assoc _ _ _

end

/-! ## The invariant of a visit -/

/-- A fix that can wait at the first of some nodes, which is a block. -/
structure Anchored (G : Regime) (path : List Node) (fix : PendingFix) : Prop where
  anchor : ∃ b above, path = .block b :: above ∧ fix.anchor ∈ b.stmts
  written : ∀ s ∈ fix.kind.written, G.mark ≤ s.id
  replaces : fix.kind.tag = .replace → .expr fix.tainted ∈ G.tree ∧ ∀ e, G.hidden e = false
  extracts : fix.kind.tag = .extract → fix.tainted ∈ (Node.stmt fix.anchor).surface ∧
    ∀ read : Expr, read.localName?.isSome → G.mark ≤ read.id → G.hidden read = true
  fits : G.fits path fix

/-- Fixes that can wait together at the first of some nodes. -/
structure Allows (G : Regime) (path : List Node) (fixes : List PendingFix) : Prop where
  distinct : PendingFixes.Distinct fixes
  anchored : ∀ fix ∈ fixes, G.Anchored path fix

theorem allows_nil (path : List Node) : G.Allows path [] := ⟨.nil, fun _ mem => nomatch mem⟩

/-- Wherever fixes wait, they are allowed to. -/
def AllowsAll (G : Regime) : List (Node × List PendingFix) → Prop
  | [] => True
  | (n, fixes) :: above => G.Allows (n :: above.map (·.1)) fixes ∧ AllowsAll G above

/-- The nodes that all fixes that wait bring along. -/
noncomputable def load (G : Regime) (waiting : List (Node × List PendingFix)) : Multiset Node :=
  (waiting.map fun p => PendingFix.loadOf G.hidden p.2).sum

/-- The invariant: the visit is at the end of `path`, the fixes that wait are allowed
to, and the nodes at hand and in the fixes are owned. -/
structure Holds (G : Regime) (path : List Node) (hand : Multiset Node) (site : Site Note σ) :
    Prop where
  path : site.cursor.waiting.map (·.1) = path
  allowed : G.AllowsAll site.cursor.waiting
  owns : G.Owns site.next (hand + G.load site.cursor.waiting)

theorem load_cons (n : Node) (fixes : List PendingFix) (above : List (Node × List PendingFix)) :
    G.load ((n, fixes) :: above) = PendingFix.loadOf G.hidden fixes + G.load above := by
  simp [load]

theorem load_append (front back : List (Node × List PendingFix)) :
    G.load (front ++ back) = G.load front + G.load back := by
  simp [load]

namespace Holds

variable {path : List Node} {hand hand' : Multiset Node} {site : Site Note σ}

/-- Nothing else of a site matters. -/
theorem of_waiting {τ : Type} {site' : Site Note τ} (h : G.Holds path hand site)
    (same : site'.cursor.waiting = site.cursor.waiting) (le : site.next ≤ site'.next)
    (fewer : hand' ≤ hand) : G.Holds path hand' site' where
  path := same ▸ h.path
  allowed := same ▸ h.allowed
  owns := by
    refine h.owns.spend (.zero le) ?_
    rw [same, add_zero]
    gcongr

theorem weaken (h : G.Holds path hand site) (fewer : hand' ≤ hand) : G.Holds path hand' site :=
  h.of_waiting rfl (Nat.le_refl _) fewer

/-- Making nodes of those at hand. -/
theorem spend {used : NodeId} {new : Multiset Node} (h : G.Holds path hand site)
    (drawn : Drawn site.next used new) (le : hand' ≤ hand + new) :
    G.Holds path hand' { site with next := used } where
  path := h.path
  allowed := h.allowed
  owns := by
    refine h.owns.spend drawn ?_
    calc hand' + G.load site.cursor.waiting
        ≤ hand + new + G.load site.cursor.waiting := by gcongr
      _ = hand + G.load site.cursor.waiting + new := add_right_comm _ _ _

theorem outward (h : G.Holds path hand site) : site.cursor.path = ⟨path⟩ := by
  rw [← h.path, ← Cursor.outward_path]

end Holds

/-- A visit that keeps the invariant, whatever is at hand. -/
abbrev Keeps {α : Type} (G : Regime) (path : List Node) (action : PassM σ α) : Prop :=
  ∀ hand, VisitM.Triple (G.Holds path hand) action fun _ => G.Holds path hand

section

variable {path : List Node} {hand : Multiset Node}

theorem path_holds : VisitM.Triple (G.Holds path hand) (VisitM.path : PassM σ Path)
    fun p site => p = ⟨path⟩ ∧ G.Holds path hand site :=
  .path fun _ h => ⟨h.outward, h⟩

theorem modifyOwn_keeps (change : σ → σ) : G.Keeps path (VisitM.modifyOwn change : PassM σ Unit) :=
  fun _ => .modifyOwn fun _ h => h.of_waiting rfl (Nat.le_refl _) le_rfl

theorem own_keeps : G.Keeps path (VisitM.own : PassM σ σ) := fun _ => .own fun _ h => h

theorem requestImports_keeps (fqns : List String) :
    G.Keeps path (PassM.requestImports fqns : PassM σ Unit) := fun _ =>
  .modifyCursor fun site h =>
    h.of_waiting (site.cursor.waiting_requestImports fqns) (Nat.le_refl _) le_rfl

theorem noteFinding_keeps (finding : Finding) :
    G.Keeps path (VisitM.modifyCursor fun c => ((), c.noteFinding finding) : PassM σ Unit) :=
  fun _ => .modifyCursor fun site h =>
    h.of_waiting (site.cursor.waiting_noteFinding finding) (Nat.le_refl _) le_rfl

/-- What a maker makes has a budget and new nodes, and these are at hand. -/
theorem fresh_holds {α : Type} {make : Fresh α} {budget : Multiset Node}
    {parts : α → Multiset Node} (spends : make.Spends budget parts) :
    VisitM.Triple (G.Holds path hand) (VisitM.fresh make : PassM σ α) fun a site =>
      (∃ next, (make next).1 = a) ∧ ∃ extra, (∀ m ∈ extra, G.mark ≤ m.id) ∧
        parts a ≤ budget + extra ∧ G.Holds path (extra + hand) site := by
  refine .fresh fun site h => ?_
  obtain ⟨new, drawn, made⟩ := spends site.next
  refine ⟨⟨site.next, rfl⟩, new, fun m mem => ?_, made, h.spend drawn (le_of_eq (add_comm _ _))⟩
  exact Nat.le_trans h.owns.le (drawn.within m mem).1

end

/-! ## Noting fixes -/

theorem Allows.add {path : List Node} {fixes : List PendingFix} {fix : PendingFix}
    (h : G.Allows path fixes) (anchored : G.Anchored path fix) :
    G.Allows path (PendingFixes.add ⟨fixes⟩ fix).fixes where
  distinct := PendingFixes.distinct_add h.distinct fix
  anchored other mem := by
    rcases List.mem_append.mp mem with mem | mem
    · exact h.anchored other (List.mem_filter.mp mem).1
    · cases List.mem_singleton.mp mem
      exact anchored

theorem allowsAll_of_split {front back : List (Node × List PendingFix)} {n : Node}
    {fixes more : List PendingFix} (h : G.AllowsAll (front ++ (n, fixes) :: back))
    (changed : G.Allows (n :: back.map (·.1)) fixes → G.Allows (n :: back.map (·.1)) more) :
    G.AllowsAll (front ++ (n, more) :: back) := by
  induction front with
  | nil => exact ⟨changed h.1, h.2⟩
  | cons p front ih =>
    have nodes : (front ++ (n, more) :: back).map (·.1) =
        (front ++ (n, fixes) :: back).map (·.1) := by simp
    refine ⟨?_, ih h.2⟩
    show G.Allows (p.1 :: (front ++ (n, more) :: back).map (·.1)) p.2
    rw [nodes]
    exact h.1

/-- Fixes that are superseded take their load with them. -/
theorem loadOf_add_le (hidden : Expr → Bool) (fixes : List PendingFix) (fix : PendingFix) :
    PendingFix.loadOf hidden (PendingFixes.add ⟨fixes⟩ fix).fixes ≤
      fix.load hidden + PendingFix.loadOf hidden fixes := by
  unfold PendingFixes.add
  rw [PendingFix.loadOf_append, PendingFix.loadOf_cons, PendingFix.loadOf_nil, add_zero, add_comm]
  gcongr
  exact PendingFix.loadOf_le_of_sublist List.filter_sublist

/-- Noting a fix for a statement of the nearest block, with its load at hand. -/
theorem noteFix_holds {path front above : List Node} {b : Block} {fix : PendingFix}
    {extra hand : Multiset Node} (split : path = front ++ .block b :: above)
    (open_ : ∀ n ∈ front, n.block? = none) (anchored : G.Anchored (.block b :: above) fix)
    (paid : fix.load G.hidden ≤ extra) :
    VisitM.Triple (G.Holds path (extra + hand)) (PassM.noteFix fix : PassM σ Bool)
      fun _ => G.Holds path hand := by
  refine .modifyCursor fun site h => ?_
  have nodes := h.path
  rw [split] at nodes
  obtain ⟨front', rest, waiting, rfl, tail⟩ := List.map_eq_append_iff.mp nodes
  obtain ⟨⟨n, fixes⟩, back, rfl, rfl, rfl⟩ := List.map_eq_cons_iff.mp tail
  obtain ⟨b', above', at_, inside⟩ := anchored.anchor
  cases at_
  have noted := Cursor.waiting_noteFix waiting
    (fun p hp => open_ p.1 (List.mem_map_of_mem hp)) inside
  have dropped : G.Holds path hand site := h.weaken (Multiset.le_add_left _ _)
  rcases noted with ⟨same, -⟩ | added
  · exact dropped.of_waiting same (Nat.le_refl _) le_rfl
  · refine ⟨?_, ?_, ?_⟩
    · rw [added, split, List.map_append, List.map_cons]
    · have allowed := h.allowed
      rw [waiting] at allowed
      rw [added]
      exact allowsAll_of_split allowed fun here => here.add anchored
    · refine h.owns.spend (.zero (Nat.le_refl _)) ?_
      rw [added, waiting, add_zero]
      simp only [load_append, load_cons]
      calc hand + (G.load front' + (PendingFix.loadOf G.hidden
              (PendingFixes.add ⟨fixes⟩ fix).fixes + G.load back))
          ≤ hand + (G.load front' + (extra + PendingFix.loadOf G.hidden fixes + G.load back)) := by
            gcongr
            exact le_trans (loadOf_add_le _ _ _) (by gcongr)
        _ = extra + hand + (G.load front' + (PendingFix.loadOf G.hidden fixes + G.load back)) := by
            abel

/-! ## Nodes that are visited -/

/-- A node of the tree, below the nodes of `above`. -/
structure Stands (G : Regime) (n : Node) (above : List Node) : Prop where
  genuine : Path.GenuineList (n :: above)
  parts : n.parts (fun _ => false) ≤ G.tree
  /-- The body of the innermost method or initializer is one of the tree, too. -/
  body : ∀ index b, Path.outerBody?.go (n :: above) = some (index, b) →
    (Node.block b).parts (fun _ => false) ≤ G.tree

/-- What a visit may make of a node. -/
structure Became (G : Regime) (above : List Node) (n out : Node) : Prop where
  sort : Node.SameSort n out
  new : out = n ∨ G.mark ≤ out.id
  expr : n.expr?.isSome → out = n
  block : n.block?.isSome → out.label = n.label
  surface : n.surface ⊆ out.surface
  became : G.became above n out

/-- What a descent makes of a node: only children changed. -/
structure Walked (G : Regime) (above : List Node) (n out : Node) : Prop where
  became : G.Became above n out
  label : out.label = n.label
  children : List.Forall₂ (G.Became (n :: above)) n.children out.children

/-- The rules that a regime has to have. -/
structure Lawful (G : Regime) : Prop where
  drawn : Drawn 0 G.mark G.tree
  became_self : ∀ above n, G.became above n n
  became_refilled : ∀ above n out news, n.Refilled out news →
    List.Forall₂ (G.Became (n :: above)) n.children news → G.became above n out
  segment_visited : ∀ b above s s', s ∈ b.stmts →
    G.Became (.block b :: above) (.stmt s) (.stmt s') →
    G.segment (.block b :: above) s (.ofStmt s')
  segment_step : ∀ path fix front core back next used before core' after,
    G.Anchored path fix → G.segment path fix.anchor ⟨front, some core, back⟩ → G.mark ≤ next →
    FixStep next used fix core before core' after →
    (fix.kind.tag = .replace → (Node.stmt core).Coherent ∧
      ∀ m ∈ (Node.stmt core).subtree, m.same (.expr fix.tainted) = true → m = .expr fix.tainted) →
    G.segment path fix.anchor ⟨front ++ before, core', after ++ back⟩
  became_repaired : ∀ (b out : Block) (above : List Node) (parts : List (Stmt × Segment)),
    parts.map (·.1) = b.stmts → out.isStatic = b.isStatic →
    out.stmts = parts.flatMap (·.2.stmts) →
    (∀ p ∈ parts, G.segment (.block b :: above) p.1 p.2) → G.became above (.block b) (.block out)

variable {n c out : Node} {above : List Node}

theorem Stands.mem_tree (h : G.Stands n above) {m : Node} (mem : m ∈ n.subtree) : m ∈ G.tree :=
  Multiset.mem_of_le h.parts (by rwa [Node.parts_all])

theorem Stands.child (h : G.Stands n above) (mem : c ∈ n.children) : G.Stands c (n :: above) where
  genuine := ⟨mem, h.genuine⟩
  parts := le_trans (Node.parts_le_of_mem mem) h.parts
  body index b found := by
    rcases Path.outerBody?_go_cons c (n :: above) with ⟨-, b', rfl, here⟩ | ⟨-, further⟩
    · rw [here] at found
      cases found
      exact le_trans (Node.parts_le_of_mem mem) h.parts
    · rw [further] at found
      exact h.body index b found

/-- The nodes of the tree are older than the visit. -/
theorem Lawful.id_lt (lawful : G.Lawful) (h : G.Stands n above) {m : Node} (mem : m ∈ n.subtree) :
    m.id < G.mark :=
  (lawful.drawn.within m (h.mem_tree mem)).2

theorem Lawful.became (lawful : G.Lawful) (above : List Node) (n : Node) : G.Became above n n :=
  ⟨rfl, .inl rfl, fun _ => rfl, fun _ => rfl, List.Subset.refl _, lawful.became_self above n⟩

theorem Lawful.walked (lawful : G.Lawful) (above : List Node) (n : Node) : G.Walked above n n :=
  ⟨lawful.became above n, rfl, List.forall₂_same.mpr fun c _ => lawful.became (n :: above) c⟩

/-- A child that became the same node came back. -/
theorem Became.eq_of_same (h : G.Became above n out) (old : n.id < G.mark)
    (same : out.same n = true) : out = n := by
  refine h.new.resolve_right fun new => ?_
  exact Nat.not_lt_of_le (Node.id_of_same same ▸ new) old

/-! ## Descents -/

/-- The action makes something good of a node that is at hand. -/
def Makes (G : Regime) (path : List Node) (n : Node) (good : Node → Prop) (action : PassM σ Node) :
    Prop :=
  ∀ rest, VisitM.Triple (G.Holds path (n.parts G.hidden + rest)) action
    fun out site => good out ∧ G.Holds path (out.parts G.hidden + rest) site

/-- The visitor makes of each node what it may become, whenever the descent does. -/
def Mends (G : Regime) (v : Visitor EngineError Note σ) : Prop :=
  ∀ n above descend, G.Stands n above → G.Makes (n :: above) n (G.Walked above n) descend →
    G.Makes (n :: above) n (G.Became above n) (v.visit n descend)

theorem Holds.push {path : List Node} {hand : Multiset Node}
    {site : Site Note σ} (h : G.Holds path hand site) (c : Node) :
    G.Holds (c :: path) hand { site with cursor := site.cursor.push c } where
  path := by
    show ((site.cursor.push c).waiting).map (·.1) = c :: path
    rw [Cursor.waiting_push, List.map_cons, h.path]
  allowed := ⟨allows_nil _, h.allowed⟩
  owns := by
    have none : G.load (site.cursor.push c).waiting = G.load site.cursor.waiting := by
      rw [Cursor.waiting_push, load_cons, PendingFix.loadOf_nil, zero_add]
    show G.Owns site.next (hand + G.load (site.cursor.push c).waiting)
    rw [none]
    exact h.owns

theorem Holds.pop {path : List Node} {hand : Multiset Node} {site : Site Note σ}
    (h : G.Holds (c :: path) hand site) :
    G.Holds path hand { site with cursor := site.cursor.pop } := by
  obtain ⟨⟨n, fixes⟩, above, waiting, -, rest⟩ := List.map_eq_cons_iff.mp h.path
  have popped : site.cursor.pop.waiting = above := by
    rw [Cursor.waiting_pop, waiting, List.tail_cons]
  have allowed := h.allowed
  have owns := h.owns
  rw [waiting] at allowed owns
  refine ⟨popped ▸ rest, popped ▸ allowed.2, owns.spend (.zero (Nat.le_refl _)) ?_⟩
  show hand + G.load site.cursor.pop.waiting ≤ _
  rw [popped, load_cons, add_zero]
  gcongr
  exact Multiset.le_add_left _ _

/-- A node whose children came back as something new. -/
theorem Lawful.walked_refilled (lawful : G.Lawful) {news : List Node} (refilled : n.Refilled out news)
    (children : List.Forall₂ (G.Became (n :: above)) n.children news) (new : G.mark ≤ out.id)
    (plain : n.expr? = none) : G.Walked above n out where
  became := by
    refine ⟨Node.sameSort_of_label refilled.label.symm, .inr new, fun e => ?_,
      fun _ => refilled.label, ?_, ?_⟩
    · rw [plain] at e
      cases e
    · exact Node.surface_subset_of_refilled plain refilled (children.imp fun _ _ h => h.surface)
    · exact lawful.became_refilled above n out news refilled children
  label := refilled.label
  children := refilled.children ▸ children

/-- Children that are expressions stay what they are. -/
theorem Became.children_of_expr {e : Expr} {news : List Node}
    (children : List.Forall₂ (G.Became (.expr e :: above)) (Node.expr e).children news) :
    news = (Node.expr e).children := by
  refine List.ext_getElem children.length_eq.symm fun i hi hi' => ?_
  refine ((List.forall₂_iff_get.mp children).2 i hi' hi).expr ?_
  obtain ⟨sub, -, here⟩ := List.mem_map.mp (List.getElem_mem hi')
  show ((Node.expr e).children[i].expr?).isSome
  rw [← here]
  rfl

/-- Settling a node whose children were visited; `own` is the node without them. -/
theorem settle_makes (lawful : G.Lawful) (stands : G.Stands n above) {news : List Node}
    (children : List.Forall₂ (G.Became (n :: above)) n.children news) {own : Multiset Node}
    (parts : n.parts G.hidden = own + Node.partsOf G.hidden n.children) (rest : Multiset Node) :
    VisitM.Triple (G.Holds (n :: above) (own + Node.partsOf G.hidden news + rest))
      (Visitor.settle n news : PassM σ Node) fun out site =>
        G.Walked above n out ∧ G.Holds (n :: above) (out.parts G.hidden + rest) site := by
  unfold Visitor.settle
  split
  next all =>
    have back := Node.children_eq_of_same (children.imp fun _ _ h => h.new)
      (fun c hc => lawful.id_lt stands (Node.mem_subtree_of_child hc Node.mem_subtree_self)) all
    refine .pure fun site h => ⟨lawful.walked above n, ?_⟩
    rwa [back, ← parts] at h
  next some =>
    have plain : n.expr? = none := by
      cases n with
      | expr e =>
        have all : news = (Node.expr e).children := Became.children_of_expr children
        refine (some ?_).elim
        rw [all, List.all_eq_true]
        rintro ⟨old, new⟩ mem
        obtain ⟨i, hi, at_⟩ := List.mem_iff_getElem.mp mem
        simp only [List.getElem_zip, Prod.mk.injEq] at at_
        obtain ⟨rfl, rfl⟩ := at_
        exact Node.same_self _
      | _ => rfl
    refine .fresh fun site h => ?_
    have refilled := n.refilled_withChildren site.next (children.imp fun _ _ h => h.sort)
    have drawn : Drawn site.next (site.next + 1) {n.withChildren site.next news} :=
      .single (n.id_withChildren _ _)
    refine ⟨lawful.walked_refilled refilled children ?_ plain, h.spend drawn ?_⟩
    · exact Nat.le_trans h.owns.le (Nat.le_of_eq (n.id_withChildren site.next news).symm)
    · calc (n.withChildren site.next news).parts G.hidden + rest
          ≤ {n.withChildren site.next news} + Node.partsOf G.hidden news + rest := by
            gcongr
            have made := Node.parts_le G.hidden (n.withChildren site.next news)
            rwa [refilled.children] at made
        _ = 0 + Node.partsOf G.hidden news + rest + {n.withChildren site.next news} := by abel
        _ ≤ own + Node.partsOf G.hidden news + rest + {n.withChildren site.next news} := by
            gcongr
            exact Multiset.zero_le _

/-- Visiting the children of a node one after the other: what they became is at hand,
those that are not visited yet still are, and `known` is what else the visits keep. -/
theorem children_hold {visit : Node → PassM σ Node}
    (known : List Node → List Node → Site Note σ → Prop) (rest : Multiset Node) {own : Multiset Node}
    (parts : n.parts G.hidden = own + Node.partsOf G.hidden n.children)
    (step : ∀ done c todo outs rest, n.children = done ++ c :: todo →
      VisitM.Triple
        (fun site => known done outs site ∧ G.Holds (n :: above) (c.parts G.hidden + rest) site)
        (visit c) fun out site => known (done ++ [c]) (outs ++ [out]) site ∧
          G.Holds (n :: above) (out.parts G.hidden + rest) site) :
    VisitM.Triple
      (fun site => known [] [] site ∧ G.Holds (n :: above) (n.parts G.hidden + rest) site)
      (n.children.mapM visit) fun news site => known n.children news site ∧
        G.Holds (n :: above) (own + Node.partsOf G.hidden news + rest) site := by
  refine VisitM.Triple.mono (VisitM.Triple.mapM (fun done outs site => known done outs site ∧
    G.Holds (n :: above) (own + (Node.partsOf G.hidden outs +
      Node.partsOf G.hidden (n.children.drop done.length)) + rest) site)
    fun done c todo outs split => ?_) ?_ ?_
  · have here : n.children.drop done.length = c :: todo := by rw [split, List.drop_left]
    have next : n.children.drop (done ++ [c]).length = todo := by
      rw [List.length_append, List.length_singleton, ← List.drop_drop, here]
      rfl
    refine (step done c todo outs (own + Node.partsOf G.hidden outs +
      Node.partsOf G.hidden todo + rest) split).mono (fun site h => ⟨h.1, ?_⟩)
      fun out site done' => ⟨done'.1, ?_⟩
    · refine h.2.weaken (le_of_eq ?_)
      rw [here, Node.partsOf_cons]
      abel
    · refine done'.2.weaken (le_of_eq ?_)
      rw [next, Node.partsOf_append, Node.partsOf_cons, Node.partsOf_nil]
      abel
  · intro site h
    refine ⟨h.1, h.2.weaken (le_of_eq ?_)⟩
    rw [parts, Node.partsOf_nil, zero_add]
    rfl
  · intro news site h
    refine ⟨h.1, h.2.weaken (le_of_eq ?_)⟩
    rw [List.drop_length, Node.partsOf_nil, add_zero]

/-- A relation between nodes and what becomes of them that holds of a node that was left alone,
and of one that was rebuilt if it holds of the children, some of which changed. -/
structure Descends (R : List Node → Node → Node → Prop) : Prop where
  self : ∀ above n, R above n n
  refilled : ∀ above n out news, n.Refilled out news → news ≠ n.children →
    List.Forall₂ (R (n :: above)) n.children news → R above n out

/-- The same with such a relation. -/
theorem settle_relates (lawful : G.Lawful) {R : List Node → Node → Node → Prop}
    (descends : Descends R) (stands : G.Stands n above) {news : List Node}
    (children : List.Forall₂ (G.Became (n :: above)) n.children news)
    (related : List.Forall₂ (R (n :: above)) n.children news) {own : Multiset Node}
    (parts : n.parts G.hidden = own + Node.partsOf G.hidden n.children) (rest : Multiset Node) :
    VisitM.Triple (G.Holds (n :: above) (own + Node.partsOf G.hidden news + rest))
      (Visitor.settle n news : PassM σ Node) fun out site => (G.Walked above n out ∧ R above n out) ∧
        G.Holds (n :: above) (out.parts G.hidden + rest) site := by
  intro site out site' h ran
  obtain ⟨walked, holds⟩ := settle_makes lawful stands children parts rest h ran
  refine ⟨⟨walked, ?_⟩, holds⟩
  unfold Visitor.settle at ran
  split at ran
  next =>
    cases ran
    exact descends.self above n
  next some =>
    cases ran
    refine descends.refilled above n _ news ?_ ?_ related
    · exact n.refilled_withChildren site.next (children.imp fun _ _ h => h.sort)
    · rintro rfl
      refine some (List.all_eq_true.mpr fun p mem => ?_)
      obtain ⟨i, hi, rfl⟩ := List.mem_iff_getElem.mp mem
      rw [List.getElem_zip]
      exact Node.same_self _

/-- A visitor that keeps to the regime and to a relation at each node, given the descent, keeps
to them on every tree. -/
theorem run_relates (lawful : G.Lawful) {R : List Node → Node → Node → Prop} (descends : Descends R)
    {v : Visitor EngineError Note σ}
    (visits : ∀ n above descend, G.Stands n above →
      G.Makes (n :: above) n (fun out => G.Walked above n out ∧ R above n out) descend →
      G.Makes (n :: above) n (fun out => G.Became above n out ∧ R above n out) (v.visit n descend))
    (n : Node) (above : List Node) (stands : G.Stands n above) :
    G.Makes (n :: above) n (fun out => G.Became above n out ∧ R above n out) (v.run n) := by
  have below : ∀ c ∈ n.children, G.Makes (n :: above) c
      (fun out => G.Became (n :: above) c out ∧ R (n :: above) c out)
      (VisitM.inFrame c (v.run c)) := by
    intro c hc rest
    exact .inFrame (run_relates lawful descends visits c (n :: above) (stands.child hc) rest)
      (fun _ h => h.push c) fun _ _ done => ⟨done.1, done.2.pop⟩
  obtain ⟨own, parts⟩ : ∃ own, n.parts G.hidden = own + Node.partsOf G.hidden n.children :=
    ⟨_, n.parts_eq⟩
  rw [Visitor.run_eq]
  refine visits n above _ stands fun rest => ?_
  refine (VisitM.Triple.mono (children_hold
    (fun done outs _ => List.Forall₂ (G.Became (n :: above)) done outs ∧
      List.Forall₂ (R (n :: above)) done outs) rest parts
    fun done c todo outs rest split => .assuming fun before => ?_) (fun _ h => ⟨⟨.nil, .nil⟩, h⟩)
    fun _ _ h => h).bind fun news => .assuming fun became => ?_
  · have made := below c (split ▸ List.mem_append_right _ List.mem_cons_self) rest
    exact made.mono (fun _ h => h) fun _ _ made =>
      ⟨⟨List.rel_append before.1 (.cons made.1.1 .nil),
        List.rel_append before.2 (.cons made.1.2 .nil)⟩, made.2⟩
  · exact settle_relates lawful descends stands became.1 became.2 parts rest
termination_by sizeOf n
decreasing_by exact Node.sizeOf_lt_of_mem_children hc

/-- A visitor that mends each node, given the descent, mends every tree. -/
theorem run_mends (lawful : G.Lawful) {v : Visitor EngineError Note σ} (mends : G.Mends v) (n : Node)
    (above : List Node) (stands : G.Stands n above) :
    G.Makes (n :: above) n (G.Became above n) (v.run n) := by
  have descends : Descends fun _ _ _ => True := ⟨fun _ _ => trivial, fun _ _ _ _ _ _ _ => trivial⟩
  have both := run_relates lawful descends
    (fun n above descend stands walks rest => (mends n above descend stands (fun rest =>
      (walks rest).mono (fun _ h => h) fun _ _ done => ⟨done.1.1, done.2⟩) rest).mono (fun _ h => h)
        fun _ _ done => ⟨⟨done.1, trivial⟩, done.2⟩) n above stands
  exact fun rest => (both rest).mono (fun _ h => h) fun _ _ done => ⟨done.1.1, done.2⟩

end Regime

end JavaMend
