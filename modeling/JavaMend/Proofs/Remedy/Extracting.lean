import JavaMend.Proofs.Patch.Scoping
import JavaMend.Proofs.Remedy.Mending
import JavaMend.Proofs.Remedy.Success
import JavaMend.Proofs.Traversal.Triple

/-!
# Remedies that extract

A remedy that does nothing but note extractions (`Remedy.Extracts`) redeclares no local:
of a unit that is well-scoped its pass makes one that is (`Remedy.pass_wellScoped`).
It does not matter which extractions it notes, where and under which names.

Blocks are repaired from the inside out, each below the nodes of the tree as they were
before the visit, and it is these nodes that tell which names are taken. What a visit
makes of a node is therefore held to the regions that the old ancestors allow for
(`Region.InSight`), and it declares what the node declared (`Node.Revised`).
-/

namespace JavaMend

/-! ## Extractions that wait -/

/-- A fix that extracts. If a statement of the tree has the id of its anchor, it is the
anchor. -/
structure PendingFix.Extracts (root : Node) (mark : NodeId) (fix : PendingFix) : Prop where
  kind : fix.kind.tag = .extract
  early : fix.anchor.id < mark
  anchor : ∀ s, .stmt s ∈ root.subtree → s.id = fix.anchor.id → s = fix.anchor

namespace Cursor

/-- Notes some fixes one after the other. -/
def noteFixes (c : Cursor Note) (fixes : List PendingFix) : Cursor Note :=
  fixes.foldl (fun c fix => (c.noteFix fix).2) c

/-- The cursor is at the end of a path, and only fixes of a sort wait there. -/
structure Awaits (sort : PendingFix → Prop) (path : List Node) (c : Cursor Note) : Prop where
  path : c.waiting.map (·.1) = path
  sort : ∀ p ∈ c.waiting, ∀ fix ∈ p.2, sort fix

namespace Awaits

variable {sort : PendingFix → Prop} {path : List Node} {c : Cursor Note}

theorem push (h : c.Awaits sort path) (n : Node) : (c.push n).Awaits sort (n :: path) where
  path := by rw [waiting_push, List.map_cons, h.path]
  sort := by
    rw [waiting_push]
    exact List.forall_mem_cons.mpr ⟨nofun, h.sort⟩

theorem pop {n : Node} (h : c.Awaits sort (n :: path)) : c.pop.Awaits sort path where
  path := by rw [waiting_pop, List.map_tail, h.path, List.tail_cons]
  sort p mem := h.sort p (List.mem_of_mem_tail (waiting_pop c ▸ mem))

theorem noteFix (h : c.Awaits sort path) {fix : PendingFix} (hfix : sort fix) :
    (c.noteFix fix).2.Awaits sort path := by
  unfold Cursor.noteFix
  dsimp only
  split
  next => exact h
  next index _ =>
    have kept : List.Forall₂ (fun f f' : Frame Note => f.node = f'.node ∧
          ∀ x ∈ f'.fixes, x ∈ f.fixes ∨ x = fix) c.frames
        (c.modifyAt index Note.fixTopic .empty (·.add fix)).2.frames := by
      refine forall₂_atFrame (fun _ => ⟨rfl, fun _ => .inl⟩) fun f => ⟨(f.node_modify _ _ _).symm, ?_⟩
      intro x mem
      rcases f.modify_fixes fix with ⟨same, -⟩ | added
      · exact .inl (same ▸ mem)
      · rw [added] at mem
        exact (List.mem_append.mp mem).imp (fun old => (List.mem_filter.mp old).1)
          List.mem_singleton.mp
    refine ⟨?_, fun p mem x waits => ?_⟩
    · have nodes := List.forall₂_map_left_iff.mpr
        (List.forall₂_map_right_iff.mpr (kept.imp fun _ _ (h : _ ∧ _) => h.1))
      rw [List.forall₂_eq_eq_eq] at nodes
      rw [← h.path]
      unfold waiting
      rw [List.map_map, List.map_map]
      exact nodes.symm
    · obtain ⟨f', inside, rfl⟩ := List.mem_map.mp mem
      obtain ⟨f, old, -, fixes⟩ := exists_of_forall₂ kept inside
      rcases fixes x waits with before | rfl
      · exact h.sort _ (List.mem_map_of_mem old) x before
      · exact hfix

theorem noteFixes {fixes : List PendingFix} (h : c.Awaits sort path) (all : ∀ fix ∈ fixes, sort fix) :
    (c.noteFixes fixes).Awaits sort path :=
  List.foldlRecOn fixes _ h fun _ h fix mem => h.noteFix (all fix mem)

end Awaits

end Cursor

variable {σ α : Type} {root : Node} {mark : NodeId}

/-- An action that does nothing to the cursor but note extractions. -/
def PassM.Extracts (root : Node) (mark : NodeId) (action : PassM σ α) : Prop :=
  ∀ site, ∃ a fixes next own, (∀ fix ∈ fixes, PendingFix.Extracts root mark fix) ∧
    site.next ≤ next ∧
    action site = .ok a ⟨site.cursor.noteFixes fixes, next, own⟩

/-- A remedy that does nothing but note extractions. -/
structure Remedy.Extracts (root : Node) (mark : NodeId) (remedy : Remedy σ) : Prop where
  enter : ∀ n, PassM.Extracts root mark (remedy.enter n)
  leave : ∀ block, PassM.Extracts root mark (remedy.leave block)

/-- The remedy that notes some fixes when it comes to a block. -/
def Remedy.noting (fixes : Block → List PendingFix) : Remedy Unit where
  enter n := do
    (n.block?.elim [] fixes).forM fun fix => discard (PassM.noteFix fix)
    return true

theorem PassM.forM_noteFix (fixes : List PendingFix) (site : Site Note σ) :
    (fixes.forM fun fix => discard (PassM.noteFix fix)) site =
      .ok () { site with cursor := site.cursor.noteFixes fixes } := by
  induction fixes generalizing site with
  | nil => rfl
  | cons fix fixes ih => exact ih { site with cursor := (site.cursor.noteFix fix).2 }

theorem Remedy.noting_extracts {fixes : Block → List PendingFix}
    (h : ∀ block, ∀ fix ∈ fixes block, fix.Extracts root mark) :
    (noting fixes).Extracts root mark where
  enter n site := by
    refine ⟨true, n.block?.elim [] fixes, site.next, site.own, ?_, Nat.le_refl _, ?_⟩
    · cases n.block? with
      | none => nofun
      | some block => exact h block
    · show EStateM.bind _ _ site = _
      simp only [EStateM.bind, PassM.forM_noteFix]
      rfl
  leave _ site := ⟨(), [], site.next, site.own, nofun, Nat.le_refl _, rfl⟩

/-- A fix that extracts from a statement of the tree. -/
theorem PendingFix.extracts_of_mem {fix : PendingFix} (coherent : root.Coherent)
    (early : ∀ m ∈ root.subtree, m.id < mark) (kind : fix.kind.tag = .extract)
    (mem : .stmt fix.anchor ∈ root.subtree) : fix.Extracts root mark where
  kind := kind
  early := early _ mem
  anchor _ inside same := Node.stmt.inj (coherent _ inside _ mem (beq_iff_eq.mpr same))

/-- Noting extractions succeeds. -/
theorem PassM.Extracts.succeeds {action : PassM σ α} (h : PassM.Extracts root mark action) :
    PassM.Succeeds action := by
  intro site sound
  obtain ⟨a, fixes, next, own, extracts, -, ran⟩ := h site
  refine ⟨a, _, ran, List.foldlRecOn fixes _ sound fun _ sound fix mem => ?_, trivial⟩
  refine sound.noteFix (PendingFix.renders_of_tag_ne ?_)
  rw [(extracts fix mem).kind]
  exact FixTag.noConfusion

theorem Remedy.Extracts.succeeds {remedy : Remedy σ} (h : remedy.Extracts root mark) :
    remedy.Succeeds where
  enter n := (h.enter n).succeeds
  leave block := (h.leave block).succeeds

/-! ## What becomes of a node -/

/-- A tree in which nodes of one id are one node, and whose ids are below `mark`. -/
structure Node.Dated (root : Node) (mark : NodeId) : Prop where
  coherent : root.Coherent
  early : ∀ m ∈ root.subtree, m.id < mark

/-- A path of nodes of a tree, from one of them outward. -/
structure Path.Through (root : Node) (nodes : List Node) : Prop where
  genuine : GenuineList nodes
  inside : ∀ n ∈ nodes, n ∈ root.subtree

/-- The region of a node below others: unless the node is a variable or an expression, no
more is in scope than these bring in. -/
def Region.InSight (above : List Node) (r : Region) (n : Node) : Prop :=
  n.var? = none → n.expr? = none → ∀ y ∈ r.names, y ∈ above.flatMap (·.bindings)

/-- What a visit may make of a node below the nodes of `above`, with ids between `start`
and `next`. -/
structure Node.Revised (above : List Node) (start next : NodeId) (n out : Node) : Prop where
  label : out.label = n.label
  declares : out.declares = n.declares
  wellScoped : ∀ r : Region, r.InSight above n → n.WellScoped r → out.WellScoped r
  new : out = n ∨ start ≤ out.id ∧ out.id < next

/-- Nodes that a visit made since `start`, or that it left as they were in the tree. -/
structure Node.Gathered (root : Node) (start next : NodeId) (nodes : List Node) : Prop where
  origin : ∀ n ∈ nodes, n ∈ root.subtree ∨ start ≤ n.id ∧ n.id < next
  distinct : ∀ a ∈ nodes, ∀ b ∈ nodes, a.same b = true → a = b

section

variable {n c out : Node} {above : List Node} {r : Region} {start next used : NodeId}
  {nodes : List Node}

theorem Path.Through.child (h : Through root (n :: above)) (mem : c ∈ n.children) :
    Through root (c :: n :: above) where
  genuine := ⟨mem, h.genuine⟩
  inside := List.forall_mem_cons.mpr
    ⟨Node.subtree_trans (h.inside n List.mem_cons_self)
      (Node.mem_subtree_of_child mem Node.mem_subtree_self), h.inside⟩

theorem Node.Dated.coherent_of_mem (h : root.Dated mark) (mem : n ∈ root.subtree) : n.Coherent :=
  fun a ha b hb => h.coherent a (subtree_trans mem ha) b (subtree_trans mem hb)

/-- The children of a node see no more than what the node and those around it bring in. -/
theorem Region.InSight.below (h : r.InSight above n) {p : Region × Node} (mem : p ∈ n.scopes r) :
    p.1.InSight (n :: above) p.2 := by
  intro var expr y named
  have child := Node.mem_children_of_scopes mem
  have stands : n.var? = none := by
    cases n with
    | var v =>
      obtain ⟨e, -, same⟩ := List.mem_map.mp child
      rw [← same] at expr
      cases expr
    | _ => rfl
  rw [List.flatMap_cons, List.mem_append]
  rcases Node.scopes_names mem var y named with outer | own
  · exact .inr (h stands (Node.expr?_of_child child expr) y outer)
  · exact .inl own

namespace Node

theorem Revised.refl (above : List Node) (start next : NodeId) (n : Node) :
    Revised above start next n n :=
  ⟨rfl, rfl, fun _ _ h => h, .inl rfl⟩

theorem Revised.mono (h : Revised above start next n out) {earlier : NodeId}
    (le : earlier ≤ start) (le' : next ≤ used) : Revised above earlier used n out :=
  { h with new := h.new.imp_right fun new => ⟨Nat.le_trans le new.1, Nat.lt_of_lt_of_le new.2 le'⟩ }

/-- A node that is rebuilt around revised children. -/
theorem Revised.refilled {news : List Node} (refilled : n.Refilled out news)
    (children : List.Forall₂ (Revised (n :: above) start next) n.children news)
    (new : start ≤ out.id ∧ out.id < next) : Revised above start next n out := by
  obtain ⟨rfl, label⟩ := refilled
  refine ⟨label, declares_refilled label (children.imp fun _ _ h => h.declares), fun r sight h => ?_,
    .inr new⟩
  exact h.refilled (Region.InSight (n :: above)) label (fun p mem => sight.below mem)
    (children.imp fun _ _ h => ⟨h.wellScoped, h.declares⟩)

theorem Gathered.mono (h : Gathered root start next nodes) (le : next ≤ used) :
    Gathered root start used nodes :=
  { h with origin := fun n mem => (h.origin n mem).imp_right fun new =>
      ⟨new.1, Nat.lt_of_lt_of_le new.2 le⟩ }

theorem Gathered.children (dated : root.Dated mark) (mem : n ∈ root.subtree) (start next : NodeId) :
    Gathered root start next n.children where
  origin _ child := .inl (subtree_trans mem (mem_subtree_of_child child mem_subtree_self))
  distinct _ ha _ hb same := (dated.coherent_of_mem mem).eq_of_same ha hb same

/-- One more node, which was visited after the others. -/
theorem Gathered.concat (dated : root.Dated mark) (late : mark ≤ start) (started : start ≤ next)
    (le : next ≤ used) (h : Gathered root start next nodes) (mem : c ∈ root.subtree)
    (new : out = c ∨ next ≤ out.id ∧ out.id < used) : Gathered root start used (nodes ++ [out]) := by
  have apart (a : Node) (inside : a ∈ nodes) (same : a.same out = true) : a = out := by
    have ids := id_of_same same
    rcases h.origin a inside with old | made <;> rcases new with rfl | made'
    · exact dated.coherent a old _ mem same
    · have := dated.early a old
      grind
    · have := dated.early _ mem
      grind
    · grind
  constructor
  · intro a inside
    rcases List.mem_append.mp inside with inside | last
    · exact (h.mono le).origin a inside
    · cases List.mem_singleton.mp last
      rcases new with rfl | made
      · exact .inl mem
      · exact .inr ⟨Nat.le_trans started made.1, made.2⟩
  · intro a ha b hb same
    rcases List.mem_append.mp ha with ha | ha <;> rcases List.mem_append.mp hb with hb | hb
    · exact h.distinct a ha b hb same
    · cases List.mem_singleton.mp hb
      exact apart a ha same
    · cases List.mem_singleton.mp ha
      exact (apart b hb (same_comm _ _ ▸ same)).symm
    · rw [List.mem_singleton.mp ha, List.mem_singleton.mp hb]

end Node

end

/-! ## Visits -/

namespace Remedy

/-- A visit at the end of a path of the tree, that began with the id `start`: only
extractions wait. -/
structure Noted (root : Node) (mark : NodeId) (path : List Node) (start : NodeId)
    (site : Site Note σ) : Prop where
  late : mark ≤ start
  started : start ≤ site.next
  awaits : site.cursor.Awaits (PendingFix.Extracts root mark) path

/-- What a descent makes of a node: it is revised, and its children can be told apart. -/
structure Descended (root : Node) (above : List Node) (start next : NodeId) (n out : Node) :
    Prop where
  revised : n.Revised above start next out
  children : Node.Gathered root start next out.children

/-- The action revises a node of the tree below the nodes of `above`. -/
def Revises (root : Node) (mark : NodeId) (above : List Node) (n : Node) (action : PassM σ Node) :
    Prop :=
  ∀ start, VisitM.Triple (Noted root mark (n :: above) start) action fun out site =>
    n.Revised above start site.next out ∧ Noted root mark (n :: above) start site

section

variable {n out : Node} {above path : List Node} {start : NodeId} {site site' : Site Note σ}

theorem Noted.now (h : Noted root mark path start site) : Noted root mark path site.next site :=
  ⟨Nat.le_trans h.late h.started, Nat.le_refl _, h.awaits⟩

theorem Noted.since (h : Noted root mark path start site)
    (later : Noted root mark path site.next site') : Noted root mark path start site' :=
  ⟨h.late, Nat.le_trans h.started later.started, later.awaits⟩

theorem Noted.push (h : Noted root mark path start site) (n : Node) :
    Noted root mark (n :: path) start { site with cursor := site.cursor.push n } :=
  { h with awaits := h.awaits.push n }

theorem Noted.pop (h : Noted root mark (n :: path) start site) :
    Noted root mark path start { site with cursor := site.cursor.pop } :=
  { h with awaits := h.awaits.pop }

/-- Nothing happens but that extractions are noted. -/
theorem noted_of_extracts {action : PassM σ α} (h : PassM.Extracts root mark action)
    (path : List Node) (start : NodeId) :
    VisitM.Triple (Noted root mark path start) action fun _ => Noted root mark path start := by
  intro site a site' noted ran
  obtain ⟨_, fixes, next, own, extracts, le, done⟩ := h site
  cases done.symm.trans ran
  exact ⟨noted.late, Nat.le_trans noted.started le, noted.awaits.noteFixes extracts⟩

/-- Visiting the children of a node one after the other. -/
theorem children_revised (dated : root.Dated mark) (inside : n ∈ root.subtree)
    {visit : Node → PassM σ Node}
    (step : ∀ c ∈ n.children, ∀ start, VisitM.Triple (Noted root mark (n :: above) start) (visit c)
      fun out site => c.Revised (n :: above) start site.next out ∧
        Noted root mark (n :: above) start site) (start : NodeId) :
    VisitM.Triple (Noted root mark (n :: above) start) (n.children.mapM visit) fun news site =>
      List.Forall₂ (Node.Revised (n :: above) start site.next) n.children news ∧
        Node.Gathered root start site.next news ∧ Noted root mark (n :: above) start site := by
  refine (VisitM.Triple.mapM (fun done outs site =>
    List.Forall₂ (Node.Revised (n :: above) start site.next) done outs ∧
      Node.Gathered root start site.next outs ∧ Noted root mark (n :: above) start site)
    fun done c rest outs split site out site' held ran => ?_).mono
    (fun site noted => ⟨.nil, ⟨nofun, nofun⟩, noted⟩) fun _ _ h => h
  obtain ⟨revised, gathered, noted⟩ := held
  have child : c ∈ n.children := split ▸ List.mem_append_right _ List.mem_cons_self
  obtain ⟨here, later⟩ := step c child site.next noted.now ran
  have grown := later.started
  refine ⟨?_, ?_, noted.since later⟩
  · exact List.rel_append (revised.imp fun _ _ h => h.mono (Nat.le_refl _) grown)
      (.cons (here.mono noted.started (Nat.le_refl _)) .nil)
  · exact gathered.concat dated noted.late noted.started grown
      (Node.subtree_trans inside (Node.mem_subtree_of_child child Node.mem_subtree_self)) here.new

/-- Settling a node whose children were visited. -/
theorem settle_descended (dated : root.Dated mark) (inside : n ∈ root.subtree) (news : List Node)
    (start : NodeId) :
    VisitM.Triple (fun site => List.Forall₂ (Node.Revised (n :: above) start site.next) n.children
        news ∧ Node.Gathered root start site.next news ∧ Noted root mark (n :: above) start site)
      (Visitor.settle n news : PassM σ Node) fun out site =>
        Descended root above start site.next n out ∧ Noted root mark (n :: above) start site := by
  unfold Visitor.settle
  split
  · exact .pure fun site held => ⟨⟨.refl _ _ _ _, .children dated inside _ _⟩, held.2.2⟩
  · refine .fresh fun site held => ?_
    obtain ⟨revised, gathered, noted⟩ := held
    have grown := Nat.le_succ site.next
    have refilled := n.refilled_withChildren site.next
      (revised.imp fun _ _ h => Node.sameSort_of_label h.label.symm)
    have id : (n.withChildren site.next news).id = site.next := n.id_withChildren _ _
    refine ⟨⟨?_, ?_⟩, noted.late, Nat.le_trans noted.started grown, noted.awaits⟩
    · refine .refilled refilled (revised.imp fun _ _ h => h.mono (Nat.le_refl _) grown) ?_
      exact ⟨Nat.le_trans noted.started (Nat.le_of_eq id.symm), Nat.lt_succ_of_le (Nat.le_of_eq id)⟩
    · exact refilled.children.symm ▸ gathered.mono grown

/-- A block whose children were visited, after its repair. -/
theorem repair_revised (dated : root.Dated mark) {before after : Block}
    (through : Path.Through root (.block before :: above)) (start : NodeId) :
    VisitM.Triple (fun site =>
        Descended root above start site.next (.block before) (.block after) ∧
          Noted root mark (.block before :: above) start site)
      (repair .standard before after : PassM σ Block) fun out site =>
        (Node.block before).Revised above start site.next (.block out) ∧
          Noted root mark (.block before :: above) start site := by
  intro site out site' held ran
  obtain ⟨⟨revised, gathered⟩, noted⟩ := held
  obtain ⟨⟨n, fixes⟩, rest, waiting, rfl, rfl⟩ := List.map_eq_cons_iff.mp noted.awaits.path
  have late := Nat.le_trans noted.late noted.started
  have extracts (fix : PendingFix) (mem : fix ∈ fixes) : fix.Extracts root mark :=
    noted.awaits.sort (.block before, fixes) (waiting ▸ List.mem_cons_self) fix mem
  have standing (s : Stmt) (mem : s ∈ after.stmts) : .stmt s ∈ (Node.block after).children :=
    List.mem_map_of_mem mem
  have bounded (s : Stmt) (mem : s ∈ after.stmts) : s.id < site.next := by
    rcases gathered.origin _ (standing s mem) with old | made
    · exact Nat.lt_of_lt_of_le (dated.early _ old) late
    · exact made.2
  have anchored (fix : PendingFix) (mem : fix ∈ fixes) (t : Stmt) (stands : t ∈ after.stmts)
      (same : t.id = fix.anchor.id) : t = fix.anchor := by
    rcases gathered.origin _ (standing t stands) with old | made
    · exact (extracts fix mem).anchor t old same
    · have early := Nat.lt_of_lt_of_le (extracts fix mem).early noted.late
      exact absurd (same ▸ made.1) (Nat.not_le_of_lt early)
  have distinct (s : Stmt) (hs : s ∈ after.stmts) (t : Stmt) (ht : t ∈ after.stmts)
      (same : t.id = s.id) : t = s :=
    Node.stmt.inj (gathered.distinct _ (standing t ht) _ (standing s hs) (beq_iff_eq.mpr same))
  obtain ⟨grown, left, wellScoped, isStatic, new⟩ := repair_wellScoped waiting through.genuine
    (fun m mem => dated.coherent_of_mem (through.inside m (List.mem_cons_of_mem _ mem)))
    (fun fix mem => ⟨(extracts fix mem).kind, Nat.lt_of_lt_of_le (extracts fix mem).early late,
      anchored fix mem⟩) distinct bounded ran
  refine ⟨⟨?_, rfl, fun r sight h => ?_, ?_⟩, noted.late, Nat.le_trans noted.started grown, ?_, ?_⟩
  · exact (congrArg Node.Label.block isStatic).trans revised.label
  · exact wellScoped r (sight rfl rfl) (revised.wellScoped r sight h)
  · rcases new with rfl | made
    · exact (revised.mono (Nat.le_refl _) grown).new
    · exact .inr ⟨Nat.le_trans noted.started made.1, made.2⟩
  · rw [left, List.map_cons]
  · rw [left]
    have waits := noted.awaits.sort
    rw [waiting] at waits
    exact List.forall_mem_cons.mpr ⟨nofun, (List.forall_mem_cons.mp waits).2⟩

end

variable {env : PassEnv} {remedy : Remedy σ}

/-- The visitor of a remedy that extracts revises a node, if its descent does. -/
theorem visit_revises (standard : env.splicer = .standard) (extracts : remedy.Extracts root mark)
    (dated : root.Dated mark) {n : Node} {above : List Node} (through : Path.Through root (n :: above))
    {descend : PassM σ Node}
    (walks : ∀ start, VisitM.Triple (Noted root mark (n :: above) start) descend fun out site =>
      Descended root above start site.next n out ∧ Noted root mark (n :: above) start site) :
    Revises root mark above n ((remedy.visitor env).visit n descend) := by
  intro start
  unfold Remedy.visitor
  refine (noted_of_extracts (extracts.enter n) _ start).bind fun goOn => ?_
  split
  · refine (walks start).bind fun walked => ?_
    split
    next before after =>
      rw [standard]
      refine VisitM.Triple.bind (fun site _ site' held ran => ?_) fun _ =>
        (repair_revised dated through start).bind fun _ => .pure fun _ h => h
      obtain ⟨⟨revised, gathered⟩, noted⟩ := held
      have later := noted_of_extracts (extracts.leave before) _ site.next noted.now ran
      exact ⟨⟨revised.mono (Nat.le_refl _) later.started, gathered.mono later.started⟩,
        noted.since later⟩
    · exact .pure fun site held => ⟨held.1.revised, held.2⟩
  · exact .pure fun site noted => ⟨.refl _ _ _ _, noted⟩

/-- The visitor of a remedy that extracts revises every node of the tree. -/
theorem run_revises (standard : env.splicer = .standard) (extracts : remedy.Extracts root mark)
    (dated : root.Dated mark) (n : Node) (above : List Node)
    (through : Path.Through root (n :: above)) :
    Revises root mark above n ((remedy.visitor env).run n) := by
  have inside : n ∈ root.subtree := through.inside n List.mem_cons_self
  have below : ∀ c ∈ n.children, ∀ start, VisitM.Triple (Noted root mark (n :: above) start)
      (VisitM.inFrame c ((remedy.visitor env).run c)) fun out site =>
        c.Revised (n :: above) start site.next out ∧ Noted root mark (n :: above) start site := by
    intro c mem start
    exact .inFrame (run_revises standard extracts dated c (n :: above) (through.child mem) start)
      (fun _ h => h.push c) fun _ _ held => ⟨held.1, held.2.pop⟩
  rw [Visitor.run_eq]
  refine visit_revises standard extracts dated through fun start => ?_
  exact (children_revised dated inside below start).bind fun news =>
    settle_descended dated inside news start
termination_by sizeOf n
decreasing_by exact Node.sizeOf_lt_of_mem_children mem

end Remedy

/-! ## Passes -/

theorem Node.wellScoped_unit {r : Region} {unit : CompilationUnit} : (Node.unit unit).WellScoped r ↔
    ∀ p ∈ Region.members.inTurn (unit.classes.map .cls), p.2.WellScoped p.1 := by
  have groups : (Node.unit unit).groups = [unit.classes.map .cls] := rfl
  rw [Node.wellScoped_iff, Node.scopes, groups, List.flatMap_singleton]
  refine and_iff_right fun v at_ => ?_
  cases at_

/-- A unit in which no local is redeclared is still one after a pass that extracts, whatever
it extracts and under which names. -/
theorem Remedy.pass_wellScoped {env : PassEnv} {remedy : Remedy σ} {unit : CompilationUnit}
    {next : NodeId} (standard : env.splicer = .standard) (coherent : (Node.unit unit).Coherent)
    (early : ∀ m ∈ (Node.unit unit).subtree, m.id < next)
    (extracts : remedy.Extracts (.unit unit) next) (wellScoped : (Node.unit unit).WellScoped .members)
    (own : σ) :
    ∃ result used, (remedy.visitor env).pass own unit next = (.ok result, used) ∧
      (Node.unit result.unit).WellScoped .members := by
  obtain ⟨result, used, ran⟩ := Remedy.pass_succeeds standard extracts.succeeds own unit next
  refine ⟨result, used, ran, ?_⟩
  unfold Visitor.pass Visitor.runTree at ran
  split at ran
  next => cases ran
  next node site ended =>
    have through : Path.Through (.unit unit) [.unit unit] :=
      ⟨trivial, List.forall_mem_singleton.mpr Node.mem_subtree_self⟩
    have begun : Noted (.unit unit) next [.unit unit] next
        (⟨.ofRoot (.unit unit), next, own⟩ : Site Note σ) :=
      ⟨Nat.le_refl _, Nat.le_refl _, rfl, List.forall_mem_singleton.mpr nofun⟩
    obtain ⟨revised, -⟩ := run_revises standard extracts ⟨coherent, early⟩ _ _ through next begun
      ended
    have kept := revised.wellScoped .members (fun _ _ => nofun) wellScoped
    dsimp only at ran
    split at ran
    next changed =>
      split at ran
      · cases ran
        exact kept
      · cases ran
        have classes := Regime.classes_apply site.cursor.takeFindings.2.takeImports.1 changed site.next
        rw [Node.wellScoped_unit] at kept ⊢
        rwa [← classes] at kept
    next other =>
      have sort := Node.sameSort_of_label revised.label
      cases node with
      | unit changed => exact (other changed rfl).elim
      | _ => cases sort

/-! Two extractions under the name of the parameter in `void m(int x) { { b; } a; }`. -/

namespace TwoExtractions

def b : Stmt := ⟨1, .expr ⟨2, .int, .ident "b" none⟩⟩

def inner : Stmt := ⟨3, .block ⟨4, false, [b]⟩⟩

def a : Stmt := ⟨5, .expr ⟨6, .int, .ident "a" none⟩⟩

def method : Stmt :=
  ⟨7, .method ⟨[], some "void", "m", [⟨"int", "x", .int⟩], []⟩ (some ⟨8, false, [inner, a]⟩)⟩

def unit : CompilationUnit := ⟨11, none, [], [⟨10, ⟨[], "A", .known "A"⟩, ⟨9, false, [method]⟩⟩]⟩

def fixes : List PendingFix :=
  [⟨b, ⟨2, .int, .ident "b" none⟩, none, .extract "x"⟩,
    ⟨a, ⟨6, .int, .ident "a" none⟩, none, .extract "x"⟩]

/-- The remedy that notes each fix at the block of its anchor. -/
def remedy : Remedy Unit :=
  .noting fun block => fixes.filter fun fix => (block.position? fix.anchor).isSome

def env : PassEnv := ⟨.standard, ⟨5, 1⟩, .standard⟩

theorem coherent_unit : (Node.unit unit).Coherent :=
  Node.coherent_of_distinct (fun _ mem => mem) (by decide +kernel)

theorem early_unit : ∀ m ∈ (Node.unit unit).subtree, m.id < 12 := by decide +kernel

theorem extracts_remedy : remedy.Extracts (.unit unit) 12 := by
  have subtree : (Node.unit unit).subtree =
      [.unit unit, .cls ⟨10, ⟨[], "A", .known "A"⟩, ⟨9, false, [method]⟩⟩,
        .block ⟨9, false, [method]⟩, .stmt method, .block ⟨8, false, [inner, a]⟩, .stmt inner,
        .block ⟨4, false, [b]⟩, .stmt b, .expr ⟨2, .int, .ident "b" none⟩, .stmt a,
        .expr ⟨6, .int, .ident "a" none⟩] := by
    with_unfolding_all rfl
  refine Remedy.noting_extracts fun block fix mem => ?_
  have noted : fix ∈ fixes := (List.mem_filter.mp mem).1
  rcases List.mem_cons.mp noted with rfl | noted
  · exact PendingFix.extracts_of_mem coherent_unit early_unit rfl (by rw [subtree]; simp)
  · obtain rfl := List.mem_singleton.mp noted
    exact PendingFix.extracts_of_mem coherent_unit early_unit rfl (by rw [subtree]; simp)

/-- The extraction in the inner block takes `x1`, so that the one behind it takes `x2`. -/
theorem pass_wellScoped_remedy :
    env.splicer = .standard ∧ (Node.unit unit).Coherent ∧
      (∀ m ∈ (Node.unit unit).subtree, m.id < 12) ∧ remedy.Extracts (.unit unit) 12 ∧
      (Node.unit unit).WellScoped .members ∧
      (∃ result used, (remedy.visitor env).pass () unit 12 = (.ok result, used) ∧
        (Node.unit result.unit).WellScoped .members) ∧
      ((remedy.visitor env).pass () unit 12).1.toOption.map (Node.unit ·.unit |>.declaredNames) =
        some ["x1", "x2"] := by
  have wellScoped : (Node.unit unit).WellScoped .members := by decide +kernel
  exact ⟨rfl, coherent_unit, early_unit, extracts_remedy, wellScoped,
    Remedy.pass_wellScoped rfl coherent_unit early_unit extracts_remedy wellScoped (),
    by decide +kernel⟩

end TwoExtractions

end JavaMend
