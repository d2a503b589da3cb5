import JavaMend.Proofs.Patch.Scoping
import JavaMend.Proofs.Remedy.Apart
import JavaMend.Proofs.Remedy.Made
import JavaMend.Proofs.Remedy.Orderly
import JavaMend.Proofs.Remedy.Reads
import JavaMend.Proofs.Remedy.Shielding

/-!
# Visits that protect

Where every fix that is noted protects, so does all that a visit does to a tree: what it adds
can be taken out again, at each place where it added something (`Node.Protected`). Path
traversal guards bodies by such a visit (`Guarding.notes_protecting`).

Before that it splits texts, which moves the operands of concatenations about, within
expressions. This makes a node read no locals that it did not read, and leaves all declarations
where they are (`Node.ReadsAs`). So what was known where it was read still is
(`Normalize.resolved_split`).
-/

namespace JavaMend

/-! ## What is read -/

/-- The expression reads only some locals. -/
def Expr.ReadsOnly (known : String → Prop) (e : Expr) : Prop := ∀ x ∈ e.localReads, known x

namespace Expr

variable {known : String → Prop} {e c : Expr}

theorem readsOnly_iff : e.ReadsOnly known ↔
    (∀ x ∈ e.localName?, known x) ∧ ∀ c ∈ e.children, c.ReadsOnly known := by
  unfold ReadsOnly
  rw [localReads_eq]
  constructor
  · intro h
    refine ⟨fun x here => h x (List.mem_append_left _ (Option.mem_toList.mpr here)), ?_⟩
    exact fun c child x mem => h x (List.mem_append_right _ (List.mem_flatMap.mpr ⟨c, child, mem⟩))
  · rintro ⟨own, below⟩ x mem
    rcases List.mem_append.mp mem with here | inside
    · exact own x (Option.mem_toList.mp here)
    · obtain ⟨c, child, mem⟩ := List.mem_flatMap.mp inside
      exact below c child x mem

theorem ReadsOnly.child (h : e.ReadsOnly known) (mem : c ∈ e.children) : c.ReadsOnly known :=
  (readsOnly_iff.mp h).2 c mem

/-- What an expression reads its operands read, and a composed expression reads nothing else. -/
theorem passes_readsOnly (known : String → Prop) : Passes (ReadsOnly known) where
  child _ _ h mem := h.child mem
  made id ty form other children := by
    refine readsOnly_iff.mpr ⟨fun x here => ?_, children⟩
    cases form with
    | ident => cases other
    | _ => cases here

end Expr

/-! ## What is known -/

namespace Node

/-- As far as locals go, the second node can stand in the place of the first: it declares the
same, reads no more, and what is read is known wherever it was. -/
structure ReadsAs (n out : Node) : Prop extends n.ScopedAs out where
  reads : out.localReads ⊆ n.localReads
  resolved : ∀ stem scope, n.Resolved stem scope → out.Resolved stem scope

theorem ReadsAs.refl (n : Node) : n.ReadsAs n :=
  ⟨.refl n, List.Subset.refl _, fun _ _ h => h⟩

theorem ReadsAs.trans {a b c : Node} (first : a.ReadsAs b) (second : b.ReadsAs c) : a.ReadsAs c where
  toScopedAs := first.toScopedAs.trans second.toScopedAs
  reads := List.Subset.trans second.reads first.reads
  resolved stem scope h := second.resolved stem scope (first.resolved stem scope h)

theorem ReadsAs.expr {e e' : Expr} (reads : e'.ReadsOnly (· ∈ e.localReads)) :
    (Node.expr e).ReadsAs (.expr e') := by
  refine ⟨.expr e e', fun x mem => ?_, fun _ _ _ => .expr e'⟩
  rw [localReads_expr] at mem ⊢
  exact reads x mem

theorem ReadsAs.refilled {n out : Node} {news : List Node} (refilled : n.Refilled out news)
    (children : List.Forall₂ ReadsAs n.children news) : n.ReadsAs out := by
  have same : n.ScopedAs out := .refilled refilled (children.imp fun _ _ h => h.toScopedAs)
  have reads : out.localReads ⊆ n.localReads := by
    intro x mem
    rw [localReads_eq, localName?_of_label refilled.label, refilled.children, List.mem_append] at mem
    rw [localReads_eq, List.mem_append]
    refine mem.imp_right fun below => ?_
    obtain ⟨c', inside, mem⟩ := List.mem_flatMap.mp below
    obtain ⟨c, child, each⟩ := exists_of_forall₂ children inside
    exact List.mem_flatMap.mpr ⟨c, child, each.reads mem⟩
  refine ⟨same, reads, fun stem scope known => .node (fun b block => ?_) fun c' mem => ?_⟩
  · have label := refilled.label
    subst block
    cases n with
    | block before =>
      intro x mem stemmed
      refine (known.knows x (reads mem) stemmed).imp_left fun declared => ?_
      rwa [same.declaredNames]
    | _ => cases label
  · have bindings : out.bindings = n.bindings := by
      refine bindings_refilled refilled.label ?_
      rw [refilled.children]
      exact children.imp fun _ _ h => h.declares
    rw [refilled.children] at mem
    obtain ⟨c, child, each⟩ := exists_of_forall₂ children mem
    rw [bindings]
    exact each.resolved stem _ (known.child child)

end Node

/-- A relation of nodes to what becomes of them if expressions in them give way to others. -/
structure Node.Exchange (gives : Expr → Expr → Prop) (became : Node → Node → Prop) : Prop where
  refl : ∀ n, became n n
  trans : ∀ {a b c}, became a b → became b c → became a c
  refilled : ∀ {n out : Node} {news : List Node}, n.Refilled out news →
    List.Forall₂ became n.children news → became n out
  gives : ∀ {e new : Expr}, gives e new → became (.expr e) (.expr new)

/-- The regime of visits that replace expressions by others. -/
def Regime.exchanging (gives : Expr → Expr → Prop) (became : Node → Node → Prop)
    (hidden : Expr → Bool) (tree : Multiset Node) (mark : NodeId) : Regime where
  hidden := hidden
  tree := tree
  mark := mark
  fits _ fix := ∃ new imports, fix.kind = .replace new imports ∧ gives fix.tainted new
  became _ := became
  segment _ s seg := ∃ s', seg = .ofStmt s' ∧ became (.stmt s) (.stmt s')

/-- The regime of visits that replace expressions by others that read no more. -/
def Regime.resolving (hidden : Expr → Bool) (tree : Multiset Node) (mark : NodeId) : Regime where
  hidden := hidden
  tree := tree
  mark := mark
  fits _ fix := ∃ new imports, fix.kind = .replace new imports ∧
    new.ReadsOnly (· ∈ fix.tainted.localReads)
  became _ := Node.ReadsAs
  segment _ s seg := ∃ s', seg = .ofStmt s' ∧ (Node.stmt s).ReadsAs (.stmt s')

namespace Regime

variable {hidden : Expr → Bool} {tree : Multiset Node} {mark : NodeId}

theorem exchanging_lawful {gives : Expr → Expr → Prop} {became : Node → Node → Prop}
    (exchange : Node.Exchange gives became) (drawn : Drawn 0 mark tree) :
    (exchanging gives became hidden tree mark).Lawful where
  drawn := drawn
  became_self _ n := exchange.refl n
  became_refilled _ _ _ _ refilled children :=
    exchange.refilled refilled (children.imp fun _ _ became => became.became)
  segment_visited _ _ _ s' _ became := ⟨s', rfl, became.became⟩
  segment_step _ fix _ core _ _ _ _ _ _ anchored kept _ step replaces := by
    obtain ⟨s', same, kept⟩ := kept
    cases same
    obtain ⟨new, imports, kind, gives⟩ := anchored.fits
    obtain ⟨coherent, only⟩ := replaces (by rw [kind]; rfl)
    cases step with
    | @replace new' _ changed _ kind' below replaced =>
      obtain ⟨rfl, -⟩ := FixKind.replace.inj (kind.symm.trans kind')
      refine ⟨changed, rfl, exchange.trans kept ?_⟩
      exact Node.replaceExpr?_keeps exchange.refl (fun _ _ _ _ => exchange.refilled)
        (exchange.gives gives) coherent only (Nat.le_refl _) (Stmt.replaceExpr?_node replaced)
    | _ => simp_all
  became_repaired b out above parts anchors isStatic stmts segments := by
    have refilled : (Node.block b).Refilled (.block out) (out.stmts.map .stmt) :=
      ⟨rfl, congrArg Node.Label.block isStatic⟩
    refine exchange.refilled refilled ?_
    show List.Forall₂ became (b.stmts.map .stmt) _
    rw [← anchors, stmts]
    clear refilled anchors stmts
    induction parts with
    | nil => exact .nil
    | cons p parts ih =>
      obtain ⟨⟨s', same, kept⟩, later⟩ := List.forall_mem_cons.mp segments
      rw [List.flatMap_cons, same]
      exact .cons kept (ih later)

theorem resolving_lawful (drawn : Drawn 0 mark tree) : (resolving hidden tree mark).Lawful :=
  have exchange : Node.Exchange (fun e new => new.ReadsOnly (· ∈ e.localReads)) Node.ReadsAs :=
    ⟨.refl, .trans, .refilled, .expr⟩
  exchanging_lawful exchange drawn

end Regime

/-- Splitting texts replaces expressions by others that read no more. -/
theorem PathTraversal.Normalize.notes_resolving {tree : Multiset Node} {mark : NodeId} {env : PassEnv}
    {userInput : List NodeId} :
    (Regime.resolving (fun _ => false) tree mark).Notes (remedy env userInput) := by
  refine Normalize.notes (fun _ => rfl) fun e above anchor next new imports _ _ made _ _ _ _ _ => ?_
  have own : e.ReadsOnly (· ∈ e.localReads) := fun x mem => mem
  exact ⟨new, imports, rfl,
    normalized?_passes (Expr.passes_readsOnly _) env.matcher userInput own next (new, imports) made⟩

/-! ## Trees -/

/-- The ids of the node and of those above it tell nodes apart, and around each block it is
known what the block reads. -/
structure Node.Situated (stem : String) (above : List Node) (n : Node) : Prop where
  coherent : n.Coherent
  apart : Path.ToldApart (n :: above)
  resolved : n.Resolved stem (above.flatMap (·.bindings))

theorem Node.Situated.child {stem : String} {above : List Node} {n c : Node}
    (h : n.Situated stem above) (mem : c ∈ n.children) : c.Situated stem (n :: above) where
  coherent := h.coherent.child mem
  apart := ⟨fun _ other same => h.coherent.eq_of_same other mem same, h.apart⟩
  resolved := h.resolved.child mem

/-- A tree of nodes that were drawn has distinct ids. -/
theorem Drawn.coherent {low high : NodeId} {n : Node} (h : Drawn low high (n.parts fun _ => false)) :
    n.Coherent :=
  fun _ ha _ hb same => Node.eq_of_id h.subtree.1 ha hb (Node.id_of_same same)

/-- What is added to the node below the nodes of `above` protects. -/
def Node.Protected (stem : String) (above : List Node) (n out : Node) : Prop :=
  n.Situated stem above → n.Shields out

/-- What protects children protects the node. -/
theorem Node.Shields.refilled {n out : Node} {news : List Node} (refilled : n.Refilled out news)
    (changed : news ≠ n.children) (children : List.Forall₂ Node.Shields n.children news) :
    n.Shields out := by
  have declared {c' : Node} (mem : c' ∈ news) : c'.declaredNames ⊆ out.declaredNames := by
    intro x inside
    rw [declaredNames_eq, refilled.children]
    exact List.mem_append_right _ (List.mem_flatMap.mpr ⟨c', mem, inside⟩)
  refine ⟨.inr ?_, fun x mem => ?_, fun x mem => ?_⟩
  · refine sheds_of_children refilled.label ?_ (refilled.children ▸ changed)
    rw [refilled.children]
    exact children.imp fun _ _ h => h.sheds
  · rw [declaredNames_eq, List.mem_append] at mem
    rcases mem with here | below
    · rw [declaredNames_eq, declaredName?_of_label refilled.label]
      exact List.mem_append_left _ here
    · obtain ⟨c, child, mem⟩ := List.mem_flatMap.mp below
      obtain ⟨c', inside, each⟩ := exists_of_forall₂ children.flip child
      exact declared inside (each.declares mem)
  · rw [localReads_eq, localName?_of_label refilled.label, refilled.children, List.mem_append] at mem
    rw [localReads_eq, List.mem_append, or_assoc]
    refine mem.imp_right fun below => ?_
    obtain ⟨c', inside, mem⟩ := List.mem_flatMap.mp below
    obtain ⟨c, child, each⟩ := exists_of_forall₂ children inside
    refine (each.reads x mem).imp (fun reads => ?_) (declared inside ·)
    exact List.mem_flatMap.mpr ⟨c, child, reads⟩

namespace Regime

variable {stem : String} {hidden : Expr → Bool} {tree : Multiset Node} {mark : NodeId}

theorem protected_descends : Descends (Node.Protected stem) where
  self _ n _ := .refl n
  refilled above n out news refilled changed children situated := by
    refine .refilled refilled changed ?_
    rw [List.forall₂_iff_zip] at children ⊢
    exact ⟨children.1, fun {c c'} mem => children.2 mem (situated.child (List.of_mem_zip mem).1)⟩

variable {σ : Type} {remedy : Remedy σ} {env : PassEnv} (standard : env.splicer = .standard)
  (lawful : (protecting stem hidden tree mark).Lawful)
  (notes : (protecting stem hidden tree mark).Notes remedy)
include standard lawful notes

/-- A remedy whose fixes protect protects the tree. -/
theorem run_protects (n : Node) (above : List Node)
    (stands : (protecting stem hidden tree mark).Stands n above) :
    (protecting stem hidden tree mark).Makes (n :: above) n
      (fun out => (protecting stem hidden tree mark).Became above n out ∧ n.Protected stem above out)
      ((remedy.visitor env).run n) := by
  refine run_relates lawful protected_descends (fun n above descend stands walks rest => ?_) n above
    stands
  unfold Remedy.visitor
  refine (notes.enter n above stands _).bind fun goOn => ?_
  split
  · refine (walks rest).bind fun walked => .assuming fun both => ?_
    obtain ⟨made, related⟩ := both
    split
    next before after =>
      refine (notes.leave before above stands _).bind fun _ => ?_
      rw [standard]
      have repairs : VisitM.Triple
          ((protecting stem hidden tree mark).Holds (.block before :: above)
            (after.parts hidden + rest))
          (repair .standard before after : PassM σ Block) fun out site =>
            ((protecting stem hidden tree mark).Became above (.block before) (.block out) ∧
              (Node.block before).Protected stem above (.block out)) ∧
              (protecting stem hidden tree mark).Holds (.block before :: above)
                ((Node.block out).parts hidden + rest) site := by
        intro site out site' holds ran
        obtain ⟨became, holds'⟩ := repair_mends lawful stands made rest holds ran
        exact ⟨⟨became, fun situated => repair_shields lawful stands.genuine situated.apart
          situated.resolved.knows stands made (related situated) holds ran⟩, holds'⟩
      exact repairs.bind fun out => .pure fun _ done => done
    next => exact .pure fun _ h => ⟨⟨made.became, related⟩, h⟩
  · exact .pure fun _ h => ⟨⟨lawful.became above n, fun _ => .refl n⟩, h⟩

end Regime

/-! ## Guarding -/

/-- What stands below a block is part of it. -/
theorem Path.subtree_subset_of_front {n : Node} {above front up : List Node} {b : Block}
    (genuine : GenuineList (n :: above)) (split : n :: above = front ++ .block b :: up) :
    n.subtree ⊆ (Node.block b).subtree := by
  cases front with
  | nil =>
    cases split
    exact List.Subset.refl _
  | cons m front =>
    obtain ⟨rfl, rfl⟩ := List.cons.inj split
    have inside : GenuineList (n :: (front ++ [.block b])) := by
      refine genuineList_left (?_ : GenuineList (n :: (front ++ [.block b]) ++ up))
      rwa [List.cons_append, List.append_assoc]
    refine (Node.subtree_sublist_of_genuine inside ?_).subset
    rw [← List.cons_append, List.getLast?_concat]

/-- All that guarding notes protects. -/
theorem PathTraversal.Guarding.notes_protecting {env : PassEnv} {settings : PathSettings}
    {children : List NodeId} {tree : Multiset Node} {mark : NodeId} :
    (Regime.protecting settings.variableStem (newRead mark) tree mark).Notes
      (remedy env settings children) := by
  refine Guarding.notes newRead_covers
    fun e above anchor parent child next tainted directory kind stands _ construction _ made => ?_
  intro front b up split open_
  rcases fixFor?_cases made with ⟨v, variant, initialized, rfl, rfl, -, rfl⟩ | ⟨-, -, -, ending, rfl⟩
  · refine .guard rfl ?_
    rintro operand (rfl | same) x mem
    · -- The read of the variable: the variable is declared in the block.
      obtain ⟨between, init, rest, rfl, closed, -⟩ :=
        Path.variableAround?_cases stands.genuine rfl initialized
      have plain : ∀ n ∈ .expr e :: between, n.block? = none :=
        List.forall_mem_cons.mpr ⟨rfl, closed⟩
      obtain ⟨mid, -, after⟩ := Path.split_before_block split plain
      have whole : Path.GenuineList ((.expr e :: between) ++ .var v :: rest) := stands.genuine
      have outer : Path.GenuineList (.var v :: rest) := Path.genuineList_right whole
      have here : x = v.name := by
        rw [Expr.localReads_eq] at mem
        exact List.mem_singleton.mp mem
      refine .inr (Node.mem_declaredNames.mpr ⟨v, ?_, here.symm⟩)
      exact Path.subtree_subset_of_front outer after Node.mem_subtree_self
    · cases same
      refine .inl (Node.localReads_subset_of_mem (m := .expr parent) ?_ ?_)
      · refine Path.subtree_subset_of_front stands.genuine split ?_
        exact Node.mem_subtree_of_child (List.mem_map_of_mem (mem_of_parentAndChild? construction))
          Node.mem_subtree_self
      · rwa [Node.localReads_expr]
  · exact .extract rfl

end JavaMend
