import JavaMend.Proofs.Tree.Places
import JavaMend.Proofs.Tree.Refilling
import JavaMend.Proofs.Traversal.Surface

/-!
# Trees without some statements

`Node.without` deletes the statements of some sort that stand directly in a block, in every
block of a tree, and touches nothing else: the lone statement of a branch stays, and so do
the statements of the header of a loop. A tree in which there is nothing to delete is the
tree it was (`Node.without_eq_self`).

A visitor that deletes makes the same tree of other nodes, for what is rebuilt around a
deleted statement is new. `Node.Pruned` says that nothing else is.
-/

namespace JavaMend

namespace Node

variable (drops : Stmt → Bool)

/-- Is the child a statement that goes from the block it stands in? -/
def goes (n c : Node) : Bool := n.block?.isSome && c.stmt?.any drops

/-- The children that stay. -/
def staying (n : Node) : List Node := n.children.filter (!n.goes drops ·)

/-- The tree without the statements that `drops` accepts, wherever one stands directly in
a block. -/
def without (n : Node) : Node :=
  let stay := (n.staying drops).attach.map fun ⟨c, _⟩ => c.without
  match n with
  | block b => block { b with stmts := stay.filterMap stmt? }
  | n => n.withChildren n.id stay
termination_by sizeOf n
decreasing_by exact sizeOf_lt_of_mem_children (List.mem_filter.mp ‹_›).1

variable {drops} {n c out : Node} {b : Block}

theorem without_block (b : Block) : (block b).without drops =
    block { b with stmts := (((block b).staying drops).map (without drops)).filterMap stmt? } := by
  rw [without]
  simp only [List.map_subtype, List.unattach_attach]

theorem without_open (open_ : n.block? = none) :
    n.without drops = n.withChildren n.id ((n.staying drops).map (without drops)) := by
  rw [without.eq_def]
  simp only [List.map_subtype, List.unattach_attach]
  cases n <;> first | rfl | cases open_

theorem goes_open (open_ : n.block? = none) (c : Node) : n.goes drops c = false := by
  unfold goes
  rw [open_]
  rfl

theorem staying_open (open_ : n.block? = none) : n.staying drops = n.children :=
  List.filter_eq_self.mpr fun c _ => by rw [goes_open open_]; rfl

theorem sameSort_without (n : Node) : SameSort n (n.without drops) := by
  cases n with
  | block b =>
    rw [without_block]
    rfl
  | _ =>
    rw [without_open rfl]
    rfl

theorem id_without (n : Node) : (n.without drops).id = n.id := by
  cases n with
  | block b =>
    rw [without_block]
    rfl
  | _ =>
    rw [without_open rfl]
    rfl

/-- Statements among nodes, and the nodes again. -/
theorem map_stmt_filterMap {nodes : List Node} (stmts : ∀ m ∈ nodes, m.variant = .stmt) :
    (nodes.filterMap stmt?).map stmt = nodes := by
  induction nodes with
  | nil => rfl
  | cons m nodes ih =>
    have rest := ih fun k mem => stmts k (List.mem_cons_of_mem _ mem)
    have first := stmts m List.mem_cons_self
    cases m with
    | stmt s =>
      rw [List.filterMap_cons_some (stmt?_stmt s), List.map_cons, rest]
    | _ => cases first

/-- What stays in a tree is what stays below each of the children that stay. -/
theorem refilled_without (n : Node) :
    n.Refilled (n.without drops) ((n.staying drops).map (without drops)) := by
  cases open_ : n.block? with
  | none =>
    rw [without_open open_, staying_open open_]
    refine n.refilled_withChildren n.id ?_
    rw [List.forall₂_map_right_iff]
    exact List.forall₂_same.mpr fun c _ => c.sameSort_without
  | some b =>
    cases n with
    | block b =>
      rw [without_block]
      refine ⟨map_stmt_filterMap fun m mem => ?_, rfl⟩
      obtain ⟨c, hc, rfl⟩ := List.mem_map.mp mem
      obtain ⟨s, -, rfl⟩ := List.mem_map.mp (List.mem_filter.mp hc).1
      exact (sameSort_without (stmt s)).symm
    | _ => cases open_

/-- A tree is the tree it was if nothing goes from it. -/
theorem without_eq_self_of_children (all : n.staying drops = n.children)
    (same : ∀ c ∈ n.children, c.without drops = c) : n.without drops = n := by
  have back : (n.staying drops).map (without drops) = n.children := by
    rw [all]
    exact (List.map_congr_left same).trans (List.map_id _)
  cases open_ : n.block? with
  | none => rw [without_open open_, back, withChildren_self]
  | some b =>
    cases n with
    | block b =>
      obtain ⟨id, isStatic, stmts⟩ := b
      have parts : (stmts.map stmt).filterMap stmt? = stmts := by
        rw [List.filterMap_map]
        exact List.filterMap_some
      rw [without_block, back]
      exact congrArg (fun stmts => block ⟨id, isStatic, stmts⟩) parts
    | _ => cases open_

/-- A node keeps its children and what is in them if nothing goes from it. -/
theorem children_of_without_eq (same : n.without drops = n) :
    n.staying drops = n.children ∧ ∀ c ∈ n.children, c.without drops = c := by
  have children : (n.staying drops).map (without drops) = n.children :=
    n.refilled_without.children.symm.trans (congrArg Node.children same)
  have all : n.staying drops = n.children :=
    List.filter_eq_self.mpr (List.length_filter_eq_length_iff.mp
      (by rw [← staying, ← List.length_map, children]))
  rw [all] at children
  exact ⟨all, List.map_inj_left.mp (children.trans (List.map_id _).symm)⟩

/-- No statement goes from a block of the tree. -/
def Quiet (drops : Stmt → Bool) (n : Node) : Prop :=
  ∀ b, block b ∈ n.subtree → ∀ s ∈ b.stmts, drops s = false

theorem Quiet.child (h : n.Quiet drops) (mem : c ∈ n.children) : c.Quiet drops :=
  fun b hb => h b (mem_subtree_of_child mem hb)

theorem without_eq_self (quiet : n.Quiet drops) : n.without drops = n := by
  induction n using Node.inductionOn with
  | step n ih =>
    refine without_eq_self_of_children (List.filter_eq_self.mpr fun c hc => ?_)
      fun c hc => ih c hc (quiet.child hc)
    cases n with
    | block b =>
      obtain ⟨s, hs, rfl⟩ := List.mem_map.mp hc
      show (!drops s) = true
      rw [quiet b mem_subtree_self s hs]
      rfl
    | _ => rfl

/-- There are only expressions below an expression. -/
theorem expr_of_mem_subtree {e : Expr} {m : Node} (mem : m ∈ (expr e).subtree) :
    ∃ e', m = expr e' := by
  generalize start : expr e = n at mem
  induction n using Node.inductionOn generalizing e with
  | step n ih =>
    cases start
    rw [subtree_eq, List.mem_cons] at mem
    rcases mem with rfl | below
    · exact ⟨e, rfl⟩
    · obtain ⟨c, hc, below⟩ := List.mem_flatMap.mp below
      obtain ⟨e', -, rfl⟩ := List.mem_map.mp hc
      exact ih _ hc rfl below

/-- A statement that stays, and nothing goes from, is left as the node it was: unless it
stands inside of another one that goes. -/
theorem mem_subtree_without {s : Stmt} (mem : stmt s ∈ n.subtree) (quiet : (stmt s).Quiet drops)
    (stays : ∀ b, block b ∈ n.subtree → s ∈ b.stmts → drops s = false)
    (alone : ∀ t, drops t = true → stmt s ∈ (stmt t).subtree → s = t) :
    stmt s ∈ (n.without drops).subtree := by
  induction n using Node.inductionOn with
  | step n ih =>
    rw [subtree_eq, List.mem_cons] at mem
    rcases mem with rfl | below
    · rw [without_eq_self quiet]
      exact mem_subtree_self
    · obtain ⟨c, hc, below⟩ := List.mem_flatMap.mp below
      cases gone : n.goes drops c with
      | false =>
        have stay : c ∈ n.staying drops := List.mem_filter.mpr ⟨hc, by rw [gone]; rfl⟩
        refine mem_subtree_of_child (c := c.without drops) ?_
          (ih c hc below fun b hb => stays b (mem_subtree_of_child hc hb))
        rw [n.refilled_without.children]
        exact List.mem_map_of_mem stay
      | true =>
        cases n with
        | block b =>
          obtain ⟨t, ht, rfl⟩ := List.mem_map.mp hc
          have drop : drops t = true := gone
          have same := alone t drop below
          rw [same] at stays
          exact Bool.noConfusion ((stays b mem_subtree_self ht).symm.trans drop)
        | _ => cases gone

/-! ## What a deletion makes -/

/-- The tree `out` is what is left of `n`, a node of the tree `root`: made of the nodes that
were there, but where something inside went, of new ones from `mark` on. -/
structure Pruned (drops : Stmt → Bool) (root : Node) (mark : NodeId) (n out : Node) : Prop where
  alike : out.alike (n.without drops) = true
  new : out = n ∨ mark ≤ out.id
  kept : n.without drops = n → out = n
  /-- The nodes of `out`, one by one beside those that are to be left. -/
  shared : List.Forall₂ (fun left_ made => left_ ∈ root.subtree → made = left_)
    (n.without drops).subtree out.subtree

variable {root : Node} {mark : NodeId}

theorem Pruned.label (h : Pruned drops root mark n out) : out.label = n.label :=
  (alike_iff.mp h.alike).1.trans n.refilled_without.label

/-- A node around what is left of the children that stay. -/
theorem Pruned.of_children (distinct : (root.subtree.map Node.id).Nodup) (inside : n ∈ root.subtree)
    (label : out.label = n.label)
    (children : List.Forall₂ (Pruned drops root mark) (n.staying drops) out.children)
    (new : out = n ∨ mark ≤ out.id) (kept : n.without drops = n → out = n) :
    Pruned drops root mark n out where
  alike := by
    refine alike_iff.mpr ⟨label.trans n.refilled_without.label.symm, ?_⟩
    rw [n.refilled_without.children, List.forall₂_map_right_iff]
    exact children.flip.imp fun _ _ h => h.alike
  new := new
  kept := kept
  shared := by
    rw [subtree_eq (n.without drops), subtree_eq out, n.refilled_without.children,
      List.flatMap_map]
    refine .cons (fun there => ?_) ?_
    · have same := eq_of_id distinct there inside (id_without n)
      exact (kept same).trans same.symm
    · exact List.rel_flatMap children fun _ _ h => h.shared

end Node

end JavaMend
