import JavaMend.Proofs.Tree.Places
import JavaMend.Remedy.Surroundings
import Mathlib.Data.List.Flatten
import Mathlib.Data.List.Nodup

/-!
# Surfaces of statements

The surface of a node is what stands in it outside of the blocks in it. A visitor
that changes blocks only leaves the surface of a statement, whatever it makes of
the blocks. The anchor of an expression is the statement of the nearest block, so
the expression stands on the surface of its anchor (`Path.anchor?_cases`).
-/

namespace JavaMend

namespace Node

/-- The expressions of a node that are outside of the blocks in it. -/
def surface (n : Node) : List Expr :=
  if n.kind = .block then []
  else n.expr?.toList ++ n.children.attach.flatMap fun ⟨c, _⟩ => c.surface
termination_by sizeOf n
decreasing_by exact sizeOf_lt_of_mem_children ‹_›

theorem surface_block (b : Block) : (Node.block b).surface = [] := by
  rw [surface]
  rfl

theorem surface_eq {n : Node} (open_ : n.block? = none) :
    n.surface = n.expr?.toList ++ n.children.flatMap surface := by
  have other : n.kind ≠ .block := by
    cases n with
    | block b => cases open_
    | stmt s =>
      obtain ⟨id, form⟩ := s
      cases form <;> exact NodeKind.noConfusion
    | _ => exact NodeKind.noConfusion
  rw [surface, if_neg other]
  simp only [List.flatMap_subtype, List.unattach_attach]

theorem mem_surface_of_child {n c : Node} (open_ : n.block? = none) (mem : c ∈ n.children) {e : Expr}
    (below : e ∈ c.surface) : e ∈ n.surface := by
  rw [surface_eq open_]
  exact List.mem_append_right _ (List.mem_flatMap.mpr ⟨c, mem, below⟩)

theorem mem_subtree_of_surface {n : Node} {e : Expr} (mem : e ∈ n.surface) : .expr e ∈ n.subtree := by
  induction n using Node.inductionOn with
  | step n ih =>
    cases hb : n.block? with
    | some b =>
      cases n with
      | block b => rw [surface_block] at mem; cases mem
      | _ => cases hb
    | none =>
      rw [surface_eq hb] at mem
      rcases List.mem_append.mp mem with here | below
      · cases n with
        | expr e' =>
          cases List.mem_singleton.mp here
          exact mem_subtree_self
        | _ => cases here
      · obtain ⟨c, hc, below⟩ := List.mem_flatMap.mp below
        exact mem_subtree_of_child hc (ih c hc below)

/-- Where the children that are no blocks keep their surfaces, so does the node. -/
theorem surface_subset_of_refilled {n new : Node} {news : List Node} (other : n.expr? = none)
    (refilled : n.Refilled new news) (keeps : List.Forall₂ (fun c c' => c.surface ⊆ c'.surface)
      n.children news) : n.surface ⊆ new.surface := by
  intro e mem
  have sort := sameSort_of_label refilled.label
  cases hb : n.block? with
  | some b =>
    cases n with
    | block b => rw [surface_block] at mem; cases mem
    | _ => cases hb
  | none =>
    have open_ : new.block? = none := by
      cases new with
      | block b =>
        cases n with
        | block b => cases hb
        | _ => cases sort
      | _ => rfl
    rw [surface_eq hb, other, Option.toList_none, List.nil_append] at mem
    obtain ⟨c, hc, below⟩ := List.mem_flatMap.mp mem
    obtain ⟨i, hi, rfl⟩ := List.mem_iff_getElem.mp hc
    have hi' : i < news.length := keeps.length_eq ▸ hi
    have kept := (List.forall₂_iff_get.mp keeps).2 i hi hi'
    refine mem_surface_of_child open_ ?_ (kept below)
    rw [refilled.children]
    exact List.getElem_mem hi'

end Node

/-! ## Nodes on a path -/

namespace Node

variable {n c : Node}

theorem subtree_sublist_of_child (mem : c ∈ n.children) : c.subtree.Sublist n.subtree := by
  rw [subtree_eq n, List.flatMap_def]
  exact (List.sublist_flatten_of_mem (List.mem_map_of_mem mem)).cons n

theorem subtree_sublist_of_mem {m : Node} (mem : m ∈ n.subtree) : m.subtree.Sublist n.subtree := by
  induction n using Node.inductionOn with
  | step n ih =>
    rw [subtree_eq, List.mem_cons] at mem
    rcases mem with rfl | mem
    · exact List.Sublist.refl _
    · obtain ⟨c, hc, mem⟩ := List.mem_flatMap.mp mem
      exact (ih c hc mem).trans (subtree_sublist_of_child hc)

theorem children_sublist_subtree (n : Node) : n.children.Sublist n.subtree := by
  have below : ∀ nodes : List Node, nodes.Sublist (nodes.flatMap subtree) := by
    intro nodes
    induction nodes with
    | nil => exact .slnil
    | cons c nodes ih => exact (List.singleton_sublist.mpr mem_subtree_self).append ih
  rw [subtree_eq]
  exact (below n.children).cons n

/-- No two nodes of a tree have the same id. -/
theorem eq_of_id {m k : Node} (distinct : (n.subtree.map Node.id).Nodup) (hm : m ∈ n.subtree)
    (hk : k ∈ n.subtree) (same : m.id = k.id) : m = k :=
  List.inj_on_of_nodup_map distinct hm hk same

theorem distinct_child (distinct : (n.subtree.map Node.id).Nodup) (mem : c ∈ n.children) :
    (c.subtree.map Node.id).Nodup :=
  ((subtree_sublist_of_child mem).map Node.id).nodup distinct

theorem distinct_below {m : Node} (distinct : (n.subtree.map Node.id).Nodup) (mem : m ∈ n.subtree) :
    (m.subtree.map Node.id).Nodup :=
  ((subtree_sublist_of_mem mem).map Node.id).nodup distinct

/-- No two statements of a block have the same id. -/
theorem distinct_stmts {b : Block} (distinct : ((Node.block b).subtree.map Node.id).Nodup) :
    (b.stmts.map (·.id)).Nodup := by
  have ids := ((children_sublist_subtree (.block b)).map Node.id).nodup distinct
  change ((b.stmts.map Node.stmt).map Node.id).Nodup at ids
  rwa [List.map_map] at ids

theorem stmts_nodup {b : Block} (distinct : ((Node.block b).subtree.map Node.id).Nodup) :
    b.stmts.Nodup :=
  (distinct_stmts distinct).of_map

theorem subtree_sublist_of_genuine {top : Node} {around : List Node}
    (genuine : Path.GenuineList (n :: around)) (last : (n :: around).getLast? = some top) :
    n.subtree.Sublist top.subtree := by
  induction around generalizing n with
  | nil =>
    cases last
    exact List.Sublist.refl _
  | cons parent around ih =>
    have rest := ih genuine.2 (by rwa [List.getLast?_cons_cons] at last)
    exact (subtree_sublist_of_child genuine.1).trans rest

end Node

namespace Path

/-- The nearest block of a path: no node below it is one. -/
theorem nearest?_block_go {nodes : List Node} {index : Nat} {b : Block}
    (found : nearest?.go Node.block? nodes = some (index, b)) :
    ∃ front above, nodes = front ++ .block b :: above ∧ index = above.length ∧
      ∀ n ∈ front, n.block? = none := by
  induction nodes with
  | nil => cases found
  | cons n above ih =>
    rw [nearest?.go] at found
    cases hb : n.block? with
    | some b' =>
      rw [hb] at found
      cases found
      cases n with
      | block b => cases hb; exact ⟨[], above, rfl, rfl, fun n mem => by cases mem⟩
      | _ => cases hb
    | none =>
      rw [hb] at found
      obtain ⟨front, rest, rfl, at_, none⟩ := ih found
      refine ⟨n :: front, rest, rfl, at_, fun m mem => ?_⟩
      rcases List.mem_cons.mp mem with rfl | mem
      · exact hb
      · exact none m mem

/-- There is one nearest block. -/
theorem nearest_unique {front front' above above' : List Node} {b b' : Block}
    (same : front ++ .block b :: above = front' ++ .block b' :: above')
    (open_ : ∀ n ∈ front, n.block? = none) (open_' : ∀ n ∈ front', n.block? = none) :
    front = front' ∧ b = b' ∧ above = above' := by
  induction front generalizing front' with
  | nil =>
    cases front' with
    | nil =>
      cases same
      exact ⟨rfl, rfl, rfl⟩
    | cons n front' =>
      obtain ⟨rfl, -⟩ := List.cons.inj same
      cases open_' _ List.mem_cons_self
  | cons n front ih =>
    cases front' with
    | nil =>
      obtain ⟨rfl, -⟩ := List.cons.inj same
      cases open_ _ List.mem_cons_self
    | cons n' front' =>
      obtain ⟨rfl, rest⟩ := List.cons.inj same
      obtain ⟨rfl, found⟩ := ih rest (fun m hm => open_ m (List.mem_cons_of_mem _ hm))
        fun m hm => open_' m (List.mem_cons_of_mem _ hm)
      exact ⟨rfl, found⟩

/-- The node of a path at a position. -/
theorem get?_of_split {p : Path} {front back : List Node} {n : Node}
    (split : p.outward = front ++ n :: back) : p.get? back.length = some n := by
  have length : p.length = front.length + (back.length + 1) := by
    unfold Path.length
    rw [split, List.length_append, List.length_cons]
  unfold get?
  rw [if_pos (by omega), length, split, show front.length + (back.length + 1) - 1 - back.length =
    front.length by omega, List.getElem?_append_right (Nat.le_refl _), Nat.sub_self]
  rfl

/-- The anchor of a path is a statement that the path goes through, right below the
nearest block. -/
theorem anchor?_cases {p : Path} {anchor : Stmt} (found : p.anchor? = some anchor) :
    ∃ front b above, p.outward = front ++ .stmt anchor :: .block b :: above ∧
      ∀ n ∈ front, n.block? = none := by
  unfold anchor? at found
  obtain ⟨⟨index, b⟩, near, below⟩ := Option.bind_eq_some_iff.mp found
  obtain ⟨front, above, split, rfl, none⟩ := nearest?_block_go near
  obtain ⟨n, at_, isStmt⟩ := Option.bind_eq_some_iff.mp below
  rcases List.eq_nil_or_concat' front with rfl | ⟨front, last, rfl⟩
  · rw [List.nil_append] at split
    unfold get? at at_
    rw [if_neg (by simp [Path.length, split])] at at_
    cases at_
  · rw [List.append_assoc, List.singleton_append] at split
    have here := get?_of_split split
    rw [List.length_cons, at_] at here
    cases here
    cases n with
    | stmt s =>
      cases isStmt
      exact ⟨front, b, above, split, fun n mem => none n (List.mem_append_left _ mem)⟩
    | _ => cases isStmt

/-- Going outward through nodes that are no blocks stays on the surface. -/
theorem mem_surface_of_genuine {e : Expr} {m n : Node} {between back : List Node}
    (genuine : GenuineList (m :: between ++ n :: back))
    (open_ : ∀ m ∈ between ++ [n], m.block? = none) (mem : e ∈ m.surface) : e ∈ n.surface := by
  induction between generalizing m with
  | nil => exact Node.mem_surface_of_child (open_ n List.mem_cons_self) genuine.1 mem
  | cons parent between ih =>
    refine ih genuine.2 (fun k hk => open_ k (List.mem_cons_of_mem _ hk)) ?_
    exact Node.mem_surface_of_child (open_ parent List.mem_cons_self) genuine.1 mem

/-- The nodes above one of a genuine list. -/
theorem genuineList_right {front back : List Node} {n : Node}
    (genuine : GenuineList (front ++ n :: back)) : GenuineList (n :: back) := by
  induction front with
  | nil => exact genuine
  | cons m front ih =>
    cases front with
    | nil => exact genuine.2
    | cons m' front => exact ih genuine.2

/-- An expression stands on the surface of its anchor, which is a statement of the
nearest block. -/
theorem anchor?_of_expr {e : Expr} {around : List Node} {anchor : Stmt}
    (genuine : GenuineList (.expr e :: around))
    (found : (⟨.expr e :: around⟩ : Path).anchor? = some anchor) :
    ∃ front b above, .expr e :: around = front ++ .block b :: above ∧
      (∀ n ∈ front, n.block? = none) ∧ anchor ∈ b.stmts ∧ e ∈ (Node.stmt anchor).surface := by
  obtain ⟨front, b, above, split, none⟩ := anchor?_cases found
  dsimp only at split
  cases front with
  | nil => cases split
  | cons m front =>
    obtain rfl : .expr e = m := (List.cons.inj split).1
    rw [split] at genuine
    have member : Node.stmt anchor ∈ (Node.block b).children :=
      (genuineList_right (n := .stmt anchor) genuine).1
    refine ⟨.expr e :: front ++ [.stmt anchor], b, above, by simp [split], ?_, ?_, ?_⟩
    · intro n mem
      rcases List.mem_append.mp mem with mem | mem
      · exact none n mem
      · cases List.mem_singleton.mp mem
        rfl
    · obtain ⟨s, hs, same⟩ := List.mem_map.mp member
      cases same
      exact hs
    · refine mem_surface_of_genuine genuine (fun n mem => ?_) ?_
      · rcases List.mem_append.mp mem with mem | mem
        · exact none n (List.mem_cons_of_mem _ mem)
        · cases List.mem_singleton.mp mem
          rfl
      · rw [Node.surface_eq rfl]
        exact List.mem_append_left _ List.mem_cons_self

/-- Below a unit, all but units and classes stand in a block. -/
theorem exists_block {n : Node} {above : List Node} {unit : CompilationUnit}
    (genuine : GenuineList (n :: above)) (root : (n :: above).getLast? = some (.unit unit))
    (inner : n.cls? = none ∧ n.unit? = none) : ∃ b, Node.block b ∈ n :: above := by
  induction above generalizing n with
  | nil =>
    cases root
    cases inner.2
  | cons parent above ih =>
    cases n with
    | block b => exact ⟨b, List.mem_cons_self⟩
    | unit u => cases inner.2
    | cls c => cases inner.1
    | _ =>
      rw [List.getLast?_cons_cons] at root
      have outer : parent.cls? = none ∧ parent.unit? = none := by
        cases parent with
        | unit u =>
          obtain ⟨c, -, same⟩ := List.mem_map.mp genuine.1
          cases same
        | cls c => cases List.mem_singleton.mp genuine.1
        | _ => exact ⟨rfl, rfl⟩
      obtain ⟨b, mem⟩ := ih genuine.2 root outer
      exact ⟨b, List.mem_cons_of_mem _ mem⟩

/-- Where there is a block, there is a nearest one. -/
theorem nearest?_isSome {nodes : List Node} {b : Block} (mem : Node.block b ∈ nodes) :
    (nearest?.go Node.block? nodes).isSome := by
  induction nodes with
  | nil => cases mem
  | cons n above ih =>
    rw [nearest?.go]
    cases hb : n.block? with
    | some b' => rfl
    | none =>
      rcases List.mem_cons.mp mem with rfl | mem
      · cases hb
      · exact ih mem

/-- Below a unit, every expression has an anchor. -/
theorem anchor?_isSome {e : Expr} {above : List Node} {unit : CompilationUnit}
    (genuine : GenuineList (.expr e :: above))
    (root : (Node.expr e :: above).getLast? = some (.unit unit)) :
    ∃ anchor, (⟨.expr e :: above⟩ : Path).anchor? = some anchor := by
  obtain ⟨b, mem⟩ := exists_block genuine root ⟨rfl, rfl⟩
  obtain ⟨⟨index, b'⟩, near⟩ := Option.isSome_iff_exists.mp (nearest?_isSome mem)
  obtain ⟨front, up, split, rfl, -⟩ := nearest?_block_go near
  rcases List.eq_nil_or_concat' front with rfl | ⟨front, last, rfl⟩
  · cases split
  · rw [List.append_assoc, List.singleton_append] at split
    rw [split] at genuine
    have child : last ∈ (Node.block b').children := (genuineList_right (n := last) genuine).1
    obtain ⟨s, -, rfl⟩ := List.mem_map.mp child
    refine ⟨s, ?_⟩
    have here := get?_of_split (p := ⟨.expr e :: above⟩) split
    unfold anchor? nearestBlock? nearest? stmtIn?
    rw [near]
    show ((⟨.expr e :: above⟩ : Path).get? (up.length + 1)).bind Node.stmt? = _
    rw [List.length_cons] at here
    rw [here]
    rfl

end Path

end JavaMend
