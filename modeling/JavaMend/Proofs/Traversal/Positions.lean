import Mathlib.Data.List.Basic
import JavaMend.Proofs.Traversal.Rebuild
import JavaMend.Proofs.Traversal.Surface

/-!
# Positions in a tree

A position below a node is told by the indices of the children on the way down to it
(`Node.at?`). In a tree in which no node is at two positions, a path leads to one position.

A path whose end is replaced leads to the same position of the rebuilt tree, and
`Node.Substituted` says what that tree is: the new node stands at the position, the nodes
above it have the labels of the old ones, and everything beside them is what it was. The proof
goes up the path: what is substituted for a child is, one index further down, substituted for
part of what the rebuilt parent is substituted for (`Node.Substituted.child`).
-/

namespace JavaMend

namespace Node

/-! ## Positions -/

/-- The node at a position below a node. -/
def at? (n : Node) : List Nat → Option Node
  | [] => some n
  | i :: place => n.children[i]?.bind (·.at? place)

/-- The nodes on the way down to a position. -/
def way (n : Node) : List Nat → List Node
  | [] => [n]
  | i :: place => n :: n.children[i]?.toList.flatMap (·.way place)

variable {n m k root root' : Node} {place other : List Nat} {i : Nat}

theorem at?_append : n.at? (place ++ other) = (n.at? place).bind (·.at? other) := by
  induction place generalizing n with
  | nil => rfl
  | cons i place ih =>
    show n.children[i]?.bind (·.at? (place ++ other)) = (n.children[i]?.bind (·.at? place)).bind _
    rw [Option.bind_assoc]
    exact congrArg _ (funext fun _ => ih)

theorem at?_concat (there : n.at? place = some m) : n.at? (place ++ [i]) = m.children[i]? := by
  rw [at?_append, there, Option.bind_some, at?]
  cases m.children[i]? <;> rfl

theorem way_concat (there : n.at? place = some m) :
    n.way (place ++ [i]) = n.way place ++ m.children[i]?.toList := by
  induction place generalizing n with
  | nil =>
    cases there
    rw [List.nil_append, way, way]
    exact congrArg _ (List.flatMap_singleton' _)
  | cons j place ih =>
    obtain ⟨c, child, there⟩ := Option.bind_eq_some_iff.mp there
    simp only [List.cons_append, way, child, Option.toList_some, List.flatMap_singleton, ih there]

/-- A position is the end of the way down to it. -/
theorem way_ends (there : n.at? place = some m) : ∃ front, n.way place = front ++ [m] := by
  induction place generalizing n with
  | nil =>
    cases there
    exact ⟨[], rfl⟩
  | cons i place ih =>
    obtain ⟨c, child, there⟩ := Option.bind_eq_some_iff.mp there
    obtain ⟨front, ends⟩ := ih there
    refine ⟨n :: front, ?_⟩
    simp only [way, child, Option.toList_some, List.flatMap_singleton, ends, List.cons_append]

theorem at?_child (there : n.at? place = some m) (child : k ∈ m.children) :
    ∃ i, n.at? (place ++ [i]) = some k ∧ n.way (place ++ [i]) = n.way place ++ [k] := by
  obtain ⟨i, here⟩ := List.mem_iff_getElem?.mp child
  refine ⟨i, (at?_concat there).trans here, ?_⟩
  rw [way_concat there, here]
  rfl

/-- Nodes that lead on down from a position end at one further down. -/
theorem exists_place {front above : List Node} (there : root.at? place = some m)
    (way : (root.way place).reverse = m :: above)
    (genuine : Path.GenuineList (k :: front ++ m :: above)) :
    ∃ rest, rest ≠ [] ∧ root.at? (place ++ rest) = some k ∧
      (root.way (place ++ rest)).reverse = k :: front ++ m :: above := by
  induction front generalizing k with
  | nil =>
    obtain ⟨i, below, on⟩ := at?_child there genuine.1
    refine ⟨[i], List.cons_ne_nil _ _, below, ?_⟩
    rw [on, List.reverse_append, way]
    rfl
  | cons c front ih =>
    obtain ⟨rest, -, there', way'⟩ := ih genuine.2
    obtain ⟨i, below, on⟩ := at?_child there' genuine.1
    refine ⟨rest ++ [i], List.append_ne_nil_of_right_ne_nil _ (List.cons_ne_nil _ _), ?_, ?_⟩
    · rw [← List.append_assoc, below]
    · rw [← List.append_assoc, on, List.reverse_append, way']
      rfl

theorem mem_subtree_of_at? (there : n.at? place = some m) : m ∈ n.subtree := by
  induction place generalizing n with
  | nil =>
    cases there
    exact mem_subtree_self
  | cons i place ih =>
    obtain ⟨c, child, there⟩ := Option.bind_eq_some_iff.mp there
    exact mem_subtree_of_child (List.mem_of_getElem? child) (ih there)

theorem not_same_of_below {c : Node} (distinct : n.subtree.Pairwise fun a b => a.same b = false)
    (child : c ∈ n.children) (below : m ∈ c.subtree) : n.same m = false := by
  rw [subtree_eq, List.pairwise_cons] at distinct
  exact distinct.1 m (List.mem_flatMap.mpr ⟨c, child, below⟩)

/-- Where no node is at two positions, nodes at different ones are not the same. -/
theorem at?_unique (distinct : n.subtree.Pairwise fun a b => a.same b = false)
    (there : n.at? place = some m) (there' : n.at? other = some k) (same : m.same k = true) :
    place = other := by
  induction place generalizing n other with
  | nil =>
    cases there
    cases other with
    | nil => rfl
    | cons j other =>
      obtain ⟨d, child, there'⟩ := Option.bind_eq_some_iff.mp there'
      rw [not_same_of_below distinct (List.mem_of_getElem? child) (mem_subtree_of_at? there')] at same
      cases same
  | cons i place ih =>
    obtain ⟨c, child, below⟩ := Option.bind_eq_some_iff.mp there
    cases other with
    | nil =>
      cases there'
      rw [same_comm, not_same_of_below distinct (List.mem_of_getElem? child) (mem_subtree_of_at? below)]
        at same
      cases same
    | cons j other =>
      obtain ⟨d, child', below'⟩ := Option.bind_eq_some_iff.mp there'
      rw [subtree_eq] at distinct
      obtain ⟨within, apart⟩ := List.pairwise_flatMap.mp distinct.of_cons
      -- Below two children there are no nodes that are the same.
      have apart {i j : Nat} {c d m k : Node} (before : i < j) (child : n.children[i]? = some c)
          (child' : n.children[j]? = some d) (below : m ∈ c.subtree) (below' : k ∈ d.subtree) :
          m.same k = false := by
        obtain ⟨inside, rfl⟩ := List.getElem?_eq_some_iff.mp child
        obtain ⟨inside', rfl⟩ := List.getElem?_eq_some_iff.mp child'
        exact List.pairwise_iff_getElem.mp apart i j inside inside' before m below k below'
      rcases Nat.lt_trichotomy i j with before | rfl | after
      · rw [apart before child child' (mem_subtree_of_at? below) (mem_subtree_of_at? below')] at same
        cases same
      · cases child.symm.trans child'
        rw [ih (within c (List.mem_of_getElem? child)) below below']
      · rw [same_comm, apart after child' child (mem_subtree_of_at? below') (mem_subtree_of_at? below)]
          at same
        cases same

/-! ## Substitution -/

/-- The tree `root'` is `root` with `new` at a position. -/
structure Substituted (root : Node) (place : List Nat) (new root' : Node) : Prop where
  here : root'.at? place = some new
  above : ∀ front, front <+: place → front ≠ place →
    (root'.at? front).map Node.label = (root.at? front).map Node.label
  beside : ∀ other, ¬ other <+: place → ¬ place <+: other → root'.at? other = root.at? other

theorem getElem?_replaced (front back : List Node) (new : Node) :
    (front ++ new :: back)[front.length]? = some new := by
  rw [List.getElem?_append_right (Nat.le_refl _), Nat.sub_self]
  rfl

theorem getElem?_beside (front back : List Node) (old new : Node) (elsewhere : front.length ≠ i) :
    (front ++ new :: back)[i]? = (front ++ old :: back)[i]? := by
  have set : front ++ new :: back = (front ++ old :: back).set front.length new := by simp
  rw [set, List.getElem?_set_ne elsewhere]

theorem substituted_self (old new : Node) : old.Substituted [] new new where
  here := rfl
  above _ empty other := (other (List.prefix_nil.mp empty)).elim
  beside other _ apart := (apart (List.nil_prefix (l := other))).elim

theorem Substituted.child {parent rebuilt old new : Node} {front back : List Node}
    (substituted : root.Substituted place rebuilt root') (there : root.at? place = some parent)
    (split : parent.children = front ++ old :: back)
    (refilled : parent.Refilled rebuilt (front ++ new :: back)) :
    root.Substituted (place ++ [front.length]) new root' where
  here := by
    rw [at?_concat substituted.here, refilled.children]
    exact getElem?_replaced front back new
  above := by
    intro upper isPrefix proper
    rcases List.prefix_concat_iff.mp isPrefix with whole | isPrefix
    · exact (proper whole).elim
    · by_cases whole : upper = place
      · rw [whole, substituted.here, there, Option.map_some, Option.map_some, refilled.label]
      · exact substituted.above upper isPrefix whole
  beside := by
    intro other notAbove notBelow
    have notAbove' : ¬ other <+: place := fun h => notAbove (h.trans (List.prefix_append _ _))
    by_cases below : place <+: other
    · obtain ⟨rest, rfl⟩ := below
      cases rest with
      | nil =>
        have whole : place ++ [] <+: place := ⟨[], by simp⟩
        exact (notAbove' whole).elim
      | cons j rest =>
        have elsewhere : front.length ≠ j := by
          rintro rfl
          exact notBelow ⟨rest, List.append_assoc ..⟩
        have same : rebuilt.children[j]? = parent.children[j]? := by
          rw [refilled.children, split, getElem?_beside front back old new elsewhere]
        rw [at?_append, at?_append, substituted.here, there, Option.bind_some, Option.bind_some, at?,
          at?, same]
    · exact substituted.beside other notAbove' below

end Node

namespace Path

/-! ## Paths that are replaced -/

variable {p : Path} {root old new node target : Node} {front above above' : List Node} {i : Nat}

theorem get?_zero (p : Path) : p.get? 0 = p.outward.getLast? := by
  rw [get?, List.getLast?_eq_getElem?]
  split
  · rfl
  · next empty =>
    rw [List.length_eq_zero_iff.mp (Nat.eq_zero_of_not_pos empty)]
    rfl

theorem exists_split (there : p.get? i = some old) :
    ∃ front above, p.outward = front ++ old :: above ∧ above.length = i := by
  rw [get?] at there
  split at there
  · next inside =>
    obtain ⟨inside', rfl⟩ := List.getElem?_eq_some_iff.mp there
    refine ⟨p.outward.take (p.length - 1 - i), p.outward.drop (p.length - 1 - i + 1), ?_, ?_⟩
    · rw [List.getElem_cons_drop, List.take_append_drop]
    · rw [List.length_drop]
      unfold Path.length at inside ⊢
      omega
  · cases there

theorem upTo_of_split (split : p.outward = front ++ old :: above) :
    (p.upTo (above.length + 1)).outward = old :: above := by
  rw [upTo, Path.length, split]
  refine List.drop_left' ?_
  rw [List.length_append, List.length_cons]
  omega

/-- What is below the replaced node has no part in it. -/
theorem replacing_of_split (split : p.outward = front ++ old :: above) (next : NodeId) :
    p.replacing above.length new next = (⟨old :: above⟩ : Path).replacing above.length new next := by
  have inside : above.length < p.length := by
    rw [Path.length, split, List.length_append, List.length_cons]
    omega
  have inside' : above.length < (⟨old :: above⟩ : Path).length := Nat.lt_succ_self _
  have whole : (⟨old :: above⟩ : Path).outward = [] ++ old :: above := rfl
  unfold replacing
  rw [upTo_of_split split, upTo_of_split whole]
  simp only [inside, inside', if_true]

theorem Rebuilt.substituted (rebuilt : Rebuilt old new above above')
    (genuine : GenuineList (old :: above)) (coherent : ∀ n ∈ above, n.Coherent) :
    ∃ root root' place, (old :: above).getLast? = some root ∧
      (new :: above').getLast? = some root' ∧ root.at? place = some old ∧
        root.way place = (old :: above).reverse ∧ root'.way place = (new :: above').reverse ∧
          root.Substituted place new root' := by
  induction rebuilt with
  | @root old new => exact ⟨old, new, [], rfl, rfl, rfl, rfl, rfl, Node.substituted_self old new⟩
  | @parent old new parent rebuilt found front back above above' split same refilled rest ih =>
    have replaced : found = old := (coherent parent List.mem_cons_self).eq_of_split split genuine.1 same
    subst replaced
    obtain ⟨root, root', place, top, top', there, way, way', substituted⟩ :=
      ih genuine.2 fun n mem => coherent n (List.mem_cons_of_mem _ mem)
    refine ⟨root, root', place ++ [front.length], ?_, ?_, ?_, ?_, ?_,
      substituted.child there split refilled⟩
    · rwa [List.getLast?_cons_cons]
    · rwa [List.getLast?_cons_cons]
    · rw [Node.at?_concat there, split, Node.getElem?_replaced]
    · rw [Node.way_concat there, way, split, Node.getElem?_replaced, List.reverse_cons (a := found)]
      rfl
    · rw [Node.way_concat substituted.here, way', refilled.children, Node.getElem?_replaced,
        List.reverse_cons (a := new)]
      rfl

theorem Rebuilt.length_eq (rebuilt : Rebuilt old new above above') : above'.length = above.length := by
  simpa using congrArg List.length rebuilt.labels

/-- All nodes of a path are below its root. -/
theorem coherent_above (genuine : GenuineList (old :: above)) (top : (old :: above).getLast? = some root)
    (coherent : root.Coherent) : ∀ n ∈ above, n.Coherent := by
  intro n mem
  obtain ⟨front, back, rfl⟩ := List.append_of_mem mem
  have upper : GenuineList (n :: back) :=
    genuineList_right (show GenuineList ((old :: front) ++ n :: back) from genuine)
  have last : (n :: back).getLast? = some root := by
    rwa [← List.cons_append, List.getLast?_append_cons] at top
  have among := (Node.subtree_sublist_of_genuine upper last).subset
  exact fun a ha b hb => coherent a (among ha) b (among hb)

/-! ## Paths that are found -/

/-- The path leads from `top` to a node that is the same as `target`. -/
structure LeadsTo (p : Path) (top target : Node) : Prop where
  genuine : p.Genuine
  top : p.get? 0 = some top
  target : ∃ n, p.value? = some n ∧ n.same target = true

theorem search_eq (target : Node) (above : List Node) (n : Node) :
    search target above n = if n.same target then some ⟨n :: above⟩
      else n.children.findSome? (search target (n :: above)) := by
  rw [search]
  simp only [List.findSome?_subtype, List.unattach_attach]

theorem search_leadsTo {n top : Node} (genuine : GenuineList (n :: above))
    (last : (n :: above).getLast? = some top) (found : search target above n = some p) :
    p.LeadsTo top target := by
  induction n using Node.inductionOn generalizing above with
  | step n ih =>
    rw [search_eq] at found
    split at found
    · next same =>
      cases found
      exact ⟨genuine, (get?_zero _).trans last, n, rfl, same⟩
    · obtain ⟨c, mem, found⟩ := List.exists_of_findSome?_eq_some found
      have genuine' : GenuineList (c :: n :: above) := ⟨mem, genuine⟩
      exact ih c mem genuine' (by rwa [List.getLast?_cons_cons]) found

theorem search_isSome {n : Node} :
    (search target above n).isSome ↔ ∃ m ∈ n.subtree, m.same target = true := by
  induction n using Node.inductionOn generalizing above with
  | step n ih =>
    rw [search_eq, Node.subtree_eq]
    split
    · next same => exact ⟨fun _ => ⟨n, List.mem_cons_self, same⟩, fun _ => rfl⟩
    · next other =>
      rw [List.findSome?_isSome_iff]
      constructor
      · rintro ⟨c, mem, found⟩
        obtain ⟨m, below, same⟩ := (ih c mem).mp found
        exact ⟨m, List.mem_cons_of_mem _ (List.mem_flatMap.mpr ⟨c, mem, below⟩), same⟩
      · rintro ⟨m, below, same⟩
        rcases List.mem_cons.mp below with rfl | below
        · exact (other same).elim
        · obtain ⟨c, mem, below⟩ := List.mem_flatMap.mp below
          exact ⟨c, mem, (ih c mem).mpr ⟨m, below, same⟩⟩

/-- A node of the tree is found, and no other. -/
theorem locate_leadsTo (top target : Node) :
    (∀ q, locate top target = some q → q.LeadsTo top target) ∧
      ((locate top target).isSome ↔ ∃ n ∈ top.subtree, n.same target = true) :=
  ⟨fun _ found => search_leadsTo (show GenuineList [top] from trivial) rfl found, search_isSome⟩

/-- The path `p'` is `p` down to its node `old` at an index, with `new` in the place of that:
it leads to the same position, of the tree in which only that is substituted. -/
structure Replaced (p : Path) (i : Nat) (root old new : Node) (p' : Path) : Prop where
  length : p'.length = i + 1
  genuine : p'.Genuine
  value : p'.value? = some new
  substituted : ∃ root' place, p'.get? 0 = some root' ∧
    p.inward.take (i + 1) = root.way place ∧ p'.inward = root'.way place ∧
      (∀ other n, root.at? other = some n → (n.same old = true ↔ other = place)) ∧
        root.Substituted place new root'

/-- Replacing a node of a path substitutes the new node for it at its position in the tree, and
a path is found just to the nodes that a tree has. -/
theorem replacing_replaced_and_locate_leadsTo (genuine : p.Genuine) (top : p.get? 0 = some root)
    (distinct : root.subtree.Pairwise fun a b => a.same b = false) (there : p.get? i = some old)
    (fit : Node.SameSort old node) (next : NodeId) :
    p.Replaced i root old node (p.replacing i node next).1 ∧
      ∀ top target, (∀ q, locate top target = some q → q.LeadsTo top target) ∧
        ((locate top target).isSome ↔ ∃ n ∈ top.subtree, n.same target = true) := by
  refine ⟨?_, locate_leadsTo⟩
  obtain ⟨front, above, split, rfl⟩ := exists_split there
  have genuine' : GenuineList (old :: above) := by
    rw [Path.Genuine, split] at genuine
    exact genuineList_right genuine
  have top' : (old :: above).getLast? = some root := by
    rw [get?_zero, split, List.getLast?_append_cons] at top
    exact top
  obtain ⟨above', next', replaced, rebuilt⟩ := replacing_end genuine' fit next
  have coherent := Node.coherent_of_distinct (fun _ mem => mem) distinct
  obtain ⟨_, root', place, last, last', here, way, way', substituted⟩ :=
    rebuilt.substituted genuine' (coherent_above genuine' top' coherent)
  cases top'.symm.trans last
  rw [replacing_of_split split, replaced]
  refine ⟨congrArg (· + 1) rebuilt.length_eq, rebuilt.genuine, rfl,
    root', place, (get?_zero _).trans last', ?_, way'.symm, ?_, substituted⟩
  · rw [way, inward, split, List.reverse_append]
    exact List.take_left' (by rw [List.length_reverse, List.length_cons])
  · intro other n there'
    constructor
    · exact fun same => Node.at?_unique distinct there' here same
    · rintro rfl
      cases there'.symm.trans here
      exact Node.same_self old

/-- The inner of two blocks. -/
def innerBlock : Node := .block ⟨3, false, [⟨4, .continueStmt⟩]⟩

/-- A block with another one behind a statement. -/
def outerBlock : Node := .block ⟨0, false, [⟨1, .breakStmt⟩, ⟨2, .block ⟨3, false, [⟨4, .continueStmt⟩]⟩⟩]⟩

/-- The path to the statement of the inner block. -/
def toContinue : Path :=
  ⟨[.stmt ⟨4, .continueStmt⟩, innerBlock, .stmt ⟨2, .block ⟨3, false, [⟨4, .continueStmt⟩]⟩⟩, outerBlock]⟩

/-- The inner block is replaced by an empty one. -/
theorem toContinue_replaced : toContinue.Replaced 2 outerBlock innerBlock (.block ⟨9, false, []⟩)
    (toContinue.replacing 2 (.block ⟨9, false, []⟩) 10).1 := by
  have genuine : toContinue.Genuine := by
    refine ⟨?_, ?_, ?_, trivial⟩
    · exact List.mem_singleton.mpr rfl
    · exact List.mem_singleton.mpr rfl
    · exact List.mem_cons_of_mem _ (List.mem_singleton.mpr rfl)
  have distinct : outerBlock.subtree.Pairwise fun a b => a.same b = false := by
    simp [outerBlock, Node.subtree_eq, Node.children, Stmt.children, Node.same]
  have there : toContinue.get? 2 = some innerBlock := rfl
  have fit : Node.SameSort innerBlock (.block ⟨9, false, []⟩) := rfl
  exact (replacing_replaced_and_locate_leadsTo genuine rfl distinct there fit 10).1

end Path

end JavaMend
