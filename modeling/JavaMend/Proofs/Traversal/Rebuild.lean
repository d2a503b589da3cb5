import JavaMend.Proofs.Tree.Places
import JavaMend.Traversal.Path

/-!
# Rebuilt ancestors

Replacing the end of a path rebuilds its ancestors, each around the rebuilt one
below it. `Path.Rebuilt` relates the ancestors before and after: labels stay, and
of the children one is replaced, which is the same node as the old one. So the new
path is genuine again, it leads through bodies where the old one does, and an
expression stands at no more places than before.
-/

namespace JavaMend

namespace Path

variable {old new : Node} {above above' : List Node}

/-- The ancestors `above` of `old`, rebuilt around `new`. -/
inductive Rebuilt : Node → Node → List Node → List Node → Prop where
  | root {old new : Node} : Rebuilt old new [] []
  | parent {old new parent rebuilt found : Node} {front back above above' : List Node}
      (split : parent.children = front ++ found :: back) (same : found.same old = true)
      (refilled : parent.Refilled rebuilt (front ++ new :: back))
      (rest : Rebuilt parent rebuilt above above') :
      Rebuilt old new (parent :: above) (rebuilt :: above')

/-- The lower part of a genuine list is genuine. -/
theorem genuineList_left {n : Node} {front back : List Node}
    (genuine : GenuineList (n :: front ++ back)) : GenuineList (n :: front) := by
  induction front generalizing n with
  | nil => trivial
  | cons m front ih => exact ⟨genuine.1, ih genuine.2⟩

theorem go_rebuilt (genuine : GenuineList (old :: above)) (fit : Node.SameSort old new)
    (done : List Node) (next : NodeId) :
    ∃ above' next', replacing.go old new above done next = (done ++ above', next') ∧
      Rebuilt old new above above' := by
  induction above generalizing old new done next with
  | nil => exact ⟨[], next, by rw [List.append_nil]; rfl, .root⟩
  | cons parent above ih =>
    obtain ⟨front, found, back, split, same, refilled⟩ :=
      Node.replaceChild_refilled next genuine.1 fit
    obtain ⟨above', next', run, rest⟩ := ih genuine.2
      (Node.sameSort_of_label refilled.label.symm) (done ++ [parent.replaceChild next old new])
      (next + 1)
    refine ⟨parent.replaceChild next old new :: above', next', ?_, .parent split same refilled rest⟩
    rw [replacing.go]
    show replacing.go parent _ above _ (next + 1) = _
    rw [run, List.append_assoc]
    rfl

/-- Replacing the end of a genuine path rebuilds the ancestors. -/
theorem replacing_end (genuine : GenuineList (old :: above)) (fit : Node.SameSort old new)
    (next : NodeId) :
    ∃ above' next', (⟨old :: above⟩ : Path).replacing above.length new next =
      (⟨new :: above'⟩, next') ∧ Rebuilt old new above above' := by
  obtain ⟨above', next', run, rebuilt⟩ := go_rebuilt genuine fit [new] next
  refine ⟨above', next', ?_, rebuilt⟩
  have whole : ((⟨old :: above⟩ : Path).upTo (above.length + 1)).outward = old :: above := by
    simp [upTo, length]
  have inside : above.length < (⟨old :: above⟩ : Path).length := Nat.lt_succ_self _
  unfold replacing
  rw [whole]
  simp only [inside, if_true]
  rw [Fresh.bind_of_eq run]
  rfl

theorem Rebuilt.genuine (rebuilt : Rebuilt old new above above') :
    GenuineList (new :: above') := by
  induction rebuilt with
  | root => trivial
  | parent split same refilled rest ih =>
    refine ⟨?_, ih⟩
    rw [refilled.children]
    exact List.mem_append_right _ List.mem_cons_self

theorem Rebuilt.labels (rebuilt : Rebuilt old new above above') :
    above'.map Node.label = above.map Node.label := by
  induction rebuilt with
  | root => rfl
  | parent split same refilled rest ih => rw [List.map_cons, List.map_cons, refilled.label, ih]

/-- An expression stands at no more places of a rebuilt ancestor than of the old
one, if that is so of the replaced node. -/
theorem Rebuilt.copies_le {e : Expr} (rebuilt : Rebuilt old new above above')
    (genuine : GenuineList (old :: above)) (kind : old.expr? = none)
    (coherent : ∀ n ∈ above, n.Coherent) (le : new.copies e ≤ old.copies e) :
    List.Forall₂ (fun n n' : Node => n'.copies e ≤ n.copies e) above above' := by
  induction rebuilt with
  | root => exact .nil
  | @parent old new parent rebuilt found front back above above' split same refilled rest ih =>
    have parent_kind : parent.expr? = none := Node.expr?_of_child genuine.1 kind
    have rebuilt_kind : rebuilt.expr? = none := by
      have sort := Node.sameSort_of_label refilled.label
      cases rebuilt with
      | expr e =>
        cases parent with
        | expr e => cases parent_kind
        | _ => cases sort
      | _ => rfl
    have replaced : found = old := (coherent parent List.mem_cons_self).eq_of_split split genuine.1 same
    have smaller : rebuilt.copies e ≤ parent.copies e := by
      rw [Node.copies_eq rebuilt, Node.copies_eq parent, refilled.children, split, replaced,
        Node.same_expr_of_kind rebuilt_kind, Node.same_expr_of_kind parent_kind]
      simp only [List.map_append, List.map_cons, List.sum_append, List.sum_cons]
      omega
    exact .cons smaller (ih genuine.2 parent_kind
      (fun n hn => coherent n (List.mem_cons_of_mem _ hn)) smaller)

end Path

/-! ## Bodies -/

/-- The kind of a node, read off its label. -/
def Node.Label.kind : Node.Label → NodeKind
  | .unit _ _ => .unit
  | .cls _ => .cls
  | .block _ => .block
  | .stmt (.method _ _) => .method
  | .stmt (.cls _ _) => .cls
  | .stmt _ => .stmt
  | .var _ _ => .var
  | .expr _ _ => .expr

theorem Node.kind_eq (n : Node) : n.kind = n.label.kind := by
  cases n with
  | stmt s =>
    obtain ⟨id, form⟩ := s
    cases form <;> rfl
  | _ => rfl

namespace Path

/-- Does an outward list with these labels start with an initializer? -/
def initializerLabels : List Node.Label → Bool
  | .block isStatic :: above =>
    isStatic ||
      match above with
      | .stmt (.block _) :: .block _ :: owner :: _ => owner.kind == .cls
      | _ => false
  | _ => false

theorem startsWithInitializer_eq (nodes : List Node) :
    startsWithInitializer nodes = initializerLabels (nodes.map Node.label) := by
  cases nodes with
  | nil => rfl
  | cons n above =>
    cases n with
    | block b =>
      show (b.isStatic || _) = (b.isStatic || _)
      congr 1
      cases above with
      | nil => rfl
      | cons m above =>
        cases m with
        | stmt s =>
          obtain ⟨id, form⟩ := s
          cases form with
          | block body =>
            cases above with
            | nil => rfl
            | cons m above =>
              cases m with
              | block b =>
                cases above with
                | nil => rfl
                | cons owner above =>
                  show (owner.kind == .cls) = (owner.label.kind == .cls)
                  rw [Node.kind_eq]
              | _ => rfl
          | _ => rfl
        | _ => rfl
    | _ => rfl

/-- Does an outward list with these labels start with a body? -/
def bodyLabels : List Node.Label → Bool
  | .block isStatic :: above =>
    (match above with
      | parent :: _ => parent.kind == .method
      | [] => false) || initializerLabels (.block isStatic :: above)
  | _ => false

theorem startsWithBody_eq (nodes : List Node) :
    startsWithBody nodes = bodyLabels (nodes.map Node.label) := by
  cases nodes with
  | nil => rfl
  | cons n above =>
    cases n with
    | block b =>
      show (_ || startsWithInitializer _) = (_ || initializerLabels _)
      rw [startsWithInitializer_eq]
      cases above with
      | nil => rfl
      | cons parent above =>
        show (parent.kind == .method || _) = (parent.label.kind == .method || _)
        rw [Node.kind_eq]
        rfl
    | _ => rfl

/-- How many statements stand between the head of an outward list and the body
around it. -/
def nestingInBody : List Node → Nat
  | [] => 0
  | n :: above =>
    if startsWithBody (n :: above) then 0 else nestingInBody above + n.stmt?.toList.length

theorem outerBody?_go_cons (n : Node) (above : List Node) :
    (startsWithBody (n :: above) = true ∧ ∃ body, n = .block body ∧
      outerBody?.go (n :: above) = some (above.length, body)) ∨
    startsWithBody (n :: above) = false ∧ outerBody?.go (n :: above) = outerBody?.go above := by
  cases n with
  | block b =>
    rw [outerBody?.go]
    by_cases body : startsWithBody (.block b :: above) = true
    · exact .inl ⟨body, b, rfl, if_pos body⟩
    · exact .inr ⟨Bool.eq_false_iff.mpr body, if_neg body⟩
  | _ => exact .inr ⟨rfl, rfl⟩

/-- The body around a path, the nodes up to it, and those above it. -/
theorem outerBody?_go_split {nodes : List Node} {index : Nat} {body : Block}
    (found : outerBody?.go nodes = some (index, body)) :
    ∃ front back, nodes = front ++ .block body :: back ∧
      Node.stmtCount front = nestingInBody nodes ∧ back.length = index := by
  induction nodes with
  | nil => cases found
  | cons n above ih =>
    rcases outerBody?_go_cons n above with ⟨starts, body', rfl, here⟩ | ⟨starts, further⟩
    · rw [here] at found
      cases found
      refine ⟨[], above, rfl, ?_, rfl⟩
      rw [nestingInBody, if_pos starts]
      rfl
    · rw [further] at found
      obtain ⟨front, back, rfl, count, place⟩ := ih found
      refine ⟨n :: front, back, rfl, ?_, place⟩
      rw [Node.stmtCount_cons, nestingInBody, starts, count]
      rfl

/-- The nodes around the head of a genuine list, up to the body that it stands in. -/
theorem outerBody?_go_around {n : Node} {above : List Node} {index : Nat} {body : Block}
    (genuine : GenuineList (n :: above)) (found : outerBody?.go (n :: above) = some (index, body)) :
    ∃ around, GenuineList (n :: around) ∧ (n :: around).getLast? = some (.block body) ∧
      Node.stmtCount around + n.stmt?.toList.length = nestingInBody (n :: above) := by
  obtain ⟨front, back, split, count, -⟩ := outerBody?_go_split found
  rw [split] at genuine
  rw [← count]
  cases front with
  | nil =>
    cases split
    exact ⟨[], trivial, rfl, rfl⟩
  | cons m around =>
    obtain ⟨rfl, rfl⟩ := List.cons.inj split
    have whole : n :: around ++ .block body :: back = n :: (around ++ [.block body]) ++ back := by
      simp
    rw [whole] at genuine
    refine ⟨around ++ [.block body], genuineList_left genuine, ?_, ?_⟩
    · rw [← List.cons_append, List.getLast?_concat]
    · rw [Node.stmtCount_cons, Node.stmtCount, List.filterMap_append]
      simp [Node.stmtCount, Node.stmt?]

theorem copies_le_of_genuine {n top : Node} {e : Expr} {around : List Node}
    (genuine : Path.GenuineList (n :: around)) (last : (n :: around).getLast? = some top) :
    n.copies e ≤ top.copies e := by
  induction around generalizing n with
  | nil =>
    cases last
    exact Nat.le_refl _
  | cons parent around ih =>
    have below := Node.copies_le_of_mem (e := e) genuine.1
    have rest := ih genuine.2 (by rwa [List.getLast?_cons_cons] at last)
    omega

/-- An expression stands at no more places of a node than of the body around it. -/
theorem copies_le_outerBody {n : Node} {above : List Node} {index : Nat} {body : Block} {e : Expr}
    (genuine : GenuineList (n :: above)) (found : outerBody?.go (n :: above) = some (index, body)) :
    n.copies e ≤ (Node.block body).copies e := by
  obtain ⟨around, genuine, last, -⟩ := outerBody?_go_around genuine found
  exact copies_le_of_genuine genuine last

/-- Lists that agree on labels have their bodies at the same places. -/
theorem outerBody?_go_of_labels {related : Node → Node → Prop} {nodes nodes' : List Node}
    (all : List.Forall₂ related nodes nodes')
    (labels : nodes'.map Node.label = nodes.map Node.label) {index : Nat} {body : Block}
    (found : outerBody?.go nodes = some (index, body)) :
    ∃ body', outerBody?.go nodes' = some (index, body') ∧ related (.block body) (.block body') := by
  induction all with
  | nil => cases found
  | @cons n n' above above' head rest ih =>
    have same : startsWithBody (n' :: above') = startsWithBody (n :: above) := by
      rw [startsWithBody_eq, startsWithBody_eq, labels]
    rcases outerBody?_go_cons n above with ⟨starts, b, rfl, here⟩ | ⟨starts, further⟩
    · rw [here] at found
      cases found
      rcases outerBody?_go_cons n' above' with ⟨-, body', rfl, here'⟩ | ⟨starts', -⟩
      · rw [← rest.length_eq] at here'
        exact ⟨body', here', head⟩
      · rw [same, starts] at starts'
        cases starts'
    · rw [further] at found
      obtain ⟨body', found', holds⟩ := ih (List.tail_eq_of_cons_eq labels) found
      refine ⟨body', ?_, holds⟩
      rcases outerBody?_go_cons n' above' with ⟨starts', -⟩ | ⟨-, further'⟩
      · rw [same, starts] at starts'
        cases starts'
      · rw [further', found']

theorem nestingInBody_of_labels {nodes nodes' : List Node}
    (labels : nodes'.map Node.label = nodes.map Node.label) :
    nestingInBody nodes' = nestingInBody nodes := by
  induction nodes generalizing nodes' with
  | nil =>
    cases nodes' with
    | nil => rfl
    | cons n' above' => cases labels
  | cons n above ih =>
    cases nodes' with
    | nil => cases labels
    | cons n' above' =>
      have same : startsWithBody (n' :: above') = startsWithBody (n :: above) := by
        rw [startsWithBody_eq, startsWithBody_eq, labels]
      have sort := Node.sameSort_of_label (List.head_eq_of_cons_eq labels)
      have length : n'.stmt?.toList.length = n.stmt?.toList.length := by
        cases n' <;> cases n <;> first | rfl | cases sort
      rw [nestingInBody, nestingInBody, same, ih (List.tail_eq_of_cons_eq labels), length]

end Path

end JavaMend
