import JavaMend.Proofs.Patch.Replaced
import JavaMend.Proofs.Tree.Places

/-!
# Replacing and replacing back

An extraction puts a read in the place of every expression alike to its target.
If the read is new to the statement this loses nothing: no expression alike to
the target is left, and with the target put back in the place of the reads the
statement is alike to what it was.

`Node.replaceAlike?` answers nothing for a node in which it replaces nothing.
`Node.TurnsInto` takes such a node for its own outcome, so that what becomes of a
node follows from what becomes of its children alone (`Node.TurnsInto.cases`).
-/

namespace JavaMend

namespace Node

variable {target new : Expr} {n out : Node}

/-- What a node is where every expression alike to `target` is replaced, from
some supply of ids. -/
def TurnsInto (target new : Expr) (n out : Node) : Prop :=
  ∃ next, out = (n.replaceAlike? target new next).1.getD n

/-- A node is replaced as a whole, or keeps its label while its children are
taken one by one. -/
theorem TurnsInto.cases (h : TurnsInto target new n out) :
    n.isAlikeExpr target = true ∧ out = .expr new ∨
      n.isAlikeExpr target = false ∧ out.label = n.label ∧
        List.Forall₂ (TurnsInto target new) n.children out.children := by
  obtain ⟨next, rfl⟩ := h
  rw [replaceAlike?_eq]
  split
  next alike => exact .inl ⟨alike, rfl⟩
  next other =>
    refine .inr ⟨Bool.eq_false_of_not_eq_true other, ?_⟩
    have answered : List.Forall₂
        (fun c answer => answer.1 = c ∧ ∃ start, answer.2 = (c.replaceAlike? target new start).1)
        n.children (n.children.mapM (withAnswer target new) next).1 :=
      Fresh.forall₂_mapM (fun c _ start => ⟨rfl, start, rfl⟩) next
    cases inner : n.children.mapM (withAnswer target new) next with
    | mk answers id =>
      rw [Fresh.bind_of_eq inner]
      rw [inner] at answered
      have turned : List.Forall₂ (TurnsInto target new) n.children
          (answers.map fun answer => answer.2.getD answer.1) := by
        refine List.forall₂_map_right_iff.mpr (answered.imp fun c answer h => ?_)
        obtain ⟨rfl, start, found⟩ := h
        exact ⟨start, congrArg (Option.getD · answer.1) found⟩
      split
      · have fits := (forall₂_becomesAlike inner).imp fun _ _ h => h.sameSort
        have refilled := n.refilled_withChildren id fits
        exact ⟨refilled.label, refilled.children.symm ▸ turned⟩
      next nothing =>
        rw [Bool.not_eq_true, List.any_eq_false] at nothing
        have kept : answers.map (fun answer => answer.2.getD answer.1) = answers.map (·.1) :=
          List.map_congr_left fun answer mem => by
            show answer.2.getD answer.1 = answer.1
            rw [Option.not_isSome_iff_eq_none.mp (nothing answer mem), Option.getD_none]
        have firsts : answers.map (·.1) = n.children :=
          List.forall₂_eq_eq_eq ▸
            List.forall₂_map_left_iff.mpr (answered.imp fun _ _ h => h.1).flip
        exact ⟨rfl, kept.trans firsts ▸ turned⟩

theorem isAlikeExpr_iff : n.isAlikeExpr target = true ↔ n.alike (.expr target) = true := by
  cases n with
  | expr e => exact Iff.rfl
  | _ =>
    refine ⟨fun h => (Bool.false_ne_true h).elim, fun h => ?_⟩
    cases (alike_iff.mp h).1

/-- Does an expression alike to `e` stand in the node? -/
def Holds (n : Node) (e : Expr) : Prop := ∃ m ∈ n.subtree, m.isAlikeExpr e = true

theorem Holds.of_child {c : Node} {e : Expr} (mem : c ∈ n.children) (h : c.Holds e) : n.Holds e := by
  obtain ⟨m, below, alike⟩ := h
  exact ⟨m, mem_subtree_of_child mem below, alike⟩

theorem Holds.of_alike {m : Node} {e : Expr} (h : n.Holds e) (alike : n.alike m = true) :
    m.Holds e := by
  obtain ⟨k, below, found⟩ := h
  obtain ⟨k', below', same⟩ := exists_alike_of_mem alike below
  exact ⟨k', below', isAlikeExpr_iff.mpr (alike_trans (alike_symm same) (isAlikeExpr_iff.mp found))⟩

theorem holds_iff {e : Expr} :
    n.Holds e ↔ n.isAlikeExpr e = true ∨ ∃ c ∈ n.children, c.Holds e := by
  constructor
  · rintro ⟨m, below, alike⟩
    rw [subtree_eq, List.mem_cons, List.mem_flatMap] at below
    rcases below with rfl | ⟨c, mem, below⟩
    · exact .inl alike
    · exact .inr ⟨c, mem, m, below, alike⟩
  · rintro (alike | ⟨c, mem, h⟩)
    · exact ⟨n, mem_subtree_self, alike⟩
    · exact h.of_child mem

/-- A node that is not alike to what it was has the new expression in it. -/
theorem TurnsInto.alike_or_holds (h : TurnsInto target new n out) :
    out.alike n = true ∨ out.Holds new := by
  induction n using inductionOn generalizing out with
  | step n ih =>
    rcases h.cases with ⟨-, rfl⟩ | ⟨-, label, children⟩
    · exact .inr ⟨_, mem_subtree_self, alike_refl _⟩
    · by_cases held : ∃ c ∈ out.children, c.Holds new
      · exact .inr (holds_iff.mpr (.inr held))
      · refine .inl (alike_iff.mpr ⟨label, List.Forall₂.flip ?_⟩)
        rw [List.forall₂_iff_zip] at children ⊢
        refine ⟨children.1, fun {c c'} mem => ?_⟩
        have among := List.of_mem_zip mem
        exact (ih c among.1 (children.2 mem)).resolve_right fun h => held ⟨c', among.2, h⟩

/-- The child that has become one of the children. -/
theorem exists_turned {c' : Node} (mem : c' ∈ out.children)
    (children : List.Forall₂ (TurnsInto target new) n.children out.children) :
    ∃ c ∈ n.children, TurnsInto target new c c' := by
  obtain ⟨i, hi, rfl⟩ := List.mem_iff_getElem.mp mem
  have hj : i < n.children.length := children.length_eq ▸ hi
  exact ⟨n.children[i], List.getElem_mem hj, (List.forall₂_iff_get.mp children).2 i hj hi⟩

/-- If the new expression, a leaf, is in neither the node nor the target, no
expression alike to the target is left. -/
theorem TurnsInto.not_holds (h : TurnsInto target new n out) (leaf : new.children = [])
    (absent : ¬ n.Holds new) (apart : ¬ (Node.expr target).Holds new) : ¬ out.Holds target := by
  induction n using inductionOn generalizing out with
  | step n ih =>
    intro left
    rcases h.cases with ⟨-, rfl⟩ | ⟨other, -, children⟩
    · rcases holds_iff.mp left with alike | ⟨c, mem, -⟩
      · have same := alike_symm (isAlikeExpr_iff.mp alike)
        exact apart (holds_iff.mpr (.inl (isAlikeExpr_iff.mpr same)))
      · rw [show (Node.expr new).children = [] from congrArg (List.map expr) leaf] at mem
        cases mem
    · rcases holds_iff.mp left with alike | ⟨c', mem, left⟩
      · have alike := isAlikeExpr_iff.mp alike
        rcases h.alike_or_holds with same | held
        · have found := isAlikeExpr_iff.mpr (alike_trans (alike_symm same) alike)
          exact Bool.false_ne_true (other.symm.trans found)
        · exact apart (held.of_alike alike)
      · obtain ⟨c, mem, turned⟩ := exists_turned mem children
        exact ih c mem turned (fun held => absent (held.of_child mem)) left

/-- With the target put back in the place of the new expression, a leaf that was
not in the node, the node is alike to what it was. -/
theorem TurnsInto.undone {mid : Node} (h : TurnsInto target new n mid)
    (back : TurnsInto new target mid out) (leaf : new.children = []) (absent : ¬ n.Holds new) :
    out.alike n = true := by
  induction n using inductionOn generalizing mid out with
  | step n ih =>
    rcases h.cases with ⟨alike, rfl⟩ | ⟨-, label, children⟩
    · rcases back.cases with ⟨-, rfl⟩ | ⟨other, -⟩
      · exact alike_symm (isAlikeExpr_iff.mp alike)
      · rw [isAlikeExpr_iff.mpr (alike_refl (.expr new))] at other
        cases other
    · rcases back.cases with ⟨alike, -⟩ | ⟨-, label', children'⟩
      · -- The node would be alike to the new expression, which has no children either.
        obtain ⟨sameLabel, none⟩ := alike_iff.mp (isAlikeExpr_iff.mp alike)
        rw [show (Node.expr new).children = [] from congrArg (List.map expr) leaf] at none
        rw [List.forall₂_nil_right_iff.mp none] at children
        have same : n.alike (.expr new) = true := by
          refine alike_iff.mpr ⟨label.symm.trans sameLabel, ?_⟩
          rw [List.forall₂_nil_right_iff.mp children,
            show (Node.expr new).children = [] from congrArg (List.map expr) leaf]
          exact .nil
        exact (absent (holds_iff.mpr (.inl (isAlikeExpr_iff.mpr same)))).elim
      · refine alike_iff.mpr ⟨label'.trans label, ?_⟩
        rw [List.forall₂_iff_get] at children children' ⊢
        refine ⟨(children.1.trans children'.1).symm, fun i hi hk => ?_⟩
        have hj : i < mid.children.length := children.1 ▸ hk
        have mem := List.getElem_mem hk
        exact ih _ mem (children.2 i hk hj) (children'.2 i hj hi)
          (fun held => absent (held.of_child mem))

end Node

namespace Stmt

variable {stmt : Stmt} {target new : Expr}

/-- A statement that cannot stay as it is has an answer. -/
theorem exists_replaceAlike? (changes : ¬ Node.TurnsInto target new (.stmt stmt) (.stmt stmt))
    (next : NodeId) :
    ∃ changed used, stmt.replaceAlike? target new next = (some changed, used) ∧
      Node.TurnsInto target new (.stmt stmt) (.stmt changed) := by
  cases found : (Node.stmt stmt).replaceAlike? target new next with
  | mk answer used =>
    have turned : Node.TurnsInto target new (.stmt stmt) (answer.getD (.stmt stmt)) :=
      ⟨next, by rw [found]⟩
    cases answer with
    | none => exact (changes turned).elim
    | some out =>
      cases out with
      | stmt changed => exact ⟨changed, used, Fresh.bind_of_eq found, turned⟩
      | _ => cases Node.replaceAlike?_sameSort found

/-- Replacing an expression by a read of a name that the statement does not read
leaves none of it behind, and replacing the read by the expression gives a
statement alike to the first one. -/
theorem replaceAlike?_undone {name : String} {owner : Option Ty} (read : new.form = .ident name owner)
    (occurs : ∃ m ∈ (Node.stmt stmt).subtree, m.isAlikeExpr target = true)
    (absent : ∀ m ∈ (Node.stmt stmt).subtree, m.isAlikeExpr new = false) (next again : NodeId) :
    ∃ changed used, stmt.replaceAlike? target new next = (some changed, used) ∧
      (∀ m ∈ (Node.stmt changed).subtree, m.isAlikeExpr target = false) ∧
      ∃ back used', changed.replaceAlike? new target again = (some back, used') ∧
        back.alike stmt = true := by
  have leaf : new.children = [] := by rw [Expr.children, read]; rfl
  have absent : ¬ (Node.stmt stmt).Holds new := by
    rintro ⟨m, below, alike⟩
    exact Bool.false_ne_true ((absent m below).symm.trans alike)
  have apart : ¬ (Node.expr target).Holds new := fun held => by
    obtain ⟨m, below, alike⟩ := occurs
    obtain ⟨k, inside, read⟩ := held.of_alike (Node.alike_symm (Node.isAlikeExpr_iff.mp alike))
    exact absent ⟨k, Node.subtree_trans below inside, read⟩
  have gone : ∀ out, Node.TurnsInto target new (.stmt stmt) out → ¬ out.Holds target :=
    fun out turned => turned.not_holds leaf absent apart
  obtain ⟨changed, used, found, turned⟩ :=
    exists_replaceAlike? (fun turned => gone _ turned occurs) next
  refine ⟨changed, used, found, fun m below => ?_, ?_⟩
  · exact Bool.eq_false_of_not_eq_true fun alike => gone _ turned ⟨m, below, alike⟩
  · obtain ⟨back, used', found', turned'⟩ := exists_replaceAlike? (fun same => gone _ turned <|
      Node.Holds.of_alike occurs (Node.alike_symm (turned.undone same leaf absent))) again
    exact ⟨back, used', found', turned.undone turned' leaf absent⟩

/-- `g(f(x), f(x));` with `f(x)` replaced by `t`, and back. -/
theorem replaceAlike?_undone_of_two_calls :
    let x : Expr := ⟨0, .int, .ident "x" none⟩
    let f : NodeId → Expr := fun id => ⟨id, .int, .call none "f" [x] none⟩
    let g : Stmt := ⟨3, .expr ⟨4, .int, .call none "g" [f 1, f 2] none⟩⟩
    let t : Expr := ⟨5, .int, .ident "t" none⟩
    t.form = .ident "t" none ∧
      (∃ m ∈ (Node.stmt g).subtree, m.isAlikeExpr (f 6) = true) ∧
      (∀ m ∈ (Node.stmt g).subtree, m.isAlikeExpr t = false) ∧
      ∃ changed used, g.replaceAlike? (f 6) t 7 = (some changed, used) ∧
        (∀ m ∈ (Node.stmt changed).subtree, m.isAlikeExpr (f 6) = false) ∧
        ∃ back used', changed.replaceAlike? t (f 6) 9 = (some back, used') ∧
          back.alike g = true := by
  intro x f g t
  have occurs : ∃ m ∈ (Node.stmt g).subtree, m.isAlikeExpr (f 6) = true := by
    have found : (Node.stmt g).subtree.any (·.isAlikeExpr (f 6)) = true := by decide +kernel
    exact List.any_eq_true.mp found
  have absent : ∀ m ∈ (Node.stmt g).subtree, m.isAlikeExpr t = false := by
    have free : (Node.stmt g).subtree.all (fun m => !m.isAlikeExpr t) = true := by decide +kernel
    exact fun m mem => by simpa using List.all_eq_true.mp free m mem
  exact ⟨rfl, occurs, absent, replaceAlike?_undone rfl occurs absent 7 9⟩

end Stmt

end JavaMend
