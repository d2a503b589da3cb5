import JavaMend.Proofs.Patch.Rewriting

/-!
# Substituting expressions

A substitution puts one and the same new expression in the place of every expression
that gives way, outermost first (`Substitution.apply`). It is one walk over the tree.

Visitors substitute by rewriting (`Substitution.rewriting`). What is rewritten so is alike to
the tree substituted (`Substitution.alike_apply`), and nothing in it gives way.
-/

namespace JavaMend

/-- Which expressions give way, and what takes their places. -/
structure Substitution where
  gives : Expr → Bool
  new : Expr
  /-- Whether an expression gives way is read off its label. -/
  labelled : ∀ e e' : Expr, (Node.expr e).label = (Node.expr e').label → gives e = gives e'
  leaf : new.children = []
  /-- What takes a place does not give way itself. -/
  stays : gives new = false

namespace Substitution

variable (S : Substitution) {n out : Node}

/-- Is the node an expression that gives way? -/
def isGiven (n : Node) : Bool := n.expr?.any S.gives

/-- The tree with every outermost expression that gives way replaced. -/
def apply (n : Node) : Node :=
  if S.isGiven n then .expr S.new
  else n.withChildren n.id (n.children.attach.map fun ⟨c, _⟩ => apply c)
termination_by sizeOf n
decreasing_by exact Node.sizeOf_lt_of_mem_children ‹_›

theorem apply_of_given (given : S.isGiven n = true) : S.apply n = .expr S.new := by
  rw [apply, if_pos given]

theorem apply_of_other (other : S.isGiven n = false) :
    S.apply n = n.withChildren n.id (n.children.map S.apply) := by
  rw [apply, if_neg (by rw [other]; exact Bool.false_ne_true)]
  simp only [List.map_subtype, List.unattach_attach]

/-- Only what is asked of expressions in the tree matters. -/
theorem apply_congr {S T : Substitution} (new : S.new = T.new)
    (same : ∀ e, .expr e ∈ n.subtree → S.gives e = T.gives e) : S.apply n = T.apply n := by
  induction n using Node.inductionOn with
  | step n ih =>
    have here : S.isGiven n = T.isGiven n := by
      cases n with
      | expr e => exact same e Node.mem_subtree_self
      | _ => rfl
    cases given : T.isGiven n with
    | true => rw [S.apply_of_given (here.trans given), T.apply_of_given given, new]
    | false =>
      have children : n.children.map S.apply = n.children.map T.apply :=
        List.map_congr_left fun c hc =>
          ih c hc fun e mem => same e (Node.mem_subtree_of_child hc mem)
      rw [S.apply_of_other (here.trans given), T.apply_of_other given, children]

theorem sameSort_apply (n : Node) : Node.SameSort n (S.apply n) := by
  cases given : S.isGiven n with
  | true =>
    rw [apply_of_given S given]
    cases n with
    | expr e => rfl
    | _ => cases given
  | false =>
    rw [apply_of_other S given]
    cases n <;> rfl

/-- What does not give way keeps its label, and its children are substituted. -/
theorem refilled_apply (other : S.isGiven n = false) :
    n.Refilled (S.apply n) (n.children.map S.apply) := by
  rw [apply_of_other S other]
  refine n.refilled_withChildren n.id ?_
  rw [List.forall₂_map_right_iff]
  exact List.forall₂_same.mpr fun c _ => S.sameSort_apply c

theorem isGiven_of_label {a b : Node} (label : a.label = b.label) : S.isGiven a = S.isGiven b := by
  cases a <;> cases b <;> first | rfl | cases label | exact S.labelled _ _ label

/-- What takes the place of an expression: a copy of the new expression, whatever its id. -/
def IsNew (e : Expr) : Prop := e.ty = S.new.ty ∧ e.form = S.new.form

theorem IsNew.label {S : Substitution} {e : Expr} (h : S.IsNew e) :
    (Node.expr e).label = (Node.expr S.new).label := by
  show Node.Label.expr e.ty (e.form.map fun _ => ()) = .expr S.new.ty (S.new.form.map fun _ => ())
  rw [h.1, h.2]

theorem IsNew.children {S : Substitution} {e : Expr} (h : S.IsNew e) :
    (Node.expr e).children = [] := by
  show e.form.children.map Node.expr = []
  rw [h.2]
  exact congrArg (List.map Node.expr) S.leaf

/-! ## Rewriting -/

/-- The rewriting that substitutes. What takes a place refers to the class. -/
def rewriting (refers : String) : Rewriting Unit where
  outside := ()
  inside _ _ := ()
  gives _ := S.gives
  drops _ _ := false
  makes _ := S.IsNew
  refers := refers

variable {S} {refers : String}

theorem rewriting_sparing : (S.rewriting refers).Sparing := by
  intro _ _ _ _ drops
  cases drops

theorem kept_rewriting (n : Node) : (S.rewriting refers).kept () n = n.children := by
  cases n with
  | block b => exact congrArg (List.map Node.stmt) (List.filter_eq_self.mpr fun _ _ => rfl)
  | _ => rfl

/-- Something is rewritten if and only if something in the tree gives way. -/
theorem acts_iff {p : Unit} : (S.rewriting refers).Acts p n ↔ ∃ m ∈ n.subtree, S.isGiven m = true := by
  constructor
  · intro acts
    induction acts with
    | here given => exact ⟨_, Node.mem_subtree_self, given⟩
    | under mem _ ih =>
      obtain ⟨m, below, given⟩ := ih
      exact ⟨m, Node.mem_subtree_of_child (Rewriting.mem_of_kept mem) below, given⟩
  · rintro ⟨m, mem, given⟩
    induction n using Node.inductionOn with
    | step n ih =>
      rw [Node.subtree_eq, List.mem_cons] at mem
      rcases mem with rfl | mem
      · exact .here given
      · obtain ⟨c, hc, below⟩ := List.mem_flatMap.mp mem
        refine .under ?_ (ih c hc below)
        rwa [kept_rewriting]

/-- A tree that was rewritten is alike to the tree substituted. -/
theorem alike_apply (h : (S.rewriting refers).Rewritten () n out) : out.alike (S.apply n) = true := by
  induction n using Node.inductionOn generalizing out with
  | step n ih =>
    rcases h.cases with ⟨e, new, rfl, rfl, gives, made⟩ | ⟨other, label, children⟩
    · have given : S.isGiven (.expr e) = true := gives
      have made : S.IsNew new := made
      rw [S.apply_of_given given]
      refine Node.alike_iff.mpr ⟨made.label, ?_⟩
      rw [made.children, show (Node.expr S.new).children = [] from congrArg _ S.leaf]
      exact .nil
    · have refilled := S.refilled_apply other
      refine Node.alike_iff.mpr ⟨label.trans refilled.label.symm, ?_⟩
      rw [kept_rewriting, List.forall₂_iff_zip] at children
      rw [refilled.children, List.forall₂_map_right_iff]
      refine List.Forall₂.flip (List.forall₂_iff_zip.mpr ⟨children.1, fun pair => ?_⟩)
      exact ih _ (List.of_mem_zip pair).1 (children.2 pair)

/-- Nothing is left that gives way. -/
theorem gone (h : (S.rewriting refers).Rewritten () n out) : ∀ m ∈ out.subtree, S.isGiven m = false := by
  induction n using Node.inductionOn generalizing out with
  | step n ih =>
    intro m mem
    rcases h.cases with ⟨e, new, rfl, rfl, gives, made⟩ | ⟨other, label, children⟩
    · have made : S.IsNew new := made
      rw [Node.subtree_eq, made.children] at mem
      cases List.mem_singleton.mp mem
      exact (S.isGiven_of_label made.label).trans S.stays
    · rw [Node.subtree_eq, List.mem_cons] at mem
      rcases mem with rfl | mem
      · exact (S.isGiven_of_label label).trans other
      · rw [kept_rewriting] at children
        obtain ⟨c', hc', below⟩ := List.mem_flatMap.mp mem
        obtain ⟨i, hi', rfl⟩ := List.mem_iff_getElem.mp hc'
        have hi : i < n.children.length := children.length_eq ▸ hi'
        exact ih _ (List.getElem_mem hi) ((List.forall₂_iff_get.mp children).2 i hi hi') m below

end Substitution

end JavaMend
