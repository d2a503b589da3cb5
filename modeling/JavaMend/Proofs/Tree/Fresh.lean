import JavaMend.Proofs.Tree.Lens
import JavaMend.Tree.Fresh

/-!
# New nodes

A node that is made after another is not the same as it. `Node.NewSince` says that
everything below a node was made since the supply stood at some id; copies are new
in this sense and otherwise like what they are copies of.
-/

namespace JavaMend

/-- Running one step after another. -/
theorem Fresh.bind_of_eq {α β : Type} {first : Fresh α} {next : α → Fresh β} {a : α}
    {n n' : NodeId} (h : first n = (a, n')) : (first >>= next) n = next a n' := by
  show StateT.bind first next n = _
  rw [StateT.bind, h]
  rfl

/-! ## Nodes below a node -/

theorem Node.subtree_eq (n : Node) : n.subtree = n :: n.children.flatMap subtree := by
  rw [subtree]
  simp only [List.flatMap_subtype, List.unattach_attach]

theorem Expr.subterms_eq (e : Expr) : e.subterms = e :: e.children.flatMap subterms := by
  rw [subterms]
  simp only [List.flatMap_subtype, List.unattach_attach]

theorem Expr.mem_subterms_self (e : Expr) : e ∈ e.subterms := by
  rw [subterms_eq]
  exact List.mem_cons_self

theorem Expr.mem_subterms_of_child {e c sub : Expr} (mem : c ∈ e.children)
    (below : sub ∈ c.subterms) : sub ∈ e.subterms := by
  rw [subterms_eq]
  exact List.mem_cons_of_mem _ (List.mem_flatMap.mpr ⟨c, mem, below⟩)

theorem Expr.mem_children_of_args {e arg : Expr} (mem : arg ∈ e.args) : arg ∈ e.children := by
  obtain ⟨id, ty, form⟩ := e
  cases form with
  | call receiver name args method => exact List.mem_append_right _ mem
  | create className args method => exact mem
  | _ => cases mem

theorem Expr.mem_children_of_receiver {e receiver : Expr} (h : e.receiver? = some receiver) :
    receiver ∈ e.children := by
  obtain ⟨id, ty, form⟩ := e
  cases form with
  | call receiver' name args method =>
    exact List.mem_append_left _ (Option.mem_toList.mpr h)
  | _ => cases h

/-- The ids below a node were not handed out before `next`. -/
def Node.NewSince (next : NodeId) (n : Node) : Prop := ∀ m ∈ n.subtree, next ≤ m.id

theorem Node.newSince_iff {next : NodeId} {n : Node} :
    n.NewSince next ↔ next ≤ n.id ∧ ∀ c ∈ n.children, c.NewSince next := by
  unfold NewSince
  rw [subtree_eq]
  simp only [List.mem_cons, List.mem_flatMap, forall_eq_or_imp, forall_exists_index, and_imp]
  exact and_congr_right fun _ => ⟨fun h c hc m hm => h m c hc hm, fun h m c hc hm => h c hc m hm⟩

/-- A node that is new around new children. -/
theorem Node.NewSince.around {next : NodeId} {n : Node} {children : List Node}
    (new : ∀ c ∈ children, c.NewSince next) (le : next ≤ n.id) (only : n.children = children) :
    n.NewSince next :=
  newSince_iff.mpr ⟨le, fun c hc => new c (only ▸ hc)⟩

/-! ## Copies -/

/-- A copy of an expression whose ids start from `next`. -/
structure Expr.CopiedFrom (next : NodeId) (e copy : Expr) : Prop where
  new : (Node.expr copy).NewSince next
  reads : copy.localReads = e.localReads
  blank : copy.form.map (fun _ => ()) = e.form.map fun _ => ()

namespace Expr

theorem localReads_eq (e : Expr) :
    e.localReads = e.localName?.toList ++ e.children.flatMap localReads := by
  unfold localReads
  rw [subterms_eq, List.filterMap_cons, List.filterMap_flatMap]
  cases e.localName? <;> rfl

theorem freshCopy_eq (e : Expr) :
    e.freshCopy = e.children.mapM freshCopy >>= fun parts =>
      freshId >>= fun id => pure (e.withChildren id parts) := by
  rw [freshCopy]
  simp only [List.mapM_subtype, List.unattach_attach]

/-- An expression is copied from every supply, which only grows. -/
def Copies (e : Expr) : Prop :=
  ∀ next, ∃ copy next', e.freshCopy next = (copy, next') ∧ next ≤ next' ∧ e.CopiedFrom next copy

theorem CopiedFrom.mono {e copy : Expr} {next next' : NodeId} (h : e.CopiedFrom next' copy)
    (le : next ≤ next') : e.CopiedFrom next copy :=
  ⟨fun m hm => Nat.le_trans le (h.new m hm), h.reads, h.blank⟩

theorem mapM_copies {es : List Expr} (parts : ∀ e ∈ es, e.Copies) (next : NodeId) :
    ∃ copies next', es.mapM freshCopy next = (copies, next') ∧ next ≤ next' ∧
      List.Forall₂ (CopiedFrom next) es copies := by
  induction es generalizing next with
  | nil => exact ⟨[], next, rfl, Nat.le_refl _, .nil⟩
  | cons e es ih =>
    obtain ⟨copy, next₁, run₁, le₁, copied⟩ := parts e List.mem_cons_self next
    obtain ⟨copies, next₂, run₂, le₂, others⟩ :=
      ih (fun e he => parts e (List.mem_cons_of_mem _ he)) next₁
    refine ⟨copy :: copies, next₂, ?_, Nat.le_trans le₁ le₂, .cons copied ?_⟩
    · rw [List.mapM_cons, Fresh.bind_of_eq run₁, Fresh.bind_of_eq run₂]
      rfl
    · exact others.imp fun _ _ h => h.mono le₁

theorem localName?_of_blank {a b : Expr}
    (h : (a.form.map fun _ => ()) = b.form.map fun _ => ()) : a.localName? = b.localName? := by
  obtain ⟨_, _, form⟩ := a
  obtain ⟨_, _, form'⟩ := b
  cases form <;> cases form' <;> simp_all [localName?, ExprForm.map]

theorem flatMap_localReads {es copies : List Expr} {next : NodeId}
    (copied : List.Forall₂ (CopiedFrom next) es copies) :
    copies.flatMap localReads = es.flatMap localReads := by
  induction copied with
  | nil => rfl
  | cons first _ ih => rw [List.flatMap_cons, List.flatMap_cons, first.reads, ih]

theorem newSince_of_copied {es copies : List Expr} {next : NodeId}
    (copied : List.Forall₂ (CopiedFrom next) es copies) :
    ∀ c ∈ copies, (Node.expr c).NewSince next := by
  induction copied with
  | nil =>
    intro c hc
    cases hc
  | cons first _ ih =>
    intro c hc
    cases hc with
    | head => exact first.new
    | tail _ hc => exact ih c hc

/-- A copy is new, and reads what the original reads. -/
theorem freshCopy_copies (e : Expr) : e.Copies := by
  intro next
  obtain ⟨parts, next', run, le, copied⟩ := mapM_copies (fun c hc => freshCopy_copies c) next
  have refilled := e.refilled_withChildren next' copied.length_eq.symm
  refine ⟨e.withChildren next' parts, next' + 1, ?_, Nat.le_succ_of_le le, ?_, ?_, refilled.blank⟩
  · rw [freshCopy_eq, Fresh.bind_of_eq run]
    rfl
  · refine Node.newSince_iff.mpr ⟨le, fun n hn => ?_⟩
    obtain ⟨c, hc, rfl⟩ := List.mem_map.mp hn
    change c ∈ (e.withChildren next' parts).form.children at hc
    rw [refilled.children] at hc
    exact newSince_of_copied copied c hc
  · rw [localReads_eq, localReads_eq e, localName?_of_blank refilled.blank]
    show _ ++ (e.withChildren next' parts).form.children.flatMap localReads = _
    rw [refilled.children, flatMap_localReads copied]
termination_by sizeOf e
decreasing_by exact sizeOf_lt_of_mem_children hc

end Expr

end JavaMend
