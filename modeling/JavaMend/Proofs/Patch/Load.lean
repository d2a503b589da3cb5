import JavaMend.Proofs.Patch.Segments
import JavaMend.Proofs.Traversal.Triple

/-!
# What pending fixes bring along

A fix that waits on a frame holds nodes that are not in the tree yet: the statements
it is going to write, or what the expression it puts in has beyond the expression it
takes out. This is its load. Applying the fix adds its load to the block, and new
nodes, and nothing else (`FixStep.parts_le`): what it moves it takes away from where
it stood.
-/

namespace JavaMend

open Classical in
/-- The nodes that a fix adds to the tree when it is applied, but for those that are
made then. -/
noncomputable def PendingFix.load (hidden : Expr → Bool) (fix : PendingFix) : Multiset Node :=
  match fix.kind with
  | .replace new _ => new.parts hidden - fix.tainted.parts hidden
  | kind => Stmt.partsOf hidden kind.written

/-- The nodes that some fixes add to the tree. -/
noncomputable def PendingFix.loadOf (hidden : Expr → Bool) (fixes : List PendingFix) :
    Multiset Node :=
  (fixes.map (·.load hidden)).sum

namespace PendingFix

variable {hidden : Expr → Bool} {fix : PendingFix}

@[simp]
theorem loadOf_nil : loadOf hidden [] = 0 := rfl

@[simp]
theorem loadOf_cons (fix : PendingFix) (fixes : List PendingFix) :
    loadOf hidden (fix :: fixes) = fix.load hidden + loadOf hidden fixes := by
  simp [loadOf]

@[simp]
theorem loadOf_append (fixes more : List PendingFix) :
    loadOf hidden (fixes ++ more) = loadOf hidden fixes + loadOf hidden more := by
  simp [loadOf]

theorem loadOf_le_of_sublist {fixes more : List PendingFix} (sub : fixes.Sublist more) :
    loadOf hidden fixes ≤ loadOf hidden more := by
  induction sub with
  | slnil => exact le_rfl
  | cons fix sub ih =>
    rw [loadOf_cons]
    exact le_trans ih (Multiset.le_add_left _ _)
  | cons_cons fix sub ih =>
    rw [loadOf_cons, loadOf_cons]
    gcongr

theorem loadOf_perm {fixes more : List PendingFix} (perm : fixes.Perm more) :
    loadOf hidden fixes = loadOf hidden more :=
  (perm.map _).sum_eq

theorem load_of_written (other : fix.kind.tag ≠ .replace) :
    fix.load hidden = Stmt.partsOf hidden fix.kind.written := by
  unfold load
  split
  next kind => rw [kind] at other; exact (other rfl).elim
  next => rfl

open Classical in
/-- The load of a replacement makes up for what the new expression has beyond the
old one. -/
theorem load_replace_le_iff {new : Expr} {imports : List String}
    (kind : fix.kind = .replace new imports) {extra : Multiset Node} :
    fix.load hidden ≤ extra ↔ new.parts hidden ≤ fix.tainted.parts hidden + extra := by
  unfold load
  rw [kind]
  exact Multiset.sub_le_iff_le_add'

/-- Statements that a fix writes are part of its load. -/
theorem written_le (hidden : Expr → Bool) (fix : PendingFix) :
    Stmt.partsOf hidden fix.kind.written ≤ fix.load hidden := by
  unfold load
  split
  next kind =>
    rw [kind]
    exact Multiset.zero_le _
  next => exact le_rfl

end PendingFix

/-! ## The order of fixes -/

namespace PendingFixes

theorem flatMap_filter_perm {tags : List FixTag} (distinct : tags.Nodup)
    (fixes : List PendingFix) :
    (tags.flatMap fun tag => fixes.filter (·.kind.tag == tag)).Perm
      (fixes.filter (tags.contains ·.kind.tag)) := by
  induction tags with
  | nil =>
    have none : fixes.filter (fun fix => List.contains [] fix.kind.tag) = [] :=
      List.filter_eq_nil_iff.mpr fun _ _ h => by cases h
    rw [none]
    exact .refl _
  | cons tag tags ih =>
    obtain ⟨new, distinct⟩ := List.nodup_cons.mp distinct
    rw [List.flatMap_cons]
    refine ((ih distinct).append_left _).trans ?_
    have parts := List.filter_append_perm (·.kind.tag == tag)
      (fixes.filter ((tag :: tags).contains ·.kind.tag))
    rw [List.filter_filter, List.filter_filter] at parts
    convert parts using 2
    · refine List.filter_congr fun fix _ => ?_
      rw [List.contains_cons]
      cases fix.kind.tag == tag <;> rfl
    · refine List.filter_congr fun fix _ => ?_
      rw [List.contains_cons]
      by_cases same : fix.kind.tag = tag
      · simpa [same] using new
      · simp [beq_eq_false_iff_ne.mpr same]

/-- The fixes in the order they are applied in are the fixes. -/
theorem ordered_perm (pending : PendingFixes) : pending.ordered.Perm pending.fixes := by
  refine (flatMap_filter_perm (by decide) pending.fixes).trans ?_
  rw [List.filter_eq_self.mpr fun fix _ => ?_]
  cases fix.kind.tag <;> rfl

/-- Of two fixes one may have to come first: nothing is done to a statement after it
was removed, and an extraction is the first thing that is done. -/
def Precedes (first later : PendingFix) : Prop :=
  first.kind.tag = .remove ∨ later.kind.tag = .extract → first.anchor.id ≠ later.anchor.id

/-- No fix takes the place of another. -/
def Distinct (fixes : List PendingFix) : Prop := fixes.Pairwise fun a b => b.supersedes a = false

theorem distinct_add {fixes : List PendingFix} (h : Distinct fixes) (fix : PendingFix) :
    Distinct (add ⟨fixes⟩ fix).fixes := by
  unfold Distinct add
  rw [List.pairwise_append]
  refine ⟨h.filter _, List.pairwise_singleton _ _, fun old hold new hnew => ?_⟩
  cases List.mem_singleton.mp hnew
  simpa using (List.mem_filter.mp hold).2

theorem ordered_precedes {pending : PendingFixes} (h : Distinct pending.fixes) :
    pending.ordered.Pairwise Precedes := by
  unfold ordered
  rw [List.pairwise_flatMap]
  constructor
  · intro tag _
    refine (h.filter _).imp_of_mem fun {a b} ha hb apart first => ?_
    have ha : a.kind.tag = tag := eq_of_beq (List.mem_filter.mp ha).2
    have hb : b.kind.tag = tag := eq_of_beq (List.mem_filter.mp hb).2
    have plain : tag ≠ .replace := by
      rintro rfl
      rw [ha, hb] at first
      exact first.elim FixTag.noConfusion FixTag.noConfusion
    intro same
    simp [PendingFix.supersedes, Stmt.same, same, ha, hb, plain] at apart
  · have sorted : FixTag.all.Pairwise fun a b => a ≠ .remove ∧ b ≠ .extract := by decide
    refine sorted.imp fun {s t} apart a ha b hb first => ?_
    have ha : a.kind.tag = s := eq_of_beq (List.mem_filter.mp ha).2
    have hb : b.kind.tag = t := eq_of_beq (List.mem_filter.mp hb).2
    rw [ha, hb] at first
    exact (first.elim apart.1 apart.2).elim

end PendingFixes

/-! ## The load of a step -/

/-- What a fix makes of a statement has the nodes of the statement, the load of the
fix, and new nodes. A replaced expression must be found by its id, and an extracted
one must stand in the statement; the reads of an extracted local are not counted. -/
theorem FixStep.parts_le {hidden : Expr → Bool} {next used : NodeId} {fix : PendingFix} {core : Stmt}
    {before after : List Stmt} {core' : Option Stmt}
    (step : FixStep next used fix core before core' after) (grown : next ≤ used)
    (replaces : fix.kind.tag = .replace → (Node.stmt core).Coherent ∧
      ∀ m ∈ (Node.stmt core).subtree, m.same (.expr fix.tainted) = true → m = .expr fix.tainted)
    (extracts : fix.kind.tag = .extract → .expr fix.tainted ∈ (Node.stmt core).subtree ∧
      ∀ read : Expr, read.localName?.isSome → next ≤ read.id → hidden read = true) :
    ∃ drawn, Drawn next used drawn ∧ Stmt.partsOf hidden (before ++ core'.toList ++ after) ≤
      core.parts hidden + fix.load hidden + drawn := by
  cases step with
  | @extract base name changed declaration read start named replaced declared kind above below hread
      hchanged hdeclaration =>
    obtain ⟨stands, covers⟩ := extracts (kind ▸ rfl)
    have start_le : start ≤ named := by
      cases hread
      exact Nat.le_succ _
    have unseen : read.parts hidden = 0 := by
      cases hread
      have hides : hidden ⟨start, fix.tainted.ty, .ident name none⟩ = true := covers _ rfl above
      unfold Expr.parts
      rw [Node.parts_eq]
      simp [Node.isHidden, Node.expr?, hides, Node.children, Expr.children, ExprForm.children]
    obtain ⟨drawn, hdrawn, rebuilt⟩ := Node.replaceAlike?_spends unseen (.stmt core) named
    rw [Stmt.replaceAlike?_node hchanged] at hdrawn rebuilt
    rw [Node.targetParts_of_mem stands] at rebuilt
    obtain ⟨drawn', hdrawn', declared⟩ := Stmt.mkDeclare_spends hidden [.final] fix.tainted.ty name
      (some fix.tainted) replaced
    rw [hdeclaration] at hdrawn' declared
    refine ⟨drawn + drawn', (hdrawn.add hdrawn').mono (Nat.le_trans above start_le) below, ?_⟩
    rw [PendingFix.load_of_written (by rw [kind]; exact FixTag.noConfusion), kind]
    simp only [FixKind.written, Option.toList, List.append_nil, List.singleton_append,
      Stmt.partsOf_cons, Stmt.partsOf_nil, add_zero, Expr.partsOf_cons, Expr.partsOf_nil] at *
    calc declaration.parts hidden + changed.parts hidden
        ≤ fix.tainted.parts hidden + drawn' + changed.parts hidden := by gcongr
      _ = changed.parts hidden + fix.tainted.parts hidden + drawn' := by abel
      _ ≤ core.parts hidden + drawn + drawn' := add_le_add_left rebuilt _
      _ = core.parts hidden + (drawn + drawn') := add_assoc _ _ _
  | @guardAfter variant message parent thrown guard start built kind hparent above below hguard =>
    obtain ⟨drawn, hdrawn, made⟩ := mkGuard_spends hidden variant thrown message fix.tainted parent start
    rw [hguard] at hdrawn made
    refine ⟨drawn, hdrawn.mono above below, ?_⟩
    rw [PendingFix.load_of_written (by rw [kind]; exact FixTag.noConfusion), kind]
    simp only [FixKind.written, Option.toList, List.nil_append, List.singleton_append,
      Stmt.partsOf_cons, Stmt.partsOf_nil, add_zero, zero_add] at *
    gcongr
  | @replace new imports changed replaced kind below hchanged =>
    obtain ⟨coherent, only⟩ := replaces (kind ▸ rfl)
    obtain ⟨drawn, hdrawn, swapped⟩ := Node.replaceExpr?_parts hidden coherent only
      (Stmt.replaceExpr?_node hchanged)
    refine ⟨drawn, hdrawn.mono (Nat.le_refl _) below, ?_⟩
    have paid : new.parts hidden ≤ fix.tainted.parts hidden + fix.load hidden :=
      (PendingFix.load_replace_le_iff kind).mp le_rfl
    simp only [Option.toList, List.nil_append, List.append_nil, Stmt.partsOf_cons, Stmt.partsOf_nil,
      add_zero]
    refine le_of_add_le_add_right (a := fix.tainted.parts hidden) ?_
    calc changed.parts hidden + fix.tainted.parts hidden
        ≤ core.parts hidden + new.parts hidden + drawn := swapped
      _ ≤ core.parts hidden + (fix.tainted.parts hidden + fix.load hidden) + drawn := by gcongr
      _ = core.parts hidden + fix.load hidden + drawn + fix.tainted.parts hidden := by abel
  | insertAfter kind =>
    refine ⟨0, .zero grown, ?_⟩
    rw [PendingFix.load_of_written (by rw [kind]; exact FixTag.noConfusion), kind]
    simp [FixKind.written]
  | insertBefore kind =>
    refine ⟨0, .zero grown, ?_⟩
    rw [PendingFix.load_of_written (by rw [kind]; exact FixTag.noConfusion), kind]
    simp [FixKind.written, add_comm]
  | remove kind => exact ⟨0, .zero grown, Multiset.zero_le _⟩

end JavaMend
