import JavaMend.Proofs.Remedy.Completed
import JavaMend.Proofs.Remedy.Notes

/-!
# Bodies that are treated apart

Path traversal treats each body by visits of their own: one that completes partial
paths, one that splits texts, and one that guards what the second left. Each keeps to
a regime of its own (`Regime.within`), whose tree is the body that it starts from; what
it makes is made of that body and of new nodes, so the visit around it can account for
it (`PathTraversal.visitor_mends`).

Guarding moves an expression into a new local and reads the local wherever an alike
expression stood. These reads are one node, so the reads of new locals are not
accounted for.
-/

namespace JavaMend

/-- Is the expression a read of a local that is not older than `mark`? -/
def newRead (mark : NodeId) (e : Expr) : Bool := e.localName?.isSome && mark ≤ e.id

theorem newRead_of_le {hidden : Expr → Bool} {mark next : NodeId} (hides : hidden = newRead mark)
    (le : mark ≤ next) (e : Expr) (new : newRead next e = true) : hidden e = true := by
  rw [hides]
  unfold newRead at new ⊢
  simp only [Bool.and_eq_true, decide_eq_true_eq] at new ⊢
  exact ⟨new.1, Nat.le_trans le new.2⟩

theorem newRead_covers {mark : NodeId} (read : Expr) (isLocal : read.localName?.isSome)
    (new : mark ≤ read.id) : newRead mark read = true := by
  simp only [newRead, isLocal, Bool.true_and, decide_eq_true_eq]
  exact new

/-- Where nothing is new, nothing is left out. -/
theorem Node.parts_newRead {n : Node} {mark : NodeId} (old : ∀ m ∈ n.subtree, m.id < mark) :
    n.parts (newRead mark) = n.parts fun _ => false := by
  rw [parts_all]
  unfold parts
  rw [List.filter_eq_self.mpr]
  intro m mem
  cases m with
  | expr e =>
    have older : ¬ mark ≤ e.id := Nat.not_le_of_lt (old _ mem)
    simp [isHidden, expr?, newRead, older]
  | _ => rfl

namespace Regime

variable {G : Regime} {σ : Type}

/-- The regime for another tree. -/
def within (G : Regime) (hidden : Expr → Bool) (tree : Multiset Node) (mark : NodeId) : Regime :=
  { G with hidden, tree, mark }

/-- Noting that an expression of the current anchor is to be extracted. -/
theorem Stands.note_extract {e : Expr} {above : List Node} {anchor : Stmt} {parent : Option Expr}
    {base : String} (stands : G.Stands (.expr e) above)
    (found : (⟨.expr e :: above⟩ : Path).anchor? = some anchor)
    (fits : G.FitsNear (.expr e :: above) ⟨anchor, e, parent, .extract base⟩)
    (covers : ∀ read : Expr, read.localName?.isSome → G.mark ≤ read.id → G.hidden read = true) :
    G.Keeps (.expr e :: above)
      (PassM.noteFix ⟨anchor, e, parent, .extract base⟩ : PassM σ Bool) := by
  obtain ⟨front, b, up, split, open_, inside, surface⟩ :=
    Path.anchor?_of_expr stands.genuine found
  intro hand
  have noted : VisitM.Triple (G.Holds (.expr e :: above) (0 + hand))
      (PassM.noteFix ⟨anchor, e, parent, .extract base⟩ : PassM σ Bool)
      fun _ => G.Holds (.expr e :: above) hand := by
    refine noteFix_holds split open_ ⟨⟨b, up, rfl, inside⟩, ?_, ?_, ?_, ?_⟩ ?_
    · exact fun s none => (List.not_mem_nil none).elim
    · exact fun other => nomatch other
    · exact fun _ => ⟨surface, covers⟩
    · exact fits front b up split open_
    · exact le_of_eq (PendingFix.load_of_written FixTag.noConfusion)
  rwa [zero_add] at noted

/-- A body that a visit apart starts from. -/
theorem stands_body {block : Block} {above : List Node}
    (tree : (Node.block block).parts (fun _ => false) = G.tree)
    (genuine : Path.GenuineList (.block block :: above))
    (body : Path.startsWithBody (.block block :: above) = true) : G.Stands (.block block) above where
  genuine := genuine
  parts := le_of_eq tree
  body index b found := by
    rcases Path.outerBody?_go_cons (.block block) above with ⟨-, b', same, here⟩ | ⟨inner, -⟩
    · cases same
      rw [here] at found
      cases found
      exact le_of_eq tree
    · rw [body] at inner
      cases inner

/-- A visit that starts at the end of a path, with nothing waiting. -/
theorem Holds.ofPath {path : List Node} {hand : Multiset Node} {own : σ} {next : NodeId}
    (le : G.mark ≤ next) (owned : hand ≤ G.tree) :
    G.Holds path hand { cursor := .ofPath ⟨path⟩, next, own : Site Note σ } := by
  have waiting : (Cursor.ofPath ⟨path⟩ : Cursor Note).waiting = path.map fun n => (n, []) :=
    Cursor.waiting_ofPath _
  have none : G.AllowsAll (path.map fun n => (n, [])) ∧
      G.load (path.map fun n => (n, [])) = 0 := by
    induction path with
    | nil => exact ⟨trivial, rfl⟩
    | cons n path ih =>
      obtain ⟨allowed, load⟩ := ih (Cursor.waiting_ofPath _)
      refine ⟨⟨allows_nil _, allowed⟩, ?_⟩
      rw [List.map_cons, load_cons, load, PendingFix.loadOf_nil, add_zero]
  refine ⟨?_, waiting ▸ none.1, 0, .zero le, ?_⟩
  · show (Cursor.ofPath ⟨path⟩ : Cursor Note).waiting.map (·.1) = path
    rw [waiting, List.map_map]
    exact List.map_id _
  · show hand + G.load (Cursor.ofPath ⟨path⟩ : Cursor Note).waiting ≤ _
    rw [waiting, none.2]
    exact add_le_add owned le_rfl

/-- What a visit may make of a block. -/
theorem Became.ofBlock {above : List Node} {block out : Block}
    (new : out = block ∨ G.mark ≤ out.id) (isStatic : out.isStatic = block.isStatic)
    (became : G.became above (.block block) (.block out)) :
    G.Became above (.block block) (.block out) where
  sort := rfl
  new := new.imp_left (congrArg Node.block)
  expr isExpr := nomatch isExpr
  block _ := congrArg Node.Label.block isStatic
  surface := by
    rw [Node.surface_block]
    exact List.nil_subset _
  became := became

end Regime

namespace PathTraversal

variable {G : Regime} {env : PassEnv}

open Regime

/-! ## The three remedies -/

theorem PartialPath.notes (plain : ∀ e, G.hidden e = false)
    (fits : ∀ e above directory anchor next, G.Stands (.expr e) above →
      directory? env.matcher e = some directory →
      (⟨.expr e :: above⟩ : Path).anchor? = some anchor →
      G.FitsNear (.expr e :: above) ⟨anchor, directory, none,
        .replace (mkCompleted directory next).1 [Fqn.file]⟩) :
    G.Notes (PartialPath.remedy env) where
  enter n above stands := by
    refine keeps_of_expr fun e at_ => ?_
    subst at_
    split
    next directory found =>
      refine bind_keeps ?_ fun _ => pure_keeps _
      exact replaceFresh_keeps stands plain (Expr.mem_subterms_of_child
        (Expr.mem_children_of_args (directory_mem_args found)) directory.mem_subterms_self)
        (mkCompleted_spends G.hidden directory)
        fun anchor next at_ => fits e above directory anchor next stands found at_
    next => exact bind_keeps (pure_keeps _) fun _ => pure_keeps _
  leave _ _ _ := pure_keeps _

theorem Normalize.notes {userInput : List NodeId} (plain : ∀ e, G.hidden e = false)
    (fits : ∀ e above anchor next new imports, G.Stands (.expr e) above →
      (⟨.expr e :: above⟩ : Path).anchor? = some anchor →
      (normalized? env.matcher userInput e next).1 = some (new, imports) →
      G.FitsNear (.expr e :: above) ⟨anchor, e, none, .replace new imports⟩) :
    G.Notes (Normalize.remedy env userInput) where
  enter n above stands := by
    refine keeps_of_expr fun e at_ => ?_
    subst at_
    intro hand
    refine (fresh_holds (normalized?_spends G.hidden env.matcher userInput e)).bind fun answer =>
      .assuming ?_
    rintro ⟨next, made⟩
    refine .naming fun extra => .assuming fun _ => .assuming fun paid => ?_
    refine path_holds.bind fun path => .assuming ?_
    rintro rfl
    split
    next new imports _ _ =>
      refine VisitM.Triple.bind ?_ fun _ => pure_keeps _ _
      exact replaceHere_holds stands plain e.mem_subterms_self (by simpa using paid)
        fun anchor found => fits e above anchor next new imports stands found made
    next => exact .pure fun _ h => h.weaken (Multiset.le_add_left _ _)
  leave _ _ _ := pure_keeps _

/-- Choosing a fix makes nothing that gets into the tree. -/
theorem Guarding.fixFor?_spends (settings : PathSettings) (path : Path) (construction parent : Expr) :
    Fresh.Spends 0 (fixFor? settings path construction parent) fun _ => 0 := by
  unfold fixFor?
  split
  · split
    · exact (Variable.mkRead_spends (fun _ => false) _ none).bind_new fun _ =>
        .pure (Multiset.zero_le _)
    · exact .pure le_rfl
  · dsimp only
    split
    · exact .pure le_rfl
    · split <;> exact .pure le_rfl

/-- The fix for a construction is a guard, or the extraction of the construction. -/
theorem Guarding.fixFor?_cases {settings : PathSettings} {path : Path} {construction parent : Expr}
    {next : NodeId} {tainted : Expr} {directory : Option Expr} {kind : FixKind}
    (found : (fixFor? settings path construction parent next).1 = some (tainted, directory, kind)) :
    (∃ v variant, path.initialized? = some v ∧ tainted = (v.mkRead none next).1 ∧
      directory = some parent ∧ GuardVariant.select? v.ty parent.ty = some variant ∧
      kind = .guardAfter variant settings.guardMessage) ∨
    path.initialized? = none ∧ tainted = construction ∧ directory = none ∧
      ∃ ending, kind = .extract (settings.variableStem ++ ending) := by
  cases initialized : path.initialized? with
  | some v =>
    cases selected : GuardVariant.select? v.ty parent.ty with
    | some variant =>
      simp only [fixFor?, initialized, selected] at found
      cases found
      exact .inl ⟨v, variant, rfl, rfl, rfl, selected, rfl⟩
    | none =>
      simp only [fixFor?, initialized, selected] at found
      cases found
  | none =>
    simp only [fixFor?, initialized] at found
    refine .inr ⟨rfl, ?_⟩
    by_cases isFile : construction.ty.isFile = true
    · rw [if_pos isFile] at found
      cases found
      exact ⟨rfl, rfl, _, rfl⟩
    · rw [if_neg isFile] at found
      by_cases isPath : construction.ty.isPath = true
      · rw [if_pos isPath] at found
        cases found
        exact ⟨rfl, rfl, _, rfl⟩
      · rw [if_neg isPath] at found
        cases found

theorem Guarding.notes {settings : PathSettings} {children : List NodeId}
    (covers : ∀ read : Expr, read.localName?.isSome → G.mark ≤ read.id → G.hidden read = true)
    (fits : ∀ e above anchor parent child next tainted directory kind, G.Stands (.expr e) above →
      (⟨.expr e :: above⟩ : Path).anchor? = some anchor →
      parentAndChild? env.matcher e = some (parent, child) →
      reachesSink env ⟨.expr e :: above⟩ e = true →
      (fixFor? settings ⟨.expr e :: above⟩ e parent next).1 = some (tainted, directory, kind) →
      G.FitsNear (.expr e :: above) ⟨anchor, tainted, directory, kind⟩) :
    G.Notes (Guarding.remedy env settings children) where
  enter n above stands := by
    refine keeps_of_expr fun e at_ => ?_
    subst at_
    split
    next parent child isConstruction =>
      intro hand
      refine path_holds.bind fun path => .assuming ?_
      rintro rfl
      split
      next asked =>
        have reaches := (Bool.and_eq_true_iff.mp asked).2
        refine VisitM.Triple.bind ?_ fun _ => pure_keeps _ hand
        unfold noteConstruction
        refine path_holds.bind fun path => .assuming ?_
        rintro rfl
        refine (fresh_holds (fixFor?_spends settings _ e parent)).bind fun answer => .assuming ?_
        rintro ⟨next, made⟩
        refine .naming fun extra => .assuming fun _ => .assuming fun _ => ?_
        refine VisitM.Triple.mono (?_ : VisitM.Triple (G.Holds _ hand) _ fun _ => G.Holds _ hand)
          (fun _ h => h.weaken (Multiset.le_add_left _ _)) fun _ _ h => h
        split
        next anchor tainted directory kind found =>
          have near := fits e above anchor parent child next tainted directory kind stands found
            isConstruction reaches made
          have notes : G.Keeps (.expr e :: above)
              (PassM.noteFix ⟨anchor, tainted, directory, kind⟩ : PassM Nat Bool) := by
            rcases Guarding.fixFor?_cases made with ⟨v, variant, -, -, -, -, rfl⟩ |
              ⟨-, rfl, -, ending, rfl⟩
            · exact (stands.near found near).note_plain FixTag.noConfusion FixTag.noConfusion rfl
            · exact stands.note_extract found near covers
          refine bind_keeps notes (fun noted => ?_) hand
          split
          · exact modifyOwn_keeps _
          · exact pure_keeps _
        next => exact pure_keeps _ hand
      next => exact VisitM.Triple.bind (pure_keeps _ hand) fun _ => pure_keeps _ hand
    next => exact bind_keeps (pure_keeps _) fun _ => pure_keeps _
  leave _ _ _ := pure_keeps _

/-! ## The whole -/

section

variable {σ : Type}

/-- What a visit apart that makes something good makes of a body consists of the body and of
new nodes. -/
theorem runApart_makes {remedy : Remedy σ} {own last : σ} {block out : Block} {above : List Node}
    {site site' : Site Note Unit} {imports : ImportRequests} {good : Node → Prop}
    (makes : G.Makes (.block block :: above) (.block block)
      (fun node => G.Became above (.block block) node ∧ good node)
      ((remedy.visitor env).run (.block block)))
    (tree : (Node.block block).parts (fun _ => false) = G.tree) (mark : site.next = G.mark)
    (ran : runApart env remedy own ⟨.block block :: above⟩ block site =
      .ok (out, imports, last) site') :
    site' = { site with next := site'.next } ∧
      (∃ new, Drawn site.next site'.next new ∧
        (Node.block out).parts G.hidden ≤ (Node.block block).parts (fun _ => false) + new) ∧
      G.Became above (.block block) (.block out) ∧ good (.block out) := by
  obtain ⟨⟨node, cursor, own'⟩, between, apart, done⟩ := VisitM.ok_of_bind ran
  unfold PassM.apart at apart
  split at apart
  next node inner inside =>
    cases apart
    cases done
    have start : G.Holds (.block block :: above) ((Node.block block).parts G.hidden + 0)
        { cursor := .ofPath ⟨.block block :: above⟩, next := site.next, own : Site Note σ } := by
      refine .ofPath (Nat.le_of_eq mark.symm) ?_
      rw [add_zero, ← tree]
      exact Node.parts_anti (fun _ none => (Bool.false_ne_true none).elim) _
    obtain ⟨⟨became, isGood⟩, holds⟩ := makes 0 start inside
    have sort := became.sort
    cases node with
    | block out =>
      obtain ⟨new, drawn, owned⟩ := holds.owns
      rw [← mark] at drawn
      rw [← tree] at owned
      refine ⟨rfl, ⟨new, drawn, le_trans ?_ owned⟩, became, isGood⟩
      rw [add_zero]
      exact Multiset.le_add_right _ _
    | _ => cases sort
  next => cases apart

variable (standard : env.splicer = .standard)
include standard

/-- What a visit apart makes of a body consists of the body and of new nodes. -/
theorem ok_of_runApart {remedy : Remedy σ} {own last : σ} {block out : Block} {above : List Node}
    {site site' : Site Note Unit} {imports : ImportRequests}
    (genuine : Path.GenuineList (.block block :: above))
    (body : Path.startsWithBody (.block block :: above) = true)
    (tree : (Node.block block).parts (fun _ => false) = G.tree) (mark : site.next = G.mark)
    (lawful : G.Lawful) (notes : G.Notes remedy)
    (ran : runApart env remedy own ⟨.block block :: above⟩ block site =
      .ok (out, imports, last) site') :
    site' = { site with next := site'.next } ∧
      (∃ new, Drawn site.next site'.next new ∧
        (Node.block out).parts G.hidden ≤ (Node.block block).parts (fun _ => false) + new) ∧
      (out = block ∨ site.next ≤ out.id) ∧ out.isStatic = block.isStatic ∧
      G.became above (.block block) (.block out) := by
  have makes : G.Makes (.block block :: above) (.block block)
      (fun node => G.Became above (.block block) node ∧ True)
      ((remedy.visitor env).run (.block block)) :=
    fun rest => (run_mends lawful (visitor_mends lawful notes standard) _ _
      (stands_body tree genuine body) rest).mono (fun _ h => h) fun _ _ done =>
        ⟨⟨done.1, trivial⟩, done.2⟩
  obtain ⟨same, made, became, -⟩ := runApart_makes makes tree mark ran
  exact ⟨same, made, became.new.imp Node.block.inj (mark.trans_le ·),
    Node.Label.block.inj (became.block rfl), became.became⟩

end

/-- A body comes back, or texts were split in it by one visit and what this left was changed by
another one, below the ancestors rebuilt around it. -/
theorem ok_of_guardPaths {settings : PathSettings} {block out : Block} {above : List Node}
    {site site' : Site Note Unit} (path : site.cursor.path = ⟨.block block :: above⟩)
    (ran : guardPaths env settings block site = .ok out site') :
    out = block ∨ ∃ split fileImports between rebuilt used children guardImports count after,
      runApart env
          (Normalize.remedy env (reached env settings ⟨.block block :: above⟩ fun _ => true)) ()
          ⟨.block block :: above⟩ block site = .ok (split, fileImports, ()) between ∧
        (⟨.block block :: above⟩ : Path).onBlock split between.next = (rebuilt, used) ∧
        runApart env (Guarding.remedy env settings children) 0 rebuilt split
          { between with next := used } = .ok (out, guardImports, count) after ∧
        out.same split = false := by
  unfold guardPaths at ran
  obtain ⟨here, start, asked, ran⟩ := VisitM.ok_of_bind ran
  cases asked
  rw [path] at ran
  dsimp only at ran
  split at ran
  · cases ran
    exact .inl rfl
  obtain ⟨⟨split_, fileImports, ⟨⟩⟩, between, ran₁, ran⟩ := VisitM.ok_of_bind ran
  obtain ⟨rebuilt, used, onBlock⟩ : ∃ rebuilt used,
      (⟨.block block :: above⟩ : Path).onBlock split_ between.next = (rebuilt, used) := ⟨_, _, rfl⟩
  obtain ⟨around, replaced, ran₂, ran⟩ := VisitM.ok_of_bind ran
  unfold VisitM.fresh at ran₂
  rw [onBlock] at ran₂
  cases ran₂
  dsimp only at ran
  split at ran
  · cases ran
    exact .inl rfl
  obtain ⟨⟨guarded, guardImports, count⟩, after, ran₃, ran⟩ := VisitM.ok_of_bind ran
  dsimp only at ran
  split at ran
  · cases ran
    exact .inl rfl
  next changed =>
    obtain ⟨⟨⟩, site₄, -, ran⟩ := VisitM.ok_of_bind ran
    obtain ⟨⟨⟩, site₅, -, ran⟩ := VisitM.ok_of_bind ran
    cases ran
    refine .inr ⟨split_, fileImports, between, rebuilt, used, _, guardImports, count, after, ran₁,
      onBlock, ran₃, ?_⟩
    rw [Bool.or_eq_true, not_or] at changed
    exact Bool.eq_false_iff.mpr changed.2

/-- What is made of a body that is at hand, and of new nodes, becomes part of the visit. -/
theorem holds_of_body {hidden : Expr → Bool} {block out : Block} {above : List Node}
    {rest new : Multiset Node} {site site' : Site Note Unit} (lawful : G.Lawful)
    (hides : G.hidden = newRead G.mark) (stands : G.Stands (.block block) above)
    (holds : G.Holds (.block block :: above) ((Node.block block).parts G.hidden + rest) site)
    (same : site' = { site with next := site'.next }) (drawn : Drawn site.next site'.next new)
    (hides_all : ∀ e, hidden e = true → G.hidden e = true)
    (made : (Node.block out).parts hidden ≤ (Node.block block).parts (fun _ => false) + new) :
    G.Holds (.block block :: above) ((Node.block out).parts G.hidden + rest) site' := by
  have old : (Node.block block).parts G.hidden = (Node.block block).parts fun _ => false := by
    rw [hides]
    exact Node.parts_newRead fun m mem => lawful.id_lt stands mem
  rw [same]
  refine holds.spend drawn ?_
  calc (Node.block out).parts G.hidden + rest
      ≤ (Node.block out).parts hidden + rest := by
        gcongr
        exact Node.parts_anti hides_all _
    _ ≤ (Node.block block).parts (fun _ => false) + new + rest := by gcongr
    _ = (Node.block block).parts G.hidden + rest + new := by
        rw [old]
        abel

/-- The nearest body around the end of a path is one of its nodes. -/
theorem outerBody?_go_lt {nodes : List Node} {index : Nat} {body : Block}
    (found : Path.outerBody?.go nodes = some (index, body)) : index < nodes.length := by
  induction nodes with
  | nil => cases found
  | cons n above ih =>
    rcases Path.outerBody?_go_cons n above with ⟨-, body', -, here⟩ | ⟨-, further⟩
    · rw [here] at found
      cases found
      exact Nat.lt_succ_self _
    · rw [further] at found
      exact Nat.lt_succ_of_lt (ih found)

theorem startsWithBody_of_endsAtBody {n : Node} {above : List Node}
    (body : (⟨n :: above⟩ : Path).endsAtBody = true) : Path.startsWithBody (n :: above) = true := by
  unfold Path.endsAtBody Path.outerBody? at body
  rcases Path.outerBody?_go_cons n above with ⟨starts, -⟩ | ⟨-, further⟩
  · exact starts
  · rw [further] at body
    cases found : Path.outerBody?.go above with
    | none =>
      rw [found] at body
      cases body
    | some p =>
      rw [found] at body
      have last : p.1 + 1 = above.length + 1 := eq_of_beq body
      exact (Nat.ne_of_lt (outerBody?_go_lt found) (Nat.succ.inj last)).elim

/-- What the visits of a body keep to: `C` of the body where paths are completed, `N` where
texts are split, and `K` where paths are guarded. The visit around them, which keeps to `G`,
accepts what they make of the body. -/
structure Treats (G : Regime) (C : Block → Regime) (K N : Regime) (env : PassEnv)
    (settings : PathSettings) : Prop where
  lawful_complete : ∀ block mark, Drawn 0 mark ((Node.block block).parts fun _ => false) →
    ((C block).within (fun _ => false) ((Node.block block).parts fun _ => false) mark).Lawful
  lawful_split : ∀ hidden tree mark, Drawn 0 mark tree → (N.within hidden tree mark).Lawful
  lawful : ∀ hidden tree mark, Drawn 0 mark tree → (K.within hidden tree mark).Lawful
  completes : ∀ block mark, Drawn 0 mark ((Node.block block).parts fun _ => false) →
    ((C block).within (fun _ => false) ((Node.block block).parts fun _ => false) mark).Notes
      (PartialPath.remedy env)
  splits : ∀ tree mark userInput,
    (N.within (fun _ => false) tree mark).Notes (Normalize.remedy env userInput)
  guards : ∀ tree mark children, Drawn 0 mark tree →
    (K.within (newRead mark) tree mark).Notes (Guarding.remedy env settings children)
  completed : ∀ block above out, Path.startsWithBody (.block block :: above) = true →
    (C block).became above (.block block) (.block out) → G.became above (.block block) (.block out)
  guarded : ∀ block above above' split out, Path.startsWithBody (.block block :: above) = true →
    above'.map Node.label = above.map Node.label → N.became above (.block block) (.block split) →
    K.became above' (.block split) (.block out) → G.became above (.block block) (.block out)

section

variable {C : Block → Regime} {K N : Regime} {settings : PathSettings} {block : Block}
  {above : List Node} (standard : env.splicer = .standard) (lawful : G.Lawful)
  (treats : Treats G C K N env settings)
  (hides : G.hidden = newRead G.mark)
include standard lawful treats hides

theorem completeBody_makes (stands : G.Stands (.block block) above)
    (body : Path.startsWithBody (.block block :: above) = true) (rest : Multiset Node) :
    VisitM.Triple (G.Holds (.block block :: above) ((Node.block block).parts G.hidden + rest))
      (completeBody env block) fun out site => G.Became above (.block block) (.block out) ∧
        G.Holds (.block block :: above) ((Node.block out).parts G.hidden + rest) site := by
  unfold completeBody
  refine path_holds.bind fun path => .assuming ?_
  rintro rfl
  intro site out site' holds ran
  obtain ⟨⟨completed, imports, last⟩, between, ran, done⟩ := VisitM.ok_of_bind ran
  have drawn := (lawful.drawn.of_le stands.parts).mono (Nat.le_refl 0) holds.owns.le
  obtain ⟨same, ⟨new, fresh, made⟩, new_id, isStatic, became⟩ := ok_of_runApart standard
    stands.genuine body rfl rfl (treats.lawful_complete _ _ drawn) (treats.completes _ _ drawn) ran
  have completes : G.Became above (.block block) (.block completed) :=
    .ofBlock (new_id.imp_right (Nat.le_trans holds.owns.le)) isStatic
      (treats.completed _ _ _ body became)
  have treated := holds_of_body lawful hides stands holds same fresh
    (fun _ none => (Bool.false_ne_true none).elim) made
  dsimp only at done
  split at done
  · cases done
    exact ⟨completes, treated⟩
  · obtain ⟨⟨⟩, asked, requested, done⟩ := VisitM.ok_of_bind done
    cases done
    exact ⟨completes, requestImports_keeps _ _ treated requested⟩

theorem guardPaths_makes (stands : G.Stands (.block block) above)
    (body : Path.startsWithBody (.block block :: above) = true) (rest : Multiset Node) :
    VisitM.Triple (G.Holds (.block block :: above) ((Node.block block).parts G.hidden + rest))
      (guardPaths env settings block) fun out site => G.Became above (.block block) (.block out) ∧
        G.Holds (.block block :: above) ((Node.block out).parts G.hidden + rest) site := by
  -- Wherever nothing comes of it, the body is still at hand.
  have kept : VisitM.Triple
      (G.Holds (.block block :: above) ((Node.block block).parts G.hidden + rest))
      (pure block : PassM Unit Block) fun out site => G.Became above (.block block) (.block out) ∧
        G.Holds (.block block :: above) ((Node.block out).parts G.hidden + rest) site :=
    .pure fun site h => ⟨lawful.became _ _, h⟩
  unfold guardPaths
  refine path_holds.bind fun path => .assuming ?_
  rintro rfl
  dsimp only
  split
  · exact kept
  intro site out site' holds ran
  obtain ⟨⟨split_, imports, last⟩, site₁, ran₁, ran⟩ := VisitM.ok_of_bind ran
  have drawn := (lawful.drawn.of_le stands.parts).mono (Nat.le_refl 0) holds.owns.le
  obtain ⟨same₁, ⟨new₁, fresh₁, made₁⟩, -, isStatic₁, became₁⟩ := ok_of_runApart standard
    stands.genuine body rfl rfl (treats.lawful_split _ _ _ drawn) (treats.splits _ _ _) ran₁
  have fit : Node.SameSort (.block block) (.block split_) := rfl
  obtain ⟨above', used, rebuilds, rebuilt⟩ := Path.replacing_end stands.genuine fit site₁.next
  have onBlock : (⟨.block block :: above⟩ : Path).onBlock split_ site₁.next =
      (⟨.block split_ :: above'⟩, used) := by
    unfold Path.onBlock Path.length
    exact rebuilds
  obtain ⟨path, site₂, ran₂, ran⟩ := VisitM.ok_of_bind ran
  have grows : site₁.next ≤ used := (Path.replacing_grows _ _ _).le onBlock
  unfold VisitM.fresh at ran₂
  rw [onBlock] at ran₂
  cases ran₂
  -- So far only ids have been used up.
  have still : G.Holds (.block block :: above) ((Node.block block).parts G.hidden + rest)
      { site₁ with next := used } := by
    rw [same₁]
    exact holds.of_waiting rfl (Nat.le_trans fresh₁.le grows) le_rfl
  dsimp only at ran
  split at ran
  · exact kept still ran
  obtain ⟨⟨guarded, guardImports, count⟩, site₃, ran₃, ran⟩ := VisitM.ok_of_bind ran
  have drawn₁ := ((drawn.add fresh₁).of_le made₁).mono (Nat.le_refl 0) grows
  have body₁ : Path.startsWithBody (.block split_ :: above') = true := by
    rw [Path.startsWithBody_eq] at body ⊢
    simpa only [List.map_cons, rebuilt.labels, Node.label, isStatic₁] using body
  obtain ⟨same₃, ⟨new₃, fresh₃, made₃⟩, new_id, isStatic₃, became₃⟩ := ok_of_runApart standard
    rebuilt.genuine body₁ rfl rfl (treats.lawful _ _ _ drawn₁) (treats.guards _ _ _ drawn₁) ran₃
  have from_ : G.mark ≤ used := Nat.le_trans holds.owns.le (Nat.le_trans fresh₁.le grows)
  dsimp only at ran
  split at ran
  · exact kept (same₃ ▸ still.of_waiting rfl fresh₃.le le_rfl) ran
  next changed =>
    have differs : guarded ≠ split_ := by
      rintro rfl
      refine changed (Bool.or_eq_true_iff.mpr (.inr ?_))
      exact beq_self_eq_true guarded.id
    have becomes : G.Became above (.block block) (.block guarded) :=
      .ofBlock (.inr (Nat.le_trans from_ (new_id.resolve_left differs)))
        (isStatic₃.trans isStatic₁) (treats.guarded _ _ above' split_ guarded body rebuilt.labels became₁ became₃)
    have treated : G.Holds (.block block :: above) ((Node.block guarded).parts G.hidden + rest)
        site₃ := by
      refine holds_of_body lawful hides stands holds ?_
        ((fresh₁.mono (Nat.le_refl _) grows).add fresh₃) (newRead_of_le hides from_) ?_
      · rw [same₃, same₁]
      · rw [← add_assoc]
        exact le_trans made₃ (add_le_add made₁ le_rfl)
    obtain ⟨⟨⟩, site₄, ran₄, ran⟩ := VisitM.ok_of_bind ran
    obtain ⟨⟨⟩, site₅, ran₅, ran⟩ := VisitM.ok_of_bind ran
    cases ran
    exact ⟨becomes, requestImports_keeps _ _ (requestImports_keeps _ _ treated ran₄) ran₅⟩

theorem treatBody_makes (stands : G.Stands (.block block) above)
    (body : Path.startsWithBody (.block block :: above) = true) {descend : PassM Unit Node}
    (walks : G.Makes (.block block :: above) (.block block) (G.Walked above (.block block)) descend) :
    G.Makes (.block block :: above) (.block block) (G.Became above (.block block))
      (treatBody env settings block descend) := by
  intro rest
  have old : (Node.block block).id < G.mark := lawful.id_lt stands Node.mem_subtree_self
  have treated : ∀ completed : Block, VisitM.Triple (fun site =>
      G.Became above (.block block) (.block completed) ∧
        G.Holds (.block block :: above) ((Node.block completed).parts G.hidden + rest) site)
      (do
        if !completed.same block then return .block completed
        let walked ← descend
        if walked.same (.block block) then return .block (← guardPaths env settings block)
        else return walked : PassM Unit Node)
      fun out site => G.Became above (.block block) out ∧
        G.Holds (.block block :: above) (out.parts G.hidden + rest) site := by
    intro completed
    refine .assuming fun became => ?_
    split
    · exact .pure fun _ h => ⟨became, h⟩
    next unchanged =>
      have back : Node.block completed = .block block := by
        refine became.eq_of_same old (?_ : completed.same block = true)
        simpa using unchanged
      rw [back]
      refine (walks rest).bind fun walked => .assuming fun made => ?_
      split
      next same =>
        rw [made.became.eq_of_same old same]
        refine (guardPaths_makes standard lawful treats hides stands body rest).bind fun out => ?_
        exact .pure fun _ done => done
      · exact .pure fun _ h => ⟨made.became, h⟩
  unfold treatBody
  split
  · exact (completeBody_makes standard lawful treats hides stands body rest).bind treated
  · exact VisitM.Triple.mono (treated block) (fun _ h => ⟨lawful.became _ _, h⟩) fun _ _ h => h

/-- The visitor that treats every body keeps to the regime, if the visits apart do. -/
theorem visitor_mends : G.Mends (visitor env settings) := by
  intro n above descend stands walks rest
  have descends : VisitM.Triple (G.Holds (n :: above) (n.parts G.hidden + rest)) descend
      fun out site => G.Became above n out ∧ G.Holds (n :: above) (out.parts G.hidden + rest) site :=
    (walks rest).mono (fun _ h => h) fun _ _ done => ⟨done.1.became, done.2⟩
  unfold visitor
  dsimp only
  split
  next block =>
    refine path_holds.bind fun path => .assuming ?_
    rintro rfl
    split
    next body =>
      exact treatBody_makes standard lawful treats hides stands (startsWithBody_of_endsAtBody body)
        walks rest
    · exact descends
  · exact descends

end

end PathTraversal

end JavaMend
