import JavaMend.Proofs.Engine.Quiet
import JavaMend.Proofs.Engine.Builtin
import JavaMend.Proofs.Match.Grammar
import JavaMend.Proofs.Traversal.Triple
import JavaMend.Proofs.Tree.Places
import Mathlib.Data.Option.Basic

/-!
# Nothing to remedy

Each remedy acts on calls of some sort and on nothing else. In a tree that lacks
them it notes no fix, and a visit that applies no fix hands every node back as the
node it was: `settle` rebuilds nothing if the children are the children they were.

The argument is one for all remedies. `Site.Calm` says that no node on the cursor
holds a call of the sort and that no fix is noted; a visitor that stays calm and
keeps a node whenever the descent below the node does (`Visitor.Keeps`) returns the
tree it was given (`Visitor.run_keeps`). What is left for each remedy is that its
hooks stay calm.
-/

namespace JavaMend

/-! ## Trees without expressions of a sort -/

namespace Node

/-- The expressions of a tree, those of all methods and classes in it included. -/
def allExprs (n : Node) : List Expr := n.subtree.filterMap expr?

/-- No expression of the tree is of a sort. -/
def Lacks (n : Node) (isSort : Expr → Bool) : Prop := ∀ e ∈ n.allExprs, isSort e = false

variable {n c : Node} {isSort : Expr → Bool}

theorem mem_allExprs_of_child (mem : c ∈ n.children) {e : Expr} (below : e ∈ c.allExprs) :
    e ∈ n.allExprs := by
  obtain ⟨m, hm, found⟩ := List.mem_filterMap.mp below
  exact List.mem_filterMap.mpr ⟨m, mem_subtree_of_child mem hm, found⟩

theorem mem_allExprs_self (e : Expr) : e ∈ (Node.expr e).allExprs :=
  List.mem_filterMap.mpr ⟨.expr e, mem_subtree_self, rfl⟩

theorem Lacks.child (h : n.Lacks isSort) (mem : c ∈ n.children) : c.Lacks isSort :=
  fun e below => h e (mem_allExprs_of_child mem below)

theorem Lacks.self {e : Expr} (h : (Node.expr e).Lacks isSort) : isSort e = false :=
  h e (mem_allExprs_self e)

/-- A sort that is part of a larger one is lacking where the larger one is. -/
theorem Lacks.mono {isLarger : Expr → Bool} (h : n.Lacks isLarger)
    (part : ∀ e, isSort e = true → isLarger e = true) : n.Lacks isSort := by
  intro e mem
  by_contra present
  have larger := part e (Bool.not_eq_false _ ▸ present)
  rw [h e mem] at larger
  cases larger

theorem Lacks.unparen {e : Expr} (h : (Node.expr e).Lacks isSort) : isSort e.unparen = false := by
  fun_induction Expr.unparen e with
  | case1 id ty inner ih => exact ih (h.child List.mem_cons_self)
  | case2 e plain => exact h.self

/-- Looking at the expressions below a node without entering nested scopes meets
only expressions of the tree. -/
theorem Lacks.exprsBelow (h : n.Lacks isSort) : ∀ e ∈ n.exprsBelow, isSort e = false := by
  induction n using Node.inductionOn with
  | step n ih =>
    intro e mem
    rw [Node.exprsBelow] at mem
    obtain ⟨⟨c, hc⟩, -, mem⟩ := List.mem_flatMap.mp mem
    dsimp only at mem
    split at mem
    · cases mem
    · rcases List.mem_append.mp mem with here | below
      · cases c with
        | expr sub =>
          cases List.mem_singleton.mp here
          exact (h.child hc).self
        | _ => cases here
      · exact ih c hc (h.child hc) e below

theorem Lacks.exprs (h : n.Lacks isSort) : ∀ e ∈ n.exprs, isSort e = false := by
  intro e mem
  rcases List.mem_append.mp mem with here | below
  · cases n with
    | expr sub =>
      cases List.mem_singleton.mp here
      exact h.self
    | _ => cases here
  · exact h.exprsBelow e below

theorem Lacks.exprPathsBelow (h : n.Lacks isSort) (above : List Node) :
    ∀ p ∈ n.exprPathsBelow above, ∀ e, p.expr? = some e → isSort e = false := by
  induction n using Node.inductionOn generalizing above with
  | step n ih =>
    intro p mem e found
    rw [Node.exprPathsBelow] at mem
    obtain ⟨⟨c, hc⟩, -, mem⟩ := List.mem_flatMap.mp mem
    dsimp only at mem
    split at mem
    · cases mem
    · rcases List.mem_append.mp mem with here | below
      · obtain ⟨sub, -, rfl⟩ := List.mem_map.mp here
        cases c with
        | expr sub =>
          cases found
          exact (h.child hc).self
        | _ => cases found
      · exact ih c hc (h.child hc) (n :: above) p below e found

end Node

/-! ## Calm visits -/

/-- The node of the frame holds nothing of the sort, and no fix is noted on it. -/
structure Frame.Calm (isSort : Expr → Bool) (f : Frame Note) : Prop where
  lacks : f.node.Lacks isSort
  noFixes : f.read? Note.fixTopic = none

/-- Every frame of the cursor is calm, and the visitor's own state is `own`. -/
structure Site.Calm {σ : Type} (isSort : Expr → Bool) (own : σ) (site : Site Note σ) : Prop where
  frames : ∀ f ∈ site.cursor.frames, f.Calm isSort
  own : site.own = own

/-- A visit that starts calm ends calm. -/
abbrev PassM.Calms {σ α : Type} (isSort : Expr → Bool) (own : σ) (action : PassM σ α) : Prop :=
  VisitM.Triple (Site.Calm isSort own) action fun _ => Site.Calm isSort own

/-- A visit that starts calm ends calm and answers the node itself. -/
abbrev PassM.Returns {σ : Type} (isSort : Expr → Bool) (own : σ) (n : Node) (action : PassM σ Node) :
    Prop :=
  VisitM.Triple (Site.Calm isSort own) action fun out site => out = n ∧ Site.Calm isSort own site

/-- In trees that lack a sort, the visitor keeps a node whenever the descent below
it does. -/
def Visitor.Keeps {σ : Type} (isSort : Expr → Bool) (own : σ) (v : Visitor EngineError Note σ) :
    Prop :=
  ∀ n descend, n.Lacks isSort → PassM.Returns isSort own n descend →
    PassM.Returns isSort own n (v.visit n descend)

section

variable {σ : Type} {isSort : Expr → Bool} {own : σ}

theorem Site.Calm.push {site : Site Note σ} (h : site.Calm isSort own) {n : Node}
    (lacks : n.Lacks isSort) : Site.Calm isSort own { site with cursor := site.cursor.push n } where
  frames f hf := by
    rcases List.mem_cons.mp hf with rfl | hf
    · exact ⟨lacks, rfl⟩
    · exact h.frames f hf
  own := h.own

theorem Site.Calm.pop {site : Site Note σ} (h : site.Calm isSort own) :
    Site.Calm isSort own { site with cursor := site.cursor.pop } where
  frames f hf := h.frames f (List.mem_of_mem_tail hf)
  own := h.own

/-- The current node of a calm site holds nothing of the sort. -/
theorem Site.Calm.path {site : Site Note σ} (h : site.Calm isSort own) {n : Node}
    {above : List Node} (ends : site.cursor.path.outward = n :: above) : n.Lacks isSort := by
  have here : n ∈ site.cursor.frames.map (·.node) := by
    show n ∈ site.cursor.path.outward
    rw [ends]
    exact List.mem_cons_self
  obtain ⟨f, hf, rfl⟩ := List.mem_map.mp here
  exact (h.frames f hf).lacks

theorem Visitor.settle_children (n : Node) : PassM.Returns isSort own n (settle n n.children) := by
  rw [settle_self]
  exact .pure fun _ calm => ⟨rfl, calm⟩

/-- A visitor that keeps each node, given the descent, returns the tree. -/
theorem Visitor.run_keeps {v : Visitor EngineError Note σ} (h : v.Keeps isSort own) (n : Node)
    (lacks : n.Lacks isSort) : PassM.Returns isSort own n (v.run n) := by
  have below : ∀ c : { c // c ∈ n.children },
      PassM.Returns isSort own c.1 (VisitM.inFrame c.1 (v.run c.1)) := by
    rintro ⟨c, hc⟩
    exact .inFrame (run_keeps h c (lacks.child hc)) (fun _ calm => calm.push (lacks.child hc))
      fun _ _ done => ⟨done.1, done.2.pop⟩
  rw [run]
  refine h n _ lacks ?_
  -- After some children, what they became is the children themselves.
  have children : VisitM.Triple (Site.Calm isSort own)
      (n.children.attach.mapM fun c => VisitM.inFrame c.1 (v.run c.1))
      fun outs site => outs = n.children ∧ Site.Calm isSort own site := by
    refine VisitM.Triple.mono (VisitM.Triple.mapM
      (fun done outs site => outs = done.map Subtype.val ∧ Site.Calm isSort own site)
      fun done c rest outs split => ?_) (fun _ calm => ⟨rfl, calm⟩) fun outs site done => ?_
    · refine VisitM.Triple.assuming fun before => (below c).mono (fun _ calm => calm) ?_
      rintro out site ⟨rfl, calm⟩
      exact ⟨by rw [before, List.map_append]; rfl, calm⟩
    · exact ⟨done.1.trans (List.attach_map_subtype_val _), done.2⟩
  refine children.bind fun outs => VisitM.Triple.assuming ?_
  rintro rfl
  exact settle_children n
termination_by sizeOf n
decreasing_by exact Node.sizeOf_lt_of_mem_children hc

/-- The pass of a visitor that keeps every node answers the unit it was given. -/
theorem Visitor.pass_keeps {v : Visitor EngineError Note σ} (h : v.Keeps isSort own)
    {unit : CompilationUnit} (lacks : (Node.unit unit).Lacks isSort) {next used : NodeId}
    {out : PassResult} (ran : v.pass own unit next = (.ok out, used)) : out.unit = unit := by
  have start : Site.Calm isSort own
      { cursor := .ofRoot (.unit unit), next, own : Site Note σ } := by
    refine ⟨fun f hf => ?_, rfl⟩
    cases List.mem_singleton.mp hf
    exact ⟨lacks, rfl⟩
  unfold Visitor.pass Visitor.runTree at ran
  split at ran
  next => cases ran
  next node site ended =>
    obtain ⟨rfl, -⟩ := run_keeps h _ lacks start ended
    simp only [↓reduceIte] at ran
    cases ran
    rfl

end

/-! ## Remedies -/

/-- In trees that lack a sort, both hooks of a remedy stay calm. -/
structure Remedy.Calms {σ : Type} (isSort : Expr → Bool) (own : σ) (remedy : Remedy σ) : Prop where
  enter : ∀ n, n.Lacks isSort → PassM.Calms isSort own (remedy.enter n)
  leave : ∀ block, (Node.block block).Lacks isSort → PassM.Calms isSort own (remedy.leave block)

section

variable {σ : Type} {isSort : Expr → Bool} {own : σ} {env : PassEnv}

/-- Without fixes on the current frame, repairing answers the block it is given. -/
theorem repair_calm (splicer : Splicer) (before after : Block) :
    VisitM.Triple (Site.Calm isSort own) (repair splicer before after)
      fun out site => out = after ∧ Site.Calm isSort own site := by
  have taken : VisitM.Triple (Site.Calm isSort own)
      (VisitM.modifyCursor (·.take Note.fixTopic) : PassM σ _)
      fun pending site => pending = none ∧ Site.Calm isSort own site := by
    refine .modifyCursor fun site calm => ?_
    constructor
    · unfold Cursor.take Cursor.takeAt Cursor.atFrame
      split
      next => rfl
      next f found =>
        simp only [Frame.take, (calm.frames f (Cursor.mem_of_frame? found)).noFixes]
    · refine ⟨Cursor.forall_atFrame calm.frames fun f calm => ?_, calm.own⟩
      simp only [Frame.take, calm.noFixes]
      exact calm
  unfold repair
  refine taken.bind fun pending => VisitM.Triple.assuming ?_
  rintro rfl
  exact .pure fun _ calm => ⟨rfl, calm⟩

theorem Remedy.Calms.visitor {remedy : Remedy σ} (h : remedy.Calms isSort own) :
    (remedy.visitor env).Keeps isSort own := by
  intro n descend lacks kept
  refine (h.enter n lacks).bind fun goOn => ?_
  split
  · refine kept.bind fun walked => VisitM.Triple.assuming ?_
    rintro rfl
    cases walked with
    | block before =>
      refine (h.leave before lacks).bind fun _ => (repair_calm _ _ _).bind fun out => ?_
      refine VisitM.Triple.assuming ?_
      rintro rfl
      exact .pure fun _ calm => ⟨rfl, calm⟩
    | _ => exact .pure fun _ calm => ⟨rfl, calm⟩
  · exact .pure fun _ calm => ⟨rfl, calm⟩

end

/-- Reading the path changes nothing. -/
theorem PassM.calms_path {σ : Type} {isSort : Expr → Bool} {own : σ} :
    PassM.Calms isSort own (VisitM.path : PassM σ Path) :=
  .path fun _ calm => calm

theorem Cookie.remedy_calms (env : PassEnv) :
    (Cookie.remedy env).Calms (env.matcher.acceptsAny · creation) [] where
  enter n lacks := by
    cases n with
    | expr e =>
      have plain := lacks.self
      have unclaimed : VisitM.Triple (Site.Calm (env.matcher.acceptsAny · creation) [])
          (VisitM.own : PassM State State) fun own site =>
            own = [] ∧ Site.Calm (env.matcher.acceptsAny · creation) [] site :=
        .own fun _ calm => ⟨calm.own, calm⟩
      refine unclaimed.bind fun own => VisitM.Triple.assuming ?_
      rintro rfl
      simp only [List.contains_nil, Bool.false_eq_true, ↓reduceIte, plain]
      exact .pure fun _ calm => calm
    | _ => exact .pure fun _ calm => calm
  leave _ _ := .pure fun _ calm => calm

theorem Random.remedy_calms (env : PassEnv) :
    (Random.remedy env).Calms (isInsecure env.matcher) () where
  enter n lacks := by
    cases n with
    | expr e =>
      simp only [remedy, lacks.self, Bool.false_eq_true, ↓reduceIte]
      exact .pure fun _ calm => calm
    | _ => exact .pure fun _ calm => calm
  leave _ _ := .pure fun _ calm => calm

theorem Seed.remedy_calms (env : PassEnv) :
    (Seed.remedy env).Calms (env.matcher.acceptsAny · setSeed) () where
  enter n lacks := by
    cases n with
    | stmt stmt =>
      have fine : weakSeeding? env.matcher stmt = none := by
        obtain ⟨id, form⟩ := stmt
        cases form with
        | expr call =>
          have plain := (lacks.child (c := .expr call) List.mem_cons_self).self
          simp [weakSeeding?, Stmt.expression?, plain]
        | _ => rfl
      simp only [remedy, fine]
      exact PassM.calms_path.bind fun _ => .pure fun _ calm => calm
    | _ => exact .pure fun _ calm => calm
  leave _ _ := .pure fun _ calm => calm

/-- A statement list whose statements lack creations declares no factory. -/
theorem Factory.declaredIn_of_lacks {matcher : CallMatcher} {creation : List Signature}
    {stmts : List Stmt}
    (lacks : ∀ s ∈ stmts, (Node.stmt s).Lacks (matcher.acceptsAny · creation)) :
    declaredIn matcher creation stmts = [] := by
  induction stmts with
  | nil => rfl
  | cons stmt following ih =>
    have own : ofDeclaration matcher creation stmt following = [] := by
      have here := lacks stmt List.mem_cons_self
      obtain ⟨id, form⟩ := stmt
      cases form with
      | declare decl =>
        refine List.filterMap_eq_nil_iff.mpr fun held mem => ?_
        cases found : held.init with
        | none => rfl
        | some init =>
          have var : Node.var held ∈ (Node.stmt ⟨id, .declare decl⟩).children :=
            List.mem_map_of_mem mem
          have value : Node.expr init ∈ (Node.var held).children := by
            simp [Node.children, found]
          have plain := ((here.child var).child value).unparen
          simp [plain]
      | _ => rfl
    rw [declaredIn, own, ih fun s mem => lacks s (List.mem_cons_of_mem _ mem)]
    rfl

/-- The statements of a block lack what the block lacks. -/
theorem Node.Lacks.stmts {block : Block} {isSort : Expr → Bool}
    (h : (Node.block block).Lacks isSort) : ∀ s ∈ block.stmts, (Node.stmt s).Lacks isSort :=
  fun _ mem => h.child (List.mem_map_of_mem mem)

theorem XmlInput.remedy_calms (env : PassEnv) (dtdsRequired : Bool) :
    (XmlInput.remedy env dtdsRequired).Calms (env.matcher.acceptsAny · creation) () where
  enter _ _ := .pure fun _ calm => calm
  leave block lacks := by
    simp only [remedy, Factory.declaredIn_of_lacks lacks.stmts]
    exact PassM.calms_path.bind fun _ => .pure fun _ calm => calm

theorem Transformer.remedy_calms (env : PassEnv) :
    (Transformer.remedy env).Calms (env.matcher.acceptsAny · creation) () where
  enter _ _ := .pure fun _ calm => calm
  leave block lacks := by
    simp only [remedy, Factory.declaredIn_of_lacks lacks.stmts]
    exact PassM.calms_path.bind fun _ => .pure fun _ calm => calm

theorem DocumentBuilder.remedy_calms (env : PassEnv) (dtdsRequired : Bool) :
    (DocumentBuilder.remedy env dtdsRequired).Calms (env.matcher.acceptsAny · creation) () where
  enter _ _ := .pure fun _ calm => calm
  leave block lacks := by
    simp only [remedy, Factory.declaredIn_of_lacks lacks.stmts]
    exact PassM.calms_path.bind fun _ => .pure fun _ calm => calm

/-- Without a new temporary file among them, no statements make a directory of
one: no candidate ever comes up. -/
theorem TempDirectory.sites_of_lacks {matcher : CallMatcher} {block : Block}
    (lacks : (Node.block block).Lacks (matcher.acceptsAny · createTempFile)) :
    sites matcher block = [] := by
  have unbound : ∀ stmt ∈ block.stmts, binding? matcher stmt = none := by
    intro stmt mem
    have here := lacks.stmts stmt mem
    obtain ⟨id, form⟩ := stmt
    unfold binding?
    dsimp only
    split
    next modifiers typeName v =>
      cases found : v.init with
      | none => rfl
      | some init =>
        have value : Node.expr init ∈ (Node.var v).children := by
          simp [Node.children, found]
        have plain := ((here.child (c := .var v) List.mem_cons_self).child value).unparen
        simp [plain]
    next id ty target value =>
      have call := here.child (c := .expr ⟨id, ty, .assign none target value⟩) List.mem_cons_self
      have plain := (call.child (c := .expr value)
        (List.mem_cons_of_mem _ List.mem_cons_self)).unparen
      simp only [plain, Bool.false_and]
      rfl
    next => rfl
  have still : ∀ stmts : List Stmt, (∀ s ∈ stmts, binding? matcher s = none) →
      stmts.foldl (Progress.next matcher) ⟨[], []⟩ = ⟨[], []⟩ := by
    intro stmts
    induction stmts with
    | nil => intro _; rfl
    | cons stmt rest ih =>
      intro unbound
      have step : Progress.next matcher ⟨[], []⟩ stmt = ⟨[], []⟩ := by
        unfold Progress.next
        rw [unbound stmt List.mem_cons_self]
        split <;> simp_all [Progress.forget]
      rw [List.foldl_cons, step]
      exact ih fun s mem => unbound s (List.mem_cons_of_mem _ mem)
  unfold sites
  rw [still _ unbound]

theorem TempDirectory.calms_belowClass {σ : Type} {isSort : Expr → Bool} {own : σ} :
    PassM.Calms isSort own (belowClass : PassM σ Bool) :=
  PassM.calms_path.bind fun _ => .pure fun _ calm => calm

theorem TempDirectory.remedy_calms (env : PassEnv) :
    (TempDirectory.remedy env).Calms (env.matcher.acceptsAny · createTempFile) () where
  enter _ _ := .pure fun _ calm => calm
  leave block lacks := by
    simp only [remedy, sites_of_lacks lacks]
    refine calms_belowClass.bind fun below => ?_
    cases below <;> exact .pure fun _ calm => calm

theorem TempFile.remedy_calms (env : PassEnv) :
    (TempFile.remedy env).Calms (env.matcher.acceptsAny · TempDirectory.createTempFile) [] where
  enter n lacks := by
    cases n with
    | block block =>
      simp only [remedy, TempDirectory.sites_of_lacks lacks]
      refine TempDirectory.calms_belowClass.bind fun below => ?_
      cases below with
      | true => exact .pure fun _ calm => calm
      | false =>
        exact VisitM.Triple.bind (.modifyOwn fun _ calm => ⟨calm.frames, calm.own⟩)
          fun _ => .pure fun _ calm => calm
    | expr e =>
      have plain := lacks.self
      simp only [remedy, plain, Bool.false_and]
      exact VisitM.Triple.bind (.own fun _ calm => calm) fun _ => .pure fun _ calm => calm
    | _ => exact .pure fun _ calm => calm
  leave _ _ := .pure fun _ calm => calm

/-- The bodies of a class that lacks draws hold none. -/
theorem RandomString.drawsIn_of_lacks {matcher : CallMatcher} {path : Path} {body : Block}
    (lacks : (Node.block body).Lacks (matcher.acceptsAny · drawing))
    (around : ∀ n, path.value? = some n → n.Lacks (matcher.acceptsAny · drawing)) :
    drawsIn matcher path body = [] := by
  refine List.filter_eq_nil_iff.mpr fun e mem => ?_
  rw [Bool.not_eq_true]
  obtain ⟨n, hn, mem⟩ := List.mem_flatMap.mp mem
  suffices n.Lacks (matcher.acceptsAny · drawing) from this.exprs e mem
  rcases List.mem_append.mp hn with field | executed
  · obtain ⟨s, hs, rfl⟩ := List.mem_map.mp field
    exact lacks.stmts s (List.mem_filter.mp hs).1
  · obtain ⟨p, hp, ends⟩ := List.mem_filterMap.mp executed
    unfold Path.executedBodies at hp
    split at hp
    next block value =>
      obtain ⟨s, hs, hp⟩ := List.mem_flatMap.mp hp
      obtain ⟨c, hc, rfl⟩ := List.mem_map.mp hp
      cases ends
      exact ((around _ value).stmts s (List.mem_filter.mp hs).1).child hc
    next => cases hp

theorem RandomString.remedy_calms (env : PassEnv) :
    (RandomString.remedy env).Calms (env.matcher.acceptsAny · drawing) () where
  enter n lacks := by
    cases n with
    | expr e =>
      have plain := lacks.self
      simp only [remedy, plain, Bool.false_eq_true, ↓reduceIte]
      exact .pure fun _ calm => calm
    | _ => exact .pure fun _ calm => calm
  leave body lacks := by
    refine PassM.calms_path.bind fun path => ?_
    split
    · unfold addMembers
      split
      · exact .pure fun _ calm => calm
      · have noDraws : VisitM.Triple (Site.Calm (env.matcher.acceptsAny · drawing) ())
            (VisitM.path : PassM Unit Path) fun path site =>
              drawsIn env.matcher path body = [] ∧
                Site.Calm (env.matcher.acceptsAny · drawing) () site := by
          refine .path fun site calm => ⟨drawsIn_of_lacks lacks fun n value => ?_, calm⟩
          obtain ⟨above, ends⟩ := List.head?_eq_some_iff.mp value
          exact calm.path ends
        refine noDraws.bind fun path => VisitM.Triple.assuming fun none => ?_
        simp only [none]
        exact .pure fun _ calm => calm
    · exact .pure fun _ calm => calm

/-- A search only notes what it finds. -/
theorem Privileged.remedy_calms (env : PassEnv) (remediation : String) (isSort : Expr → Bool) :
    (Privileged.remedy env remediation).Calms isSort () where
  enter n _ := by
    unfold remedy
    dsimp only
    split
    · refine VisitM.Triple.bind (PassM.calms_path.bind fun _ => .modifyCursor ?_)
        fun _ => .pure fun _ calm => calm
      intro site calm
      refine ⟨Cursor.forall_atFrame calm.frames fun f calm => ⟨?_, ?_⟩, calm.own⟩
      · rw [Frame.node_modify]
        exact calm.lacks
      · rw [Frame.read?_modify_of_ne (by decide)]
        exact calm.noFixes
    · exact .pure fun _ calm => calm
  leave _ _ := .pure fun _ calm => calm

/-! ## Path traversal -/

namespace PathTraversal

variable {env : PassEnv} {settings : PathSettings}

/-- No source, nothing that it reaches. -/
theorem reached_of_lacks {body : Path} {n : Node} {above : List Node}
    (ends : body.outward = n :: above)
    (lacks : n.Lacks (env.matcher.acceptsAny · settings.userInput)) (isSort : Path → Bool) :
    reached env settings body isSort = [] := by
  unfold reached Path.exprPaths
  rw [ends]
  refine List.flatMap_eq_nil_iff.mpr fun p mem => ?_
  cases found : p.expr? with
  | none => rfl
  | some e =>
    have plain := lacks.exprPathsBelow above p mem e found
    simp only [plain, Bool.false_eq_true, ↓reduceIte]

theorem guardPaths_calm (block : Block) :
    VisitM.Triple (Site.Calm (env.matcher.acceptsAny · settings.userInput) ())
      (guardPaths env settings block)
      fun out site => out = block ∧
        Site.Calm (env.matcher.acceptsAny · settings.userInput) () site := by
  have noSource : VisitM.Triple (Site.Calm (env.matcher.acceptsAny · settings.userInput) ())
      (VisitM.path : PassM Unit Path) fun path site =>
        reached env settings path (fun _ => true) = [] ∧
          Site.Calm (env.matcher.acceptsAny · settings.userInput) () site := by
    refine .path fun site calm => ⟨?_, calm⟩
    cases ends : site.cursor.path.outward with
    | nil => simp [reached, Path.exprPaths, ends]
    | cons n above => exact reached_of_lacks ends (calm.path ends) _
  unfold guardPaths
  refine noSource.bind fun path => VisitM.Triple.assuming fun none => ?_
  simp only [none]
  exact .pure fun _ calm => ⟨rfl, calm⟩

theorem visitor_keeps (off : settings.fixPartialPath = false) :
    (visitor env settings).Keeps (env.matcher.acceptsAny · settings.userInput) () := by
  intro n descend lacks kept
  unfold visitor
  dsimp only
  split
  next block =>
    refine PassM.calms_path.bind fun path => ?_
    split
    · unfold treatBody
      have same : block.same block = true := beq_self_eq_true block.id
      simp only [off, Bool.false_eq_true, ↓reduceIte, pure_bind, same, Bool.not_true]
      refine kept.bind fun walked => VisitM.Triple.assuming ?_
      rintro rfl
      rw [if_pos (Node.same_self _)]
      refine (guardPaths_calm block).bind fun out => VisitM.Triple.assuming ?_
      rintro rfl
      exact .pure fun _ calm => ⟨rfl, calm⟩
    · exact kept
  next => exact kept

end PathTraversal

/-! ## The catalog -/

/-- Is the expression a call that the remediation acts on, under the settings for
it? -/
def Remediation.isTrigger (r : Remediation) (settings : RemediationSettings)
    (matcher : CallMatcher) (e : Expr) : Bool :=
  match r with
  | pathTraversal userInput _ _ _ =>
    matcher.acceptsAny e (signatures (userInput ++ settings.userInput))
  | cookieSecure => matcher.acceptsAny e Cookie.creation
  | secureRandom => Random.isInsecure matcher e
  | secureRandomSeed => matcher.acceptsAny e Seed.setSeed
  | xmlInputFactory => matcher.acceptsAny e XmlInput.creation
  | documentBuilderFactory => matcher.acceptsAny e DocumentBuilder.creation
  | transformerFactory => matcher.acceptsAny e Transformer.creation
  | secureTempFile => matcher.acceptsAny e TempDirectory.createTempFile
  | tempDirectory => matcher.acceptsAny e TempDirectory.createTempFile
  | randomStringUtils => matcher.acceptsAny e RandomString.drawing
  | privilegedCode => false

/-- Does the remediation complete partial paths? -/
def Remediation.completesPaths (r : Remediation) (settings : RemediationSettings) : Bool :=
  match r with
  | pathTraversal _ _ fixPartialPath _ => fixPartialPath || settings.fixPartialPath
  | _ => false

/-- Descriptors that can all be read are the signatures they spell. -/
theorem signatures_of_mapM [GlobCompiler] {descriptors : List String} {read : List Signature}
    (h : descriptors.mapM readSignature = .ok read) : signatures descriptors = read := by
  induction descriptors generalizing read with
  | nil => cases h; rfl
  | cons descriptor rest ih =>
    rw [List.mapM_cons] at h
    cases first : Signature.parse descriptor with
    | error e =>
      simp only [readSignature, first] at h
      cases h
    | ok signature =>
      cases more : rest.mapM readSignature with
      | error e =>
        simp only [readSignature, first] at h
        cases (more ▸ h)
      | ok others =>
        simp only [readSignature, first, more] at h
        cases h
        rw [← ih more]
        exact List.filterMap_cons_some (by rw [Signature.parse_unlimited first]; rfl)

/-- The pass of a remediation leaves a unit alone that holds nothing the
remediation acts on. -/
theorem Remediation.pass_untriggered [GlobCompiler] {r : Remediation} {id : String}
    {settings : RemediationSettings} {env : PassEnv} {pass : Pass}
    (made : r.pass id settings env = .ok pass) (off : r.completesPaths settings = false)
    {unit : CompilationUnit} (lacks : (Node.unit unit).Lacks (r.isTrigger settings env.matcher))
    {next used : NodeId} {out : PassResult} (ran : pass unit next = (.ok out, used)) :
    out.unit = unit := by
  cases r with
  | pathTraversal userInput stem fixPartialPath guardMessage =>
    unfold Remediation.pass pathSettings at made
    cases read : (userInput ++ settings.userInput).mapM readSignature with
    | error e =>
      simp only [read] at made
      cases made
    | ok found =>
      simp only [read] at made
      cases made
      refine Visitor.pass_keeps (PathTraversal.visitor_keeps off) ?_ ran
      rw [← signatures_of_mapM read]
      exact lacks
  | cookieSecure =>
    cases made
    exact Visitor.pass_keeps (Cookie.remedy_calms env).visitor lacks ran
  | secureRandom =>
    cases made
    exact Visitor.pass_keeps (Random.remedy_calms env).visitor lacks ran
  | secureRandomSeed =>
    cases made
    exact Visitor.pass_keeps (Seed.remedy_calms env).visitor lacks ran
  | xmlInputFactory =>
    cases made
    exact Visitor.pass_keeps (XmlInput.remedy_calms env _).visitor lacks ran
  | documentBuilderFactory =>
    cases made
    exact Visitor.pass_keeps (DocumentBuilder.remedy_calms env _).visitor lacks ran
  | transformerFactory =>
    cases made
    exact Visitor.pass_keeps (Transformer.remedy_calms env).visitor lacks ran
  | secureTempFile =>
    cases made
    exact Visitor.pass_keeps (TempFile.remedy_calms env).visitor lacks ran
  | tempDirectory =>
    cases made
    exact Visitor.pass_keeps (TempDirectory.remedy_calms env).visitor lacks ran
  | randomStringUtils =>
    cases made
    exact Visitor.pass_keeps (RandomString.remedy_calms env).visitor lacks ran
  | privilegedCode =>
    cases made
    exact Visitor.pass_keeps (Privileged.remedy_calms env id _).visitor lacks ran

/-! ## The built-in catalog -/

namespace Catalog

/-- The calls that the built-in catalog acts on, but for the creation of a
`Random`. -/
def triggerDescriptors : List String :=
  [ "java.util.zip.ZipEntry getName()",
    "org.apache.commons.compress.archivers.zip.ZipArchiveEntry getName()",
    "javax.servlet.http.Cookie <constructor>(..)",
    "java.security.SecureRandom setSeed(..)",
    "javax.xml.stream.XMLInputFactory new*(..)",
    "javax.xml.parsers.DocumentBuilderFactory newInstance*(..)",
    "javax.xml.transform.TransformerFactory new*(..)",
    "java.io.File createTempFile(..)",
    "org.apache.commons.lang*.RandomStringUtils random*(..)" ]

/-- Is the expression a call that the built-in catalog acts on? The constructor of
a subclass of `Random`, say of `SecureRandom`, is not one. -/
def isTrigger (e : Expr) : Bool :=
  CallMatcher.standard.acceptsAny e (signatures triggerDescriptors) ||
    (e.ty.isClass Fqn.random &&
      CallMatcher.standard.acceptsAny e (signatures ["java.util.Random <constructor>(..)"]))

/-- A call of one of some shapes is of one of more shapes. -/
theorem acceptsAny_of_subset {matcher : CallMatcher} {e : Expr} {some_ all : List String}
    (part : some_ ⊆ all) (h : matcher.acceptsAny e (signatures some_) = true) :
    matcher.acceptsAny e (signatures all) = true := by
  obtain ⟨s, mem, accepted⟩ := List.any_eq_true.mp h
  obtain ⟨descriptor, hdescriptor, parsed⟩ := List.mem_filterMap.mp mem
  exact List.any_eq_true.mpr
    ⟨s, List.mem_filterMap.mpr ⟨descriptor, part hdescriptor, parsed⟩, accepted⟩

/-- What an entry of the built-in catalog acts on under the settings of a preset is
a trigger, and it completes no paths unless the preset asks for it. -/
theorem isTrigger_of_entry {entry : CatalogEntry} (mem : entry ∈ builtin.entries) (preset : Preset)
    (plain : preset ≠ .thorough) :
    entry.remediation.completesPaths (.ofPreset preset) = false ∧
      ∀ e, entry.remediation.isTrigger (.ofPreset preset) .standard e = true →
        isTrigger e = true := by
  have listed : ∀ e, ∀ some_ ⊆ triggerDescriptors,
      CallMatcher.standard.acceptsAny e (signatures some_) = true → isTrigger e = true := by
    intro e some_ part accepted
    exact Bool.or_eq_true_iff.mpr (.inl (acceptsAny_of_subset part accepted))
  simp only [builtin, List.mem_cons, List.not_mem_nil, or_false] at mem
  rcases mem with rfl | rfl | rfl | rfl | rfl | rfl | rfl | rfl | rfl | rfl | rfl
  case inl =>
    refine ⟨decide_eq_false plain, fun e h => listed e _ (List.append_subset.mpr ⟨?_, ?_⟩) h⟩
    · decide
    · exact List.nil_subset _
  case inr.inr.inl => exact ⟨rfl, fun e h => Bool.or_eq_true_iff.mpr (.inr h)⟩
  case inr.inr.inr.inr.inr.inr.inr.inr.inr.inr =>
    exact ⟨rfl, fun e h => by cases h⟩
  all_goals
    refine ⟨rfl, fun e h => listed e [_] ?_ h⟩
    decide

end Catalog

/-- In a unit without a call that the built-in catalog acts on there is nothing to
fix: the unit is answered as the node it is, after one cycle, and no id is used. -/
theorem fix_of_untriggered [GlobCompiler] {unit : CompilationUnit}
    (untriggered : ∀ e ∈ (Node.unit unit).allExprs, Catalog.isTrigger e = false) (next : NodeId) :
    fix unit .builtin next = (unit, next) ∧
      ∃ o, Engine.standard.run unit next = (.ok o, next) ∧ o.unit = unit ∧
        o.changed = false ∧ o.cycles = 1 := by
  have made : Engine.make .standard .builtin = .ok .standard := rfl
  have quiet : ∀ pass ∈ Engine.standard.enabled, Engine.standard.Quiet pass ⟨unit, next⟩ := by
    intro pass enabled
    obtain ⟨out, used, ran⟩ := Engine.reliable_of_make made pass enabled unit next
    refine ⟨out, used, ran, ?_⟩
    obtain ⟨entry, mem, found⟩ := List.mem_filterMap.mp enabled
    obtain ⟨settings, hsettings, rfl⟩ := Option.map_eq_some_iff.mp found
    have preset : settings = .ofPreset .balanced := (Option.some.inj hsettings).symm
    subst preset
    obtain ⟨off, part⟩ := Catalog.isTrigger_of_entry mem .balanced (by decide)
    have same : out.unit = unit := by
      cases made : entry.remediation.pass entry.id (.ofPreset .balanced)
          Engine.standard.passEnv with
      | ok pass =>
        simp only [CatalogEntry.run, made] at ran
        exact Remediation.pass_untriggered made off (Node.Lacks.mono untriggered part) ran
      | error e =>
        simp only [CatalogEntry.run, made] at ran
        cases ran
    unfold Engine.isChange
    rw [same, bne_self_eq_false, Bool.false_and]
  obtain ⟨o, ran, same, cycles, applied, -⟩ := Engine.run_of_quiet quiet (Nat.succ_pos 9)
  refine ⟨?_, o, ran, same, ?_, cycles⟩
  · rw [fix_of_run ran, same]
  · unfold Outcome.changed
    rw [applied]
    rfl

section

attribute [local instance] GlobCompiler.standard

/-- A method that makes a `SecureRandom` and draws bytes from it. -/
theorem fix_secureRandom :
    let create : Expr := ⟨8, .known Fqn.secureRandom, .create "SecureRandom" [] (some Jdk.secureRandom)⟩
    let read : Expr := ⟨11, .known Fqn.secureRandom, .ident "r" none⟩
    let bytes : Expr := ⟨12, .unknown, .array "byte" ⟨13, .int, .literal (.int 64)⟩⟩
    let draw : Expr :=
      ⟨10, .void, .call (some read) "nextBytes" [bytes] (some Jdk.secureRandomNextBytes)⟩
    let declare : Stmt := ⟨6, .declare ⟨[], "Random", [⟨7, "r", .known Fqn.random, some create⟩]⟩⟩
    let body : Block := ⟨5, false, [declare, ⟨9, .expr draw⟩]⟩
    let method : Stmt := ⟨4, .method ⟨[], some "void", "m", [], []⟩ (some body)⟩
    let unit : CompilationUnit :=
      ⟨1, none, [⟨Fqn.secureRandom, false⟩], [⟨2, ⟨[], "A", .known "A"⟩, ⟨3, false, [method]⟩⟩]⟩
    fix unit .builtin 14 = (unit, 14) ∧
      ∃ o, Engine.standard.run unit 14 = (.ok o, 14) ∧ o.unit = unit ∧
        o.changed = false ∧ o.cycles = 1 := by
  intro create read bytes draw declare body method unit
  have untriggered : ∀ e ∈ (Node.unit unit).allExprs, Catalog.isTrigger e = false := by
    decide +kernel
  exact fix_of_untriggered untriggered 14

end

end JavaMend
