import JavaMend.Proofs.Traversal.Triple
import JavaMend.Remedy.Catalog

/-!
# Passes that report nothing

One remediation reports what it finds, and all the others fix it. Their visits note
fixes and ask for imports; no frame of the cursor ever holds a finding
(`Cursor.Silent`), and so there are none in what the pass makes
(`Remediation.pass_silent`).
-/

namespace JavaMend

/-! ## Silent cursors -/

/-- No findings are noted on the frame. -/
def Frame.Silent (f : Frame Note) : Prop := f.read? Note.findingTopic = none

/-- No findings are noted on any frame. -/
def Cursor.Silent (c : Cursor Note) : Prop := ∀ f ∈ c.frames, f.Silent

namespace Cursor

variable {c : Cursor Note}

theorem silent_ofRoot (n : Node) : (ofRoot n).Silent := by
  intro f mem
  cases List.mem_singleton.mp mem
  rfl

theorem Silent.push (h : c.Silent) (n : Node) : (c.push n).Silent := by
  intro f mem
  rcases List.mem_cons.mp mem with rfl | mem
  · rfl
  · exact h f mem

theorem Silent.pop (h : c.Silent) : c.pop.Silent := fun f mem => h f (List.mem_of_mem_tail mem)

/-- What is noted under other keys is no finding. -/
theorem Silent.modifyAt {α : Type} (h : c.Silent) {topic : Topic Note α}
    (ne : Note.findingTopic.key ≠ topic.key) (index : Nat) (init : α) (change : α → α) :
    (c.modifyAt index topic init change).2.Silent :=
  forall_atFrame h fun _ silent => (Frame.read?_modify_of_ne ne init change).trans silent

theorem Silent.requestImports (h : c.Silent) (fqns : List String) :
    (c.requestImports fqns).Silent := by
  induction fqns generalizing c with
  | nil => exact h
  | cons fqn rest ih => exact ih (h.modifyAt (by decide) _ _ _)

theorem Silent.noteFix (h : c.Silent) (fix : PendingFix) : (c.noteFix fix).2.Silent := by
  unfold Cursor.noteFix
  dsimp only
  split
  · exact h
  · exact h.modifyAt (by decide) _ _ _

theorem Silent.takeFixes (h : c.Silent) : (c.take Note.fixTopic).2.Silent := by
  refine forall_atFrame h fun f silent => ?_
  show (f.take Note.fixTopic).2.Silent
  unfold Frame.take
  split
  · have other : Note.findingTopic.key ≠ Note.fixTopic.key := by decide
    show ((f.erase Note.fixTopic.key).note? Note.findingTopic.key).bind _ = none
    rw [Frame.note?_erase_of_ne other]
    exact silent
  · exact silent

theorem Silent.takeFindings (h : c.Silent) : c.takeFindings.1 = [] := by
  unfold Cursor.takeFindings Cursor.takeAt Cursor.atFrame
  cases found : c.frame? 0 with
  | none => rfl
  | some f =>
    have silent : f.read? Note.findingTopic = none := h f (mem_of_frame? found)
    simp only [Frame.take, silent, Option.getD_none]

end Cursor

/-! ## Silent visits -/

/-- A visit that starts on a silent cursor ends on one. -/
abbrev PassM.Silent {σ α : Type} (action : PassM σ α) : Prop :=
  VisitM.Triple (fun site => site.cursor.Silent) action fun _ site => site.cursor.Silent

namespace PassM

variable {σ τ α β ε : Type}

theorem silent_pure (a : α) : Silent (pure a : PassM σ α) := .pure fun _ h => h

theorem silent_path : Silent (VisitM.path : PassM σ Path) := .path fun _ h => h

theorem silent_own : Silent (VisitM.own : PassM σ σ) := .own fun _ h => h

theorem silent_modifyOwn (change : σ → σ) : Silent (VisitM.modifyOwn change : PassM σ Unit) :=
  .modifyOwn fun _ h => h

theorem silent_fresh (make : Fresh α) : Silent (VisitM.fresh make : PassM σ α) :=
  .fresh fun _ h => h

theorem silent_requestImports (fqns : List String) : Silent (requestImports fqns : PassM σ Unit) :=
  .modifyCursor fun _ h => h.requestImports fqns

theorem silent_noteFix (fix : PendingFix) : Silent (noteFix fix : PassM σ Bool) :=
  .modifyCursor fun _ h => h.noteFix fix

theorem silent_make (wrap : ε → EngineError) (action : ExceptT ε Fresh α) :
    Silent (make wrap action : PassM σ α) := by
  refine (silent_fresh action.run).bind fun result => ?_
  cases result with
  | ok a => exact silent_pure a
  | error e => exact .throw

theorem silent_replaceHere (tainted new : Expr) (imports : List String) :
    Silent (replaceHere tainted new imports : PassM σ Unit) := by
  refine silent_path.bind fun path => ?_
  split
  · exact (silent_noteFix _).bind fun _ => silent_pure _
  · exact silent_pure _

theorem silent_foldlM {f : α → β → PassM σ α} (items : List β)
    (step : ∀ b a, Silent (f a b)) (a : α) : Silent (items.foldlM f a) := by
  let kept : α → Site Note σ → Prop := fun _ site => site.cursor.Silent
  have keeps : ∀ b ∈ items, ∀ a, VisitM.Triple (kept a) (f a b) kept := fun b _ => step b
  exact VisitM.Triple.foldlM items keeps a

/-- A visit with a cursor of its own leaves this one alone. -/
theorem silent_apart (path : Path) (own : τ) (action : PassM τ α) :
    Silent (apart path own action : PassM σ _) := by
  intro site a site' h ran
  unfold apart at ran
  split at ran <;> cases ran
  exact h

end PassM

open PassM

/-! ## Repairs -/

namespace Repair

variable {σ : Type}

theorem silent_splice (c : Repair) (splicer : Splicer) (fragment : Fragment) (side : SpliceSide)
    (anchor : Stmt) : Silent (c.splice splicer fragment side anchor : PassM σ Repair) :=
  (silent_make _ _).bind fun _ => silent_pure _

theorem silent_swap (c : Repair) (splicer : Splicer) (anchor : Stmt) (stmts : List Stmt)
    (successor : Stmt) : Silent (c.swap splicer anchor stmts successor : PassM σ Repair) :=
  (c.silent_splice _ _ _ _).bind fun _ => silent_pure _

theorem silent_extract (c : Repair) (splicer : Splicer) (anchor : Stmt) (tainted : Expr)
    (base : String) : Silent (c.extract splicer anchor tainted base : PassM σ Repair) := by
  refine (silent_fresh _).bind fun path => (silent_fresh _).bind fun read => ?_
  refine (silent_fresh _).bind fun changed => ?_
  cases changed with
  | none => exact silent_pure _
  | some changed =>
    refine (silent_fresh _).bind fun declaration => (silent_requestImports _).bind fun _ => ?_
    exact silent_swap _ _ _ _ _

theorem silent_guardAfter (c : Repair) (splicer : Splicer) (anchor : Stmt) (tainted parent : Expr)
    (variant : GuardVariant) (message : String) :
    Silent (c.guardAfter splicer anchor tainted parent variant message : PassM σ Repair) := by
  refine (silent_fresh _).bind fun path => ?_
  dsimp only
  split
  · exact .throw
  · refine (silent_make _ _).bind fun fragment => (silent_requestImports _).bind fun _ => ?_
    exact c.silent_splice _ _ _ _

theorem silent_replace (c : Repair) (splicer : Splicer) (anchor : Stmt) (tainted new : Expr)
    (imports : List String) :
    Silent (c.replace splicer anchor tainted new imports : PassM σ Repair) := by
  refine (silent_fresh _).bind fun changed => ?_
  cases changed with
  | none => exact silent_pure _
  | some changed => exact (silent_requestImports _).bind fun _ => c.silent_swap _ _ _ _

theorem silent_apply (splicer : Splicer) (c : Repair) (fix : PendingFix) :
    Silent (apply splicer c fix : PassM σ Repair) := by
  unfold apply
  cases c.resolve? fix.anchor with
  | none => exact silent_pure _
  | some anchor =>
    cases fix.kind with
    | extract base => exact c.silent_extract _ _ _ _
    | guardAfter variant message =>
      cases fix.parent with
      | none => exact silent_pure _
      | some parent => exact c.silent_guardAfter _ _ _ _ _ _
    | replace new imports => exact c.silent_replace _ _ _ _ _
    | insertAfter stmts => exact c.silent_splice _ _ _ _
    | insertBefore stmts => exact c.silent_splice _ _ _ _
    | remove => exact c.silent_splice _ _ _ _

end Repair

theorem silent_repair {σ : Type} (splicer : Splicer) (before after : Block) :
    Silent (repair splicer before after : PassM σ Block) := by
  have taken : Silent (VisitM.modifyCursor (·.take Note.fixTopic) : PassM σ _) :=
    .modifyCursor fun _ h => h.takeFixes
  refine taken.bind fun pending => ?_
  cases pending with
  | none => exact silent_pure _
  | some pending =>
    refine silent_path.bind fun path => ?_
    exact (silent_foldlM _ (fun fix c => c.silent_apply splicer fix) _).bind fun _ =>
      silent_pure _

/-! ## Visitors -/

/-- The visitor stays silent on a node if the descent below the node does. -/
def Visitor.Silent {σ : Type} (v : Visitor EngineError Note σ) : Prop :=
  ∀ n descend, PassM.Silent descend → PassM.Silent (v.visit n descend)

/-- Both hooks of a remedy are silent. -/
structure Remedy.Silent {σ : Type} (remedy : Remedy σ) : Prop where
  enter : ∀ n, PassM.Silent (remedy.enter n)
  leave : ∀ block, PassM.Silent (remedy.leave block)

section

variable {σ : Type}

theorem Visitor.run_silent {v : Visitor EngineError Note σ} (h : v.Silent) (n : Node) :
    PassM.Silent (v.run n) := by
  have below : ∀ c : { c // c ∈ n.children },
      PassM.Silent (VisitM.inFrame c.1 (v.run c.1)) := by
    rintro ⟨c, hc⟩
    exact .inFrame (run_silent h c) (fun _ silent => silent.push c) fun _ _ silent => silent.pop
  rw [run]
  refine h n _ ?_
  have children : PassM.Silent
      (n.children.attach.mapM fun c => VisitM.inFrame c.1 (v.run c.1)) :=
    .mapM (fun _ _ site => site.cursor.Silent) fun _ c _ _ _ => below c
  refine children.bind fun news => ?_
  unfold settle
  split
  · exact silent_pure _
  · exact silent_fresh _
termination_by sizeOf n
decreasing_by exact Node.sizeOf_lt_of_mem_children hc

theorem Visitor.pass_silent {v : Visitor EngineError Note σ} (h : v.Silent) (own : σ)
    {unit : CompilationUnit} {next used : NodeId} {out : PassResult}
    (ran : v.pass own unit next = (.ok out, used)) : out.findings = [] := by
  unfold Visitor.pass Visitor.runTree at ran
  split at ran
  next => cases ran
  next node site ended =>
    have silent : site.cursor.Silent := run_silent h _ (Cursor.silent_ofRoot _) ended
    have nothing := silent.takeFindings
    dsimp only at ran
    split at ran
    · split at ran
      all_goals
        cases ran
        exact nothing
    · cases ran
      exact nothing

theorem Remedy.Silent.visitor {remedy : Remedy σ} (h : remedy.Silent) (env : PassEnv) :
    (remedy.visitor env).Silent := by
  intro n descend below
  refine (h.enter n).bind fun goOn => ?_
  split
  · refine below.bind fun walked => ?_
    split
    · exact (h.leave _).bind fun _ => (silent_repair _ _ _).bind fun _ => silent_pure _
    · exact silent_pure _
  · exact silent_pure _

end

/-! ## Remedies -/

theorem Cookie.remedy_silent (env : PassEnv) : (Cookie.remedy env).Silent where
  enter n := by
    have inspects : ∀ cookie, Silent (Cookie.inspect env cookie) := by
      intro cookie
      refine silent_path.bind fun path => ?_
      split
      · exact silent_pure _
      · split
        · split
          · exact silent_pure _
          · refine (silent_fresh _).bind fun enable => ?_
            exact (silent_noteFix _).bind fun _ => silent_pure _
        · split
          · exact silent_modifyOwn _
          · exact silent_pure _
    have turns : ∀ call, Silent (Cookie.turnAround call) := by
      intro call
      unfold Cookie.turnAround
      split
      · exact (silent_fresh _).bind fun new => silent_replaceHere _ _ _
      · exact silent_pure _
    unfold Cookie.remedy
    dsimp only
    split
    · refine silent_own.bind fun marked => ?_
      split
      · refine (silent_modifyOwn _).bind fun _ => (turns _).bind fun _ => silent_pure _
      · split
        · exact (inspects _).bind fun _ => silent_pure _
        · exact silent_pure _
    · exact silent_pure _
  leave _ := silent_pure _

theorem Random.remedy_silent (env : PassEnv) : (Random.remedy env).Silent where
  enter n := by
    unfold Random.remedy
    dsimp only
    split
    · split
      · refine (silent_fresh _).bind fun new => ?_
        exact (silent_replaceHere _ _ _).bind fun _ => silent_pure _
      · exact silent_pure _
    · exact silent_pure _
  leave _ := silent_pure _

theorem Seed.remedy_silent (env : PassEnv) : (Seed.remedy env).Silent where
  enter n := by
    unfold Seed.remedy
    dsimp only
    split
    · refine silent_path.bind fun path => ?_
      split
      · split
        · exact (silent_noteFix _).bind fun _ => silent_pure _
        · exact silent_pure _
      · exact silent_pure _
    · exact silent_pure _
  leave _ := silent_pure _

theorem Factory.addConfiguration_silent (f : Factory) (owner : Option Ty) (last : Option Stmt)
    (stmts : List Stmt) (imports : List String) :
    Silent (f.addConfiguration owner last stmts imports) := by
  have noted : ∀ fix, Silent (do
      if ← PassM.noteFix fix then PassM.requestImports imports : PassM Unit Unit) := by
    intro fix
    refine (silent_noteFix _).bind fun noted => ?_
    split
    · exact silent_requestImports _
    · exact silent_pure _
  unfold Factory.addConfiguration
  split
  · exact (silent_fresh _).bind fun initializer => noted _
  · exact noted _

theorem XmlInput.remedy_silent (env : PassEnv) (dtdsRequired : Bool) :
    (XmlInput.remedy env dtdsRequired).Silent where
  enter _ := silent_pure _
  leave block := by
    refine silent_path.bind fun path => .forM _ fun f _ => ?_
    unfold XmlInput.protect
    dsimp only
    split
    · exact silent_pure _
    · exact (silent_fresh _).bind fun stmts => f.addConfiguration_silent _ _ _ _

theorem Transformer.remedy_silent (env : PassEnv) : (Transformer.remedy env).Silent where
  enter _ := silent_pure _
  leave block := by
    refine silent_path.bind fun path => .forM _ fun f _ => ?_
    unfold Transformer.protect
    dsimp only
    split
    · exact silent_pure _
    · exact (silent_fresh _).bind fun stmts => f.addConfiguration_silent _ _ _ _

theorem DocumentBuilder.remedy_silent (env : PassEnv) (dtdsRequired : Bool) :
    (DocumentBuilder.remedy env dtdsRequired).Silent where
  enter _ := silent_pure _
  leave block := by
    have protects : ∀ path facts f taken,
        Silent (DocumentBuilder.protect env dtdsRequired path facts taken f) := by
      intro path facts f taken
      unfold DocumentBuilder.protect
      dsimp only
      split
      · exact silent_pure _
      · refine (silent_fresh _).bind fun stmts => ?_
        exact (f.addConfiguration_silent _ _ _ _).bind fun _ => silent_pure _
    refine silent_path.bind fun path => ?_
    dsimp only
    split
    · exact silent_pure _
    · exact (silent_foldlM _ (protects path _) _).bind fun _ => silent_pure _

theorem TempDirectory.belowClass_silent {σ : Type} :
    Silent (TempDirectory.belowClass : PassM σ Bool) :=
  silent_path.bind fun _ => silent_pure _

theorem TempDirectory.remedy_silent (env : PassEnv) : (TempDirectory.remedy env).Silent where
  enter _ := silent_pure _
  leave block := by
    refine TempDirectory.belowClass_silent.bind fun below => ?_
    split
    · exact silent_pure _
    · refine .forM _ fun site _ => ?_
      refine (silent_fresh _).bind fun new => ?_
      split
      · exact silent_pure _
      · refine (silent_noteFix _).bind fun _ => (silent_noteFix _).bind fun _ => ?_
        exact (silent_noteFix _).bind fun _ => silent_pure _

theorem TempFile.remedy_silent (env : PassEnv) : (TempFile.remedy env).Silent where
  enter n := by
    unfold TempFile.remedy
    dsimp only
    split
    · refine TempDirectory.belowClass_silent.bind fun below => ?_
      split
      · exact silent_pure _
      · exact (silent_modifyOwn _).bind fun _ => silent_pure _
    · refine silent_own.bind fun claimed => ?_
      split
      · refine silent_path.bind fun path => (silent_fresh _).bind fun new => ?_
        split
        · exact (silent_replaceHere _ _ _).bind fun _ => silent_pure _
        · exact silent_pure _
      · exact silent_pure _
    · exact silent_pure _
  leave _ := silent_pure _

theorem RandomString.addMembers_silent (env : PassEnv) (body : Block) (owner : Ty) :
    Silent (RandomString.addMembers env body owner) := by
  unfold RandomString.addMembers
  split
  · exact silent_pure _
  · refine silent_path.bind fun path => ?_
    dsimp only
    split
    · refine (silent_fresh _).bind fun members => (silent_noteFix _).bind fun added => ?_
      split
      · refine (silent_fresh _).bind fun method => (silent_noteFix _).bind fun _ => ?_
        split
        · exact (silent_noteFix _).bind fun _ => silent_requestImports _
        · exact silent_requestImports _
      · exact silent_pure _
    · exact silent_pure _

theorem RandomString.remedy_silent (env : PassEnv) : (RandomString.remedy env).Silent where
  enter n := by
    have replaces : ∀ call, Silent (RandomString.replaceCall call) := by
      intro call
      refine silent_path.bind fun path => ?_
      split
      · exact silent_pure _
      · split
        · exact silent_pure _
        · exact (silent_fresh _).bind fun new => silent_replaceHere _ _ _
    unfold RandomString.remedy
    dsimp only
    split
    · split
      · exact (replaces _).bind fun _ => silent_pure _
      · exact silent_pure _
    · exact silent_pure _
  leave body := by
    refine silent_path.bind fun path => ?_
    split
    · exact RandomString.addMembers_silent env body _
    · exact silent_pure _

namespace PathTraversal

theorem runApart_silent {σ : Type} (env : PassEnv) (remedy : Remedy σ) (own : σ) (path : Path)
    (block : Block) : Silent (runApart env remedy own path block) :=
  (silent_apart _ _ _).bind fun _ => silent_pure _

theorem guardPaths_silent (env : PassEnv) (settings : PathSettings) (block : Block) :
    Silent (guardPaths env settings block) := by
  refine silent_path.bind fun path => ?_
  dsimp only
  split
  · exact silent_pure _
  refine (runApart_silent _ _ _ _ _).bind ?_
  rintro ⟨normalized, fileImports, -⟩
  refine (silent_fresh _).bind fun path => ?_
  dsimp only
  split
  · exact silent_pure _
  refine (runApart_silent _ _ _ _ _).bind ?_
  rintro ⟨guarded, guardImports, count⟩
  dsimp only
  split
  · exact silent_pure _
  refine (silent_requestImports _).bind fun _ => ?_
  exact (silent_requestImports _).bind fun _ => silent_pure _

theorem completeBody_silent (env : PassEnv) (block : Block) : Silent (completeBody env block) := by
  refine silent_path.bind fun path => (runApart_silent _ _ _ _ _).bind ?_
  rintro ⟨completed, imports, -⟩
  dsimp only
  split
  · exact silent_pure _
  · exact (silent_requestImports _).bind fun _ => silent_pure _

theorem visitor_silent (env : PassEnv) (settings : PathSettings) :
    (visitor env settings).Silent := by
  intro n descend below
  have treats : ∀ block, Silent (treatBody env settings block descend) := by
    intro block
    have treated : ∀ completed : Block, Silent (do
        if !completed.same block then return .block completed
        let walked ← descend
        if walked.same (.block block) then return .block (← guardPaths env settings block)
        else return walked : PassM Unit Node) := by
      intro completed
      split
      · exact silent_pure _
      · refine below.bind fun walked => ?_
        split
        · exact (guardPaths_silent env settings block).bind fun _ => silent_pure _
        · exact silent_pure _
    unfold treatBody
    split
    · exact (completeBody_silent env block).bind treated
    · exact treated block
  unfold visitor
  dsimp only
  split
  · refine silent_path.bind fun path => ?_
    split
    · exact treats _
    · exact below
  · exact below

end PathTraversal

/-- No pass reports anything but that of the search. -/
theorem Remediation.pass_silent [GlobCompiler] {r : Remediation} (fixes : r ≠ .privilegedCode)
    {id : String}
    {settings : RemediationSettings} {env : PassEnv} {pass : Pass}
    (made : r.pass id settings env = .ok pass) {unit : CompilationUnit} {next used : NodeId}
    {out : PassResult} (ran : pass unit next = (.ok out, used)) : out.findings = [] := by
  cases r with
  | pathTraversal userInput stem fixPartialPath guardMessage =>
    simp only [Remediation.pass] at made
    cases own : pathSettings userInput stem fixPartialPath guardMessage settings with
    | error e =>
      rw [own] at made
      cases made
    | ok own =>
      simp only [own] at made
      cases made
      exact Visitor.pass_silent (PathTraversal.visitor_silent env _) () ran
  | privilegedCode => exact (fixes rfl).elim
  | cookieSecure =>
    cases made
    exact Visitor.pass_silent ((Cookie.remedy_silent env).visitor env) _ ran
  | secureRandom =>
    cases made
    exact Visitor.pass_silent ((Random.remedy_silent env).visitor env) _ ran
  | secureRandomSeed =>
    cases made
    exact Visitor.pass_silent ((Seed.remedy_silent env).visitor env) _ ran
  | xmlInputFactory =>
    cases made
    exact Visitor.pass_silent ((XmlInput.remedy_silent env _).visitor env) _ ran
  | documentBuilderFactory =>
    cases made
    exact Visitor.pass_silent ((DocumentBuilder.remedy_silent env _).visitor env) _ ran
  | transformerFactory =>
    cases made
    exact Visitor.pass_silent ((Transformer.remedy_silent env).visitor env) _ ran
  | secureTempFile =>
    cases made
    exact Visitor.pass_silent ((TempFile.remedy_silent env).visitor env) _ ran
  | tempDirectory =>
    cases made
    exact Visitor.pass_silent ((TempDirectory.remedy_silent env).visitor env) _ ran
  | randomStringUtils =>
    cases made
    exact Visitor.pass_silent ((RandomString.remedy_silent env).visitor env) _ ran

end JavaMend
