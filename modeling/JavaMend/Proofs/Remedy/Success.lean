import JavaMend.Proofs.Patch.Success
import JavaMend.Remedy.Catalog

/-!
# Remedies that succeed

Every remedy of the library notes only fixes that render, so that no visit of
it fails. Most of them note no guards at all. The one that does,
`PathTraversal.Guarding`, chooses the variant of a guard for the types of the
very operands that it notes with it.

`Remediation.pass_succeeds` collects the remedies: with settings whose
descriptors can be read, and with the standard message for guards, the pass of
every remediation can be made and succeeds on every unit.
-/

namespace JavaMend

/-- A pass that makes something of every unit. -/
def Pass.Succeeds (pass : Pass) : Prop :=
  ∀ unit next, ∃ out next', pass unit next = (.ok out, next')

/-- Neither hook of a remedy fails. -/
structure Remedy.Succeeds {σ : Type} (remedy : Remedy σ) : Prop where
  enter : ∀ n, PassM.Succeeds (remedy.enter n)
  leave : ∀ block, PassM.Succeeds (remedy.leave block)

/-- The visitor of a visit that succeeds on every node makes a pass that
succeeds. -/
theorem Visitor.pass_succeeds {σ : Type} {v : Visitor EngineError Note σ}
    (h : v.Succeeds Cursor.Sound) (own : σ) : (v.pass own).Succeeds := by
  intro unit next
  obtain ⟨out, site, run, -, -⟩ := Visitor.run_succeeds (fun _ n hc => hc.push n)
    (fun _ hc => hc.pop) h (.unit unit) ⟨.ofRoot (.unit unit), next, own⟩ (Cursor.sound_ofRoot _)
  unfold Visitor.pass Visitor.runTree
  rw [run]
  dsimp only
  split
  · split <;> exact ⟨_, _, rfl⟩
  · exact ⟨_, _, rfl⟩

section

variable {σ : Type} {env : PassEnv} (standard : env.splicer = .standard)
include standard

theorem Remedy.visitor_succeeds {remedy : Remedy σ} (h : remedy.Succeeds) :
    (remedy.visitor env).Succeeds Cursor.Sound := by
  intro n descend hdescend
  unfold Remedy.visitor
  refine (h.enter n).then_ fun goOn => ?_
  split
  · refine hdescend.then_ fun walked => ?_
    split
    · refine (h.leave _).then_ fun _ => ?_
      rw [standard]
      exact (repair_succeeds _ _).then_ fun _ => .pure trivial
    · exact .pure trivial
  · exact .pure trivial

theorem Remedy.pass_succeeds {remedy : Remedy σ} (h : remedy.Succeeds) (own : σ) :
    ((remedy.visitor env).pass own).Succeeds :=
  Visitor.pass_succeeds (Remedy.visitor_succeeds standard h) own

end

/-- A replacement is no guard. -/
theorem PassM.replaceHere_succeeds {σ : Type} (tainted new : Expr) (imports : List String) :
    Succeeds (replaceHere tainted new imports : PassM σ Unit) := by
  unfold replaceHere
  refine VisitM.Succeeds.path.then_ fun path => ?_
  split
  · exact (PassM.noteFix_succeeds_of_tag_ne FixTag.noConfusion).then_ fun _ => .pure trivial
  · exact .pure trivial

/-! ## Single remedies -/

theorem Cookie.inspect_succeeds (env : PassEnv) (cookie : Expr) :
    PassM.Succeeds (Cookie.inspect env cookie) := by
  unfold Cookie.inspect
  refine VisitM.Succeeds.path.then_ fun path => ?_
  split
  · exact .pure trivial
  · split
    · split
      · exact .pure trivial
      · refine VisitM.Succeeds.then_ (.fresh fun _ => trivial) fun enable => ?_
        exact (PassM.noteFix_succeeds_of_tag_ne FixTag.noConfusion).then_ fun _ => .pure trivial
    · split
      · exact .modifyOwn
      · exact .pure trivial

theorem Cookie.turnAround_succeeds (call : Expr) : PassM.Succeeds (Cookie.turnAround call) := by
  unfold Cookie.turnAround
  split
  · refine VisitM.Succeeds.then_ (.fresh fun _ => trivial) fun new => ?_
    exact PassM.replaceHere_succeeds _ _ _
  · exact .pure trivial

theorem Cookie.remedy_succeeds (env : PassEnv) : (Cookie.remedy env).Succeeds where
  enter n := by
    unfold Cookie.remedy
    dsimp only
    split
    · refine VisitM.Succeeds.own.then_ fun marked => ?_
      split
      · refine VisitM.Succeeds.modifyOwn.then_ fun _ => ?_
        exact (Cookie.turnAround_succeeds _).then_ fun _ => .pure trivial
      · split
        · exact (Cookie.inspect_succeeds env _).then_ fun _ => .pure trivial
        · exact .pure trivial
    · exact .pure trivial
  leave _ := .pure trivial

theorem Random.remedy_succeeds (env : PassEnv) : (Random.remedy env).Succeeds where
  enter n := by
    unfold Random.remedy
    dsimp only
    split
    · split
      · refine VisitM.Succeeds.then_ (.fresh fun _ => trivial) fun new => ?_
        exact (PassM.replaceHere_succeeds _ _ _).then_ fun _ => .pure trivial
      · exact .pure trivial
    · exact .pure trivial
  leave _ := .pure trivial

theorem Seed.remedy_succeeds (env : PassEnv) : (Seed.remedy env).Succeeds where
  enter n := by
    unfold Seed.remedy
    dsimp only
    split
    · refine VisitM.Succeeds.path.then_ fun path => ?_
      split
      · split
        · exact (PassM.noteFix_succeeds_of_tag_ne FixTag.noConfusion).then_ fun _ => .pure trivial
        · exact .pure trivial
      · exact .pure trivial
    · exact .pure trivial
  leave _ := .pure trivial

theorem Privileged.remedy_succeeds (env : PassEnv) (id : String) :
    (Privileged.remedy env id).Succeeds where
  enter n := by
    unfold Privileged.remedy
    dsimp only
    split
    · refine VisitM.Succeeds.then_ ?_ fun _ => .pure trivial
      refine VisitM.Succeeds.path.then_ fun path => ?_
      exact .modifyCursor fun c hc => ⟨hc.noteFinding _, trivial⟩
    · exact .pure trivial
  leave _ := .pure trivial

/-! ## Factories -/

theorem Factory.addConfiguration_succeeds (f : Factory) (owner : Option Ty) (last : Option Stmt)
    (stmts : List Stmt) (imports : List String) :
    PassM.Succeeds (f.addConfiguration owner last stmts imports) := by
  unfold Factory.addConfiguration
  have noted : ∀ (anchor : Stmt) (stmts : List Stmt), PassM.Succeeds
      (do
        if ← PassM.noteFix
            { anchor, tainted := f.init, parent := none, kind := .insertAfter stmts }
          then PassM.requestImports imports : PassM Unit Unit) := by
    intro anchor stmts
    refine (PassM.noteFix_succeeds_of_tag_ne FixTag.noConfusion).then_ fun noted => ?_
    split
    · exact PassM.requestImports_succeeds _
    · exact .pure trivial
  split
  · refine VisitM.Succeeds.then_ (.fresh fun _ => trivial) fun initializer => ?_
    exact noted _ _
  · exact noted _ _

theorem XmlInput.protect_succeeds (env : PassEnv) (dtdsRequired : Bool) (path : Path)
    (f : Factory) : PassM.Succeeds (XmlInput.protect env dtdsRequired path f) := by
  unfold XmlInput.protect
  dsimp only
  split
  · exact .pure trivial
  · refine VisitM.Succeeds.then_ (.fresh fun _ => trivial) fun stmts => ?_
    exact f.addConfiguration_succeeds _ _ _ _

theorem XmlInput.remedy_succeeds (env : PassEnv) (dtdsRequired : Bool) :
    (XmlInput.remedy env dtdsRequired).Succeeds where
  enter _ := .pure trivial
  leave block := by
    refine VisitM.Succeeds.path.then_ fun path => ?_
    exact VisitM.Succeeds.forM _ fun f _ => XmlInput.protect_succeeds env dtdsRequired path f

theorem Transformer.protect_succeeds (env : PassEnv) (path : Path) (f : Factory) :
    PassM.Succeeds (Transformer.protect env path f) := by
  unfold Transformer.protect
  dsimp only
  split
  · exact .pure trivial
  · refine VisitM.Succeeds.then_ (.fresh fun _ => trivial) fun stmts => ?_
    exact f.addConfiguration_succeeds _ _ _ _

theorem Transformer.remedy_succeeds (env : PassEnv) : (Transformer.remedy env).Succeeds where
  enter _ := .pure trivial
  leave block := by
    refine VisitM.Succeeds.path.then_ fun path => ?_
    exact VisitM.Succeeds.forM _ fun f _ => Transformer.protect_succeeds env path f

theorem DocumentBuilder.protect_succeeds (env : PassEnv) (dtdsRequired : Bool) (path : Path)
    (facts : List (String × DocumentBuilder.Fact)) (taken : List String) (f : Factory) :
    PassM.Succeeds (DocumentBuilder.protect env dtdsRequired path facts taken f) := by
  unfold DocumentBuilder.protect
  dsimp only
  split
  · exact .pure trivial
  · refine VisitM.Succeeds.then_ (.fresh fun _ => trivial) fun stmts => ?_
    exact (f.addConfiguration_succeeds _ _ _ _).then_ fun _ => .pure trivial

theorem DocumentBuilder.remedy_succeeds (env : PassEnv) (dtdsRequired : Bool) :
    (DocumentBuilder.remedy env dtdsRequired).Succeeds where
  enter _ := .pure trivial
  leave block := by
    refine VisitM.Succeeds.path.then_ fun path => ?_
    dsimp only
    split
    · exact .pure trivial
    · refine VisitM.Succeeds.then_ ?_ fun _ => .pure trivial
      exact VisitM.Succeeds.foldlM _ (fun f _ taken =>
        DocumentBuilder.protect_succeeds env dtdsRequired path _ taken f) _

/-! ## Temporary files and directories -/

theorem TempDirectory.belowClass_succeeds {σ : Type} :
    PassM.Succeeds (TempDirectory.belowClass : PassM σ Bool) :=
  VisitM.Succeeds.path.then_ fun _ => .pure trivial

theorem TempDirectory.noteSite_succeeds (site : TempDirectory.DirectorySite) :
    PassM.Succeeds (TempDirectory.noteSite site) := by
  unfold TempDirectory.noteSite
  refine VisitM.Succeeds.then_ (.fresh fun _ => trivial) fun new => ?_
  split
  · exact .pure trivial
  · refine (PassM.noteFix_succeeds_of_tag_ne FixTag.noConfusion).then_ fun _ => ?_
    refine (PassM.noteFix_succeeds_of_tag_ne FixTag.noConfusion).then_ fun _ => ?_
    exact (PassM.noteFix_succeeds_of_tag_ne FixTag.noConfusion).then_ fun _ => .pure trivial

theorem TempDirectory.remedy_succeeds (env : PassEnv) : (TempDirectory.remedy env).Succeeds where
  enter _ := .pure trivial
  leave block := by
    refine TempDirectory.belowClass_succeeds.then_ fun below => ?_
    split
    · exact .pure trivial
    · exact VisitM.Succeeds.forM _ fun site _ => TempDirectory.noteSite_succeeds site

theorem TempFile.checkCreation_succeeds (create : Expr) :
    PassM.Succeeds (TempFile.checkCreation create) := by
  unfold TempFile.checkCreation
  refine VisitM.Succeeds.path.then_ fun path => ?_
  refine VisitM.Succeeds.then_ (.fresh fun _ => trivial) fun new => ?_
  split
  · exact (PassM.replaceHere_succeeds _ _ _).then_ fun _ => .pure trivial
  · exact .pure trivial

theorem TempFile.remedy_succeeds (env : PassEnv) : (TempFile.remedy env).Succeeds where
  enter n := by
    unfold TempFile.remedy
    dsimp only
    split
    · refine TempDirectory.belowClass_succeeds.then_ fun below => ?_
      split
      · exact .pure trivial
      · exact VisitM.Succeeds.modifyOwn.then_ fun _ => .pure trivial
    · refine VisitM.Succeeds.own.then_ fun claimed => ?_
      split
      · exact TempFile.checkCreation_succeeds _
      · exact .pure trivial
    · exact .pure trivial
  leave _ := .pure trivial

/-! ## Random strings -/

theorem RandomString.replaceCall_succeeds (call : Expr) :
    PassM.Succeeds (RandomString.replaceCall call) := by
  unfold RandomString.replaceCall
  refine VisitM.Succeeds.path.then_ fun path => ?_
  split
  · exact .pure trivial
  · split
    · exact .pure trivial
    · refine VisitM.Succeeds.then_ (.fresh fun _ => trivial) fun new => ?_
      exact PassM.replaceHere_succeeds _ _ _

theorem RandomString.addMembers_succeeds (env : PassEnv) (body : Block) (owner : Ty) :
    PassM.Succeeds (RandomString.addMembers env body owner) := by
  unfold RandomString.addMembers
  split
  · exact .pure trivial
  · refine VisitM.Succeeds.path.then_ fun path => ?_
    dsimp only
    split
    · refine VisitM.Succeeds.then_ (.fresh fun _ => trivial) fun members => ?_
      refine (PassM.noteFix_succeeds_of_tag_ne FixTag.noConfusion).then_ fun added => ?_
      split
      · refine VisitM.Succeeds.then_ (.fresh fun _ => trivial) fun method => ?_
        refine (PassM.noteFix_succeeds_of_tag_ne FixTag.noConfusion).then_ fun _ => ?_
        split
        · refine (PassM.noteFix_succeeds_of_tag_ne FixTag.noConfusion).then_ fun _ => ?_
          exact PassM.requestImports_succeeds _
        · exact PassM.requestImports_succeeds _
      · exact .pure trivial
    · exact .pure trivial

theorem RandomString.remedy_succeeds (env : PassEnv) : (RandomString.remedy env).Succeeds where
  enter n := by
    unfold RandomString.remedy
    dsimp only
    split
    · split
      · exact (RandomString.replaceCall_succeeds _).then_ fun _ => .pure trivial
      · exact .pure trivial
    · exact .pure trivial
  leave body := by
    refine VisitM.Succeeds.path.then_ fun path => ?_
    split
    · exact RandomString.addMembers_succeeds env body _
    · exact .pure trivial

/-! ## Path traversal -/

namespace PathTraversal

theorem PartialPath.remedy_succeeds (env : PassEnv) : (PartialPath.remedy env).Succeeds where
  enter n := by
    unfold PartialPath.remedy
    dsimp only
    split
    · split
      · refine VisitM.Succeeds.then_ ?_ fun _ => .pure trivial
        refine VisitM.Succeeds.then_ (.fresh fun _ => trivial) fun new => ?_
        exact PassM.replaceHere_succeeds _ _ _
      · exact .pure trivial
    · exact .pure trivial
  leave _ := .pure trivial

theorem Normalize.remedy_succeeds (env : PassEnv) (userInput : List NodeId) :
    (Normalize.remedy env userInput).Succeeds where
  enter n := by
    unfold Normalize.remedy
    dsimp only
    split
    · refine VisitM.Succeeds.then_ (.fresh fun _ => trivial) fun new => ?_
      refine VisitM.Succeeds.path.then_ fun path => ?_
      split
      · exact (PassM.replaceHere_succeeds _ _ _).then_ fun _ => .pure trivial
      · exact .pure trivial
    · exact .pure trivial
  leave _ := .pure trivial

/-- The fix for a construction renders: the variant of a guard is chosen for
the types of its operands, and its message is the one that is set. -/
theorem Guarding.fixFor?_renders {settings : PathSettings}
    (message : ¬ Template.opening <:+: settings.guardMessage.toList) (path : Path) (construction parent : Expr)
    (anchor : Stmt) (next : NodeId) :
    ∀ fix, (Guarding.fixFor? settings path construction parent next).1 = some fix →
      PendingFix.Renders ⟨anchor, fix.1, fix.2.1, fix.2.2⟩ := by
  unfold Guarding.fixFor?
  cases path.initialized? with
  | some v =>
    cases selected : GuardVariant.select? v.ty parent.ty with
    | some variant =>
      simp only [selected]
      rintro fix ⟨⟩ variant' message' parent' ⟨⟩ ⟨⟩
      exact ⟨message, selected⟩
    | none =>
      simp only [selected]
      intro fix h
      obtain ⟨⟩ := h
  | none =>
    dsimp only
    split
    · intro fix h
      obtain ⟨⟩ := h
      exact PendingFix.renders_of_tag_ne FixTag.noConfusion
    · split
      · intro fix h
        obtain ⟨⟩ := h
        exact PendingFix.renders_of_tag_ne FixTag.noConfusion
      · intro fix h
        obtain ⟨⟩ := h

theorem Guarding.noteConstruction_succeeds {settings : PathSettings}
    (message : ¬ Template.opening <:+: settings.guardMessage.toList) (construction parent : Expr) :
    PassM.Succeeds (Guarding.noteConstruction settings construction parent) := by
  unfold Guarding.noteConstruction
  refine VisitM.Succeeds.path.then_ fun path => ?_
  have made : VisitM.Succeeds Cursor.Sound
      (fun found => ∀ anchor fix, found = some fix →
        PendingFix.Renders ⟨anchor, fix.1, fix.2.1, fix.2.2⟩)
      (VisitM.fresh (Guarding.fixFor? settings path construction parent) : PassM Nat _) :=
    .fresh fun next anchor fix =>
      Guarding.fixFor?_renders message path construction parent anchor next fix
  refine made.bind fun found renders => ?_
  split
  next anchor tainted parent kind _ =>
    refine (PassM.noteFix_succeeds (renders anchor _ rfl)).then_ fun noted => ?_
    split
    · exact .modifyOwn
    · exact .pure trivial
  next => exact .pure trivial

theorem Guarding.remedy_succeeds (env : PassEnv) {settings : PathSettings}
    (message : ¬ Template.opening <:+: settings.guardMessage.toList) (children : List NodeId) :
    (Guarding.remedy env settings children).Succeeds where
  enter n := by
    unfold Guarding.remedy
    dsimp only
    split
    · split
      · refine VisitM.Succeeds.path.then_ fun path => ?_
        split
        · exact (Guarding.noteConstruction_succeeds message _ _).then_ fun _ => .pure trivial
        · exact .pure trivial
      · exact .pure trivial
    · exact .pure trivial
  leave _ := .pure trivial

section

variable {env : PassEnv} (standard : env.splicer = .standard)
include standard

theorem runApart_succeeds {σ : Type} {remedy : Remedy σ} (h : remedy.Succeeds) (own : σ)
    (path : Path) (block : Block) : PassM.Succeeds (runApart env remedy own path block) := by
  refine VisitM.Succeeds.then_ (fun site hsite => ?_) fun _ => .pure trivial
  obtain ⟨out, inner, run, -, -⟩ := Visitor.run_succeeds (fun _ n hc => hc.push n)
    (fun _ hc => hc.pop) (Remedy.visitor_succeeds standard h) (.block block)
    ⟨.ofPath path, site.next, own⟩ (Cursor.sound_ofPath path)
  refine ⟨(out, inner.cursor, inner.own), { site with next := inner.next }, ?_, hsite, trivial⟩
  unfold PassM.apart
  rw [run]

theorem guardPaths_succeeds {settings : PathSettings}
    (message : ¬ Template.opening <:+: settings.guardMessage.toList) (block : Block) :
    PassM.Succeeds (guardPaths env settings block) := by
  unfold guardPaths
  refine VisitM.Succeeds.path.then_ fun path => ?_
  dsimp only
  split
  · exact .pure trivial
  refine (runApart_succeeds standard (Normalize.remedy_succeeds env _) () path block).then_ ?_
  intro h
  obtain ⟨normalized, fileImports, _⟩ := h
  refine VisitM.Succeeds.then_ (.fresh fun _ => trivial) fun path => ?_
  dsimp only
  split
  · exact .pure trivial
  refine (runApart_succeeds standard (Guarding.remedy_succeeds env message _) 0 path
    normalized).then_ ?_
  intro h
  obtain ⟨guarded, guardImports, count⟩ := h
  dsimp only
  split
  · exact .pure trivial
  refine (PassM.requestImports_succeeds _).then_ fun _ => ?_
  exact (PassM.requestImports_succeeds _).then_ fun _ => .pure trivial

theorem completeBody_succeeds (block : Block) : PassM.Succeeds (completeBody env block) := by
  unfold completeBody
  refine VisitM.Succeeds.path.then_ fun path => ?_
  refine (runApart_succeeds standard (PartialPath.remedy_succeeds env) () path block).then_ ?_
  intro h
  obtain ⟨completed, imports, _⟩ := h
  dsimp only
  split
  · exact .pure trivial
  · exact (PassM.requestImports_succeeds _).then_ fun _ => .pure trivial

theorem treatBody_succeeds {settings : PathSettings}
    (message : ¬ Template.opening <:+: settings.guardMessage.toList) (block : Block) {descend : PassM Unit Node}
    (h : PassM.Succeeds descend) : PassM.Succeeds (treatBody env settings block descend) := by
  have treated : ∀ completed : Block, PassM.Succeeds (do
      if !completed.same block then return .block completed
      let walked ← descend
      if walked.same (.block block) then return .block (← guardPaths env settings block)
      else return walked : PassM Unit Node) := by
    intro completed
    split
    · exact .pure trivial
    · refine h.then_ fun walked => ?_
      split
      · exact (guardPaths_succeeds standard message block).then_ fun _ => .pure trivial
      · exact .pure trivial
  unfold treatBody
  split
  · exact (completeBody_succeeds standard block).then_ treated
  · exact treated block

theorem visitor_succeeds {settings : PathSettings}
    (message : ¬ Template.opening <:+: settings.guardMessage.toList) :
    (visitor env settings).Succeeds Cursor.Sound := by
  intro n descend hdescend
  unfold visitor
  dsimp only
  split
  · refine VisitM.Succeeds.path.then_ fun path => ?_
    split
    · exact treatBody_succeeds standard message _ hdescend
    · exact hdescend
  · exact hdescend

end

end PathTraversal

/-! ## The catalog -/

/-- The descriptors that pass validation can be read. -/
theorem mapM_readSignature [GlobCompiler] {descriptors : List String}
    (h : descriptors.forM (fun descriptor => discard (readSignature descriptor)) = .ok ()) :
    ∃ signatures, descriptors.mapM readSignature = .ok signatures := by
  induction descriptors with
  | nil => exact ⟨[], rfl⟩
  | cons descriptor rest ih =>
    cases read : readSignature descriptor with
    | error e =>
      simp only [List.forM, read] at h
      cases h
    | ok signature =>
      simp only [List.forM, read] at h
      obtain ⟨signatures, hrest⟩ := ih h
      exact ⟨signature :: signatures, by rw [List.mapM_cons, read, hrest]; rfl⟩

theorem RemediationSettings.mapM_readSignature_of_valid [GlobCompiler]
    {settings : RemediationSettings}
    (h : settings.validate = .ok ()) :
    ∃ signatures, settings.userInput.mapM readSignature = .ok signatures := by
  apply mapM_readSignature
  unfold RemediationSettings.validate at h
  cases hstem : validateStem settings.variableStem with
  | error e => rw [hstem] at h; cases h
  | ok _ =>
    rw [hstem] at h
    cases hread : settings.userInput.forM fun descriptor => discard (readSignature descriptor) with
    | error e =>
      simp only [hread] at h
      cases h
    | ok _ => rfl

/-- The settings of a path traversal can be put together: its descriptors can be
read, and no placeholder starts in the message of its guards. -/
def Remediation.Ready [GlobCompiler] : Remediation → Prop
  | pathTraversal userInput _ _ guardMessage =>
    ¬ Template.opening <:+: guardMessage.toList ∧ ∃ signatures, userInput.mapM readSignature = .ok signatures
  | _ => True

/-- The pass of a remediation can be made, and it succeeds on every unit. -/
theorem Remediation.pass_succeeds [GlobCompiler] {r : Remediation} (ready : r.Ready) (id : String)
    {settings : RemediationSettings} (valid : settings.validate = .ok ()) {env : PassEnv}
    (standard : env.splicer = .standard) :
    ∃ pass, r.pass id settings env = .ok pass ∧ pass.Succeeds := by
  cases r with
  | pathTraversal userInput stem fixPartialPath guardMessage =>
    obtain ⟨message, own, hown⟩ := ready
    obtain ⟨added, hadded⟩ := RemediationSettings.mapM_readSignature_of_valid valid
    simp only [Remediation.pass, Remediation.pathSettings, List.mapM_append, hown, hadded]
    exact ⟨_, rfl, Visitor.pass_succeeds (PathTraversal.visitor_succeeds standard message) ()⟩
  | cookieSecure => exact ⟨_, rfl, Remedy.pass_succeeds standard (Cookie.remedy_succeeds env) _⟩
  | secureRandom => exact ⟨_, rfl, Remedy.pass_succeeds standard (Random.remedy_succeeds env) _⟩
  | secureRandomSeed => exact ⟨_, rfl, Remedy.pass_succeeds standard (Seed.remedy_succeeds env) _⟩
  | xmlInputFactory =>
    exact ⟨_, rfl, Remedy.pass_succeeds standard (XmlInput.remedy_succeeds env _) _⟩
  | documentBuilderFactory =>
    exact ⟨_, rfl, Remedy.pass_succeeds standard (DocumentBuilder.remedy_succeeds env _) _⟩
  | transformerFactory =>
    exact ⟨_, rfl, Remedy.pass_succeeds standard (Transformer.remedy_succeeds env) _⟩
  | secureTempFile => exact ⟨_, rfl, Remedy.pass_succeeds standard (TempFile.remedy_succeeds env) _⟩
  | tempDirectory =>
    exact ⟨_, rfl, Remedy.pass_succeeds standard (TempDirectory.remedy_succeeds env) _⟩
  | randomStringUtils =>
    exact ⟨_, rfl, Remedy.pass_succeeds standard (RandomString.remedy_succeeds env) _⟩
  | privilegedCode =>
    exact ⟨_, rfl, Remedy.pass_succeeds standard (Privileged.remedy_succeeds env id) _⟩

/-- Every entry of the built-in catalog is ready. -/
theorem Catalog.builtin_ready [GlobCompiler] :
    ∀ entry ∈ Catalog.builtin.entries, entry.remediation.Ready := by
  have read : (["java.util.zip.ZipEntry getName()",
      "org.apache.commons.compress.archivers.zip.ZipArchiveEntry getName()"].mapM
        readSignature).toOption.isSome := rfl
  intro entry hentry
  simp only [Catalog.builtin, List.mem_cons, List.not_mem_nil, or_false] at hentry
  rcases hentry with rfl | rfl | rfl | rfl | rfl | rfl | rfl | rfl | rfl | rfl | rfl
  · refine ⟨plain_badZipEntry, ?_⟩
    cases h : ["java.util.zip.ZipEntry getName()",
      "org.apache.commons.compress.archivers.zip.ZipArchiveEntry getName()"].mapM
        readSignature with
    | error e => rw [h] at read; cases read
    | ok signatures => exact ⟨signatures, rfl⟩
  all_goals trivial

end JavaMend
