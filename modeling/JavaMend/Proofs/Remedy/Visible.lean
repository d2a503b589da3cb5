import JavaMend.Proofs.Patch.Importing
import JavaMend.Proofs.Remedy.Informing
import JavaMend.Proofs.Remedy.Success

/-!
# What is named is visible

What a visit makes of a node names the classes that are known by then (`Retold`), whatever
the remedy, and so does what path traversal makes of a body in visits of its own. At the end
of a pass the unit gets the imports that were asked for, so every class that its output names is
one that the input names somewhere or that the output sees (`CatalogEntry.run_visible`).

Path traversal needs to see the class of files beforehand if it splits the text that another
class of files is made of, for it asks for no import there.
-/

namespace JavaMend

section

variable {σ : Type} {base known : String → Prop} {mark : NodeId} {P : Node → Prop}
  {n : Node} {path above : List Node} {env : PassEnv}

/-! ## Visits -/

/-- What a visit may make of a node, if some classes are known: it names no others, also in the
place of the node, and of a unit only what is below changes. -/
structure Retold (known : String → Prop) (mark : NodeId) (n out : Node) : Prop where
  sort : n.SameSort out
  names : out.NamesOnly known
  qualifies : n.Qualifies known out
  unit : ∀ u, n = .unit u → out.label = n.label ∧ (out = n ∨ mark ≤ out.id)

theorem Node.NamesOnly.retold (h : n.NamesOnly known) : Retold known mark n n :=
  ⟨rfl, h, qualifies_of_label rfl, fun _ _ => ⟨rfl, .inl rfl⟩⟩

theorem Retold.mono {more : String → Prop} {out : Node} (h : Retold known mark n out)
    (le : ∀ fqn, known fqn → more fqn) : Retold more mark n out where
  sort := h.sort
  names := h.names.mono le
  qualifies e at_ isName := (h.qualifies e at_ isName).imp_right fun all fqn mem => le fqn (all fqn mem)
  unit := h.unit

/-- A block that names known classes only. -/
theorem Retold.block {before after : Block} (names : (Node.block after).NamesOnly known) :
    Retold known mark (.block before) (.block after) :=
  ⟨rfl, names, fun _ none => (nomatch none), fun _ none => (nomatch none)⟩

/-- The visit makes something of the node that names what is known afterwards. -/
def Retells (base : String → Prop) (mark : NodeId) (path : List Node) (n : Node)
    (action : PassM σ Node) : Prop :=
  ∀ known, VisitM.Triple (Informed base mark known [] path) action
    fun out => AwareOf base mark known path fun more => Retold more mark n out

variable (names : ∀ m, P m → ∀ fqn ∈ m.named, base fqn)

section

include names

/-- A node around children that came back. -/
theorem settle_retells (told : Told P (n :: above)) {news : List Node}
    (children : List.Forall₂ (Retold known mark) n.children news) :
    VisitM.Triple (Informed base mark known [] path) (Visitor.settle n news : PassM σ Node)
      fun out => AwareOf base mark known path fun more => Retold more mark n out := by
  intro site out site' holds ran
  have here : n.NamesOnly known := told.1.imp fun m h fqn mem => holds.before fqn (names m h fqn mem)
  unfold Visitor.settle at ran
  split at ran
  · cases ran
    exact holds.awareOf here.retold
  · cases ran
    have refilled := n.refilled_withChildren site.next (children.imp fun _ _ h => h.sort)
    refine (holds.grow (Nat.le_succ site.next)).awareOf ⟨Node.sameSort_of_label refilled.label.symm, ?_,
      Node.qualifies_of_label refilled.label, fun _ _ => ⟨refilled.label, .inr ?_⟩⟩
    · exact .refilled (Node.namesOnly_iff.mp here).1 refilled
        (children.imp fun _ _ h => ⟨h.qualifies, h.names⟩)
    · exact Nat.le_trans holds.late (Nat.le_of_eq (n.id_withChildren site.next news).symm)

/-- A visitor that names what is known at each node, given the descent, does so on every tree. -/
theorem run_retells {v : Visitor EngineError Note σ}
    (visits : ∀ n above descend, Told P (n :: above) → Retells base mark (n :: above) n descend →
      Retells base mark (n :: above) n (v.visit n descend))
    (n : Node) (above : List Node) (told : Told P (n :: above)) :
    Retells base mark (n :: above) n (v.run n) := by
  have below : ∀ c ∈ n.children, ∀ known, VisitM.Triple (Informed base mark known [] (n :: above))
      (VisitM.inFrame c (v.run c))
      fun out => AwareOf base mark known (n :: above) fun more => Retold more mark c out := by
    intro c hc known
    refine .inFrame (run_retells visits c (n :: above) (told.child hc) known)
      (fun _ h => h.push (List.cons_ne_nil _ _) c) ?_
    rintro out site ⟨more, le, retold, holds⟩
    exact ⟨more, le, retold, holds.pop (List.cons_ne_nil _ _)⟩
  rw [Visitor.run_eq]
  refine visits n above _ told fun known => ?_
  have descends : VisitM.Triple (Informed base mark known [] (n :: above))
      (n.children.mapM fun c => VisitM.inFrame c (v.run c)) fun news =>
        AwareOf base mark known (n :: above) fun more => List.Forall₂ (Retold more mark) n.children news := by
    refine (VisitM.Triple.mapM (fun done outs => AwareOf base mark known (n :: above)
      fun more => List.Forall₂ (Retold more mark) done outs) fun done c todo outs split => ?_).mono
      (fun _ h => h.awareOf .nil) fun _ _ h => h
    refine .naming fun more => .assuming fun le => .assuming fun before => ?_
    refine (below c (split ▸ List.mem_append_right _ List.mem_cons_self) more).mono (fun _ h => h) ?_
    rintro out site ⟨world, le', retold, holds⟩
    exact ⟨world, fun fqn is => le' fqn (le fqn is),
      List.rel_append (before.imp fun _ _ h => h.mono le') (.cons retold .nil), holds⟩
  exact Informed.bind descends fun news more _ children => settle_retells names told children
termination_by sizeOf n
decreasing_by exact Node.sizeOf_lt_of_mem_children hc

/-- The visitor of a remedy that asks for the imports of what it writes. -/
theorem Remedy.visitor_retells {remedy : Remedy σ} (tells : remedy.Tells base mark P)
    (standard : env.splicer = .standard) (unchecked : base Fqn.runtimeException) (n : Node)
    (above : List Node) (descend : PassM σ Node) (told : Told P (n :: above))
    (walks : Retells base mark (n :: above) n descend) :
    Retells base mark (n :: above) n ((remedy.visitor env).visit n descend) := by
  intro known
  unfold Remedy.visitor
  refine Informed.bind (tells.enter n above told known) fun goOn more _ _ => ?_
  split
  · refine Informed.bind (walks more) fun walked more _ retold => ?_
    split
    next before after =>
      refine Informed.bind (tells.leave before above told more) fun _ more le _ => ?_
      rw [standard]
      have names : (Node.block after).NamesOnly more := retold.names.mono le
      have finish (out : Block) (more : String → Prop) (names : (Node.block out).NamesOnly more) :
          VisitM.Triple (Informed base mark more [] (.block before :: above))
            (pure (.block out) : PassM σ Node)
            fun out => AwareOf base mark more (.block before :: above) fun more =>
              Retold more mark (.block before) out :=
        .pure fun _ h => h.awareOf (.block names)
      exact fun _ _ _ holds ran => Informed.bind (repair_informs names (holds.before _ unchecked))
        (fun out more _ names => finish out more names) holds ran
    next => exact .pure fun _ h => h.awareOf retold
  · refine .pure fun _ h => h.awareOf (Node.NamesOnly.retold ?_)
    exact told.1.imp fun m is fqn mem => h.before fqn (names m is fqn mem)

end

/-! ## Bodies that are treated apart -/

namespace PathTraversal

theorem go_starts (old new : Node) (above done : List Node) (next : NodeId) :
    ∃ above', (Path.replacing.go old new above done next).1 = done ++ above' := by
  induction above generalizing old new done next with
  | nil => exact ⟨[], (List.append_nil _).symm⟩
  | cons parent above ih =>
    obtain ⟨above', made⟩ := ih parent (parent.replaceChild next old new)
      (done ++ [parent.replaceChild next old new]) (next + 1)
    refine ⟨parent.replaceChild next old new :: above', ?_⟩
    rw [Path.replacing.go]
    exact made.trans (by rw [List.append_assoc]; rfl)

/-- A path that ends at a block ends at the one that takes its place. -/
theorem onBlock_starts (block other : Block) (above : List Node) (next : NodeId) :
    ∃ above', ((⟨.block block :: above⟩ : Path).onBlock other next).1 = ⟨.block other :: above'⟩ := by
  obtain ⟨above', made⟩ := go_starts (.block block) (.block other) above [.block other] next
  refine ⟨above', ?_⟩
  have whole : ((⟨.block block :: above⟩ : Path).upTo (above.length + 1)).outward = .block block :: above := by
    simp [Path.upTo, Path.length]
  have inside : above.length < (⟨.block block :: above⟩ : Path).length := Nat.lt_succ_self _
  show ((⟨.block block :: above⟩ : Path).replacing above.length (.block other) next).1 = _
  unfold Path.replacing
  rw [whole]
  simp only [inside, if_true]
  exact congrArg Path.mk made

variable (standard : env.splicer = .standard)

include standard in
/-- What a visit apart makes of a body names the classes that are known to it, and those that it
asks for. -/
theorem runApart_informs {world : String → Prop} {Q : Node → Prop}
    (names : ∀ m, Q m → ∀ fqn ∈ m.named, world fqn) (unchecked : world Fqn.runtimeException)
    {remedy : Remedy σ} (tells : remedy.Tells world mark Q) {block : Block}
    (body : (Node.block block).All Q) (own : σ) (above : List Node) :
    VisitM.Triple (Informed base mark known [] path)
      (runApart env remedy own ⟨.block block :: above⟩ block) fun answer site =>
        (Node.block answer.1).NamesOnly (fun fqn => world fqn ∨ fqn ∈ answer.2.1.requested) ∧
          Informed base mark known [] path site := by
  intro site answer site' holds ran
  obtain ⟨⟨node, cursor, own'⟩, between, apart, done⟩ := VisitM.ok_of_bind ran
  unfold PassM.apart at apart
  split at apart
  next node inner inside =>
    cases apart
    cases done
    have told : Told Q (.block block :: above) := ⟨body, fun none => (nomatch none)⟩
    obtain ⟨more, -, retold, ended⟩ := run_retells names
      (Remedy.visitor_retells names tells standard unchecked) _ _ told world
      (Informed.ofPath holds.late) inside
    have sort := retold.sort
    cases node with
    | block out =>
      refine ⟨retold.names.mono fun fqn is => ?_, holds.supplied ended.late⟩
      show _ ∨ fqn ∈ inner.cursor.takeImports.1.requested
      rw [Cursor.requested_takeImports]
      exact (ended.asked fqn is).imp_right (Or.resolve_left · List.not_mem_nil)
    | _ => cases sort
  next => cases apart

variable {settings : PathSettings} {block : Block}
include standard names

theorem completeBody_informs (unchecked : base Fqn.runtimeException)
    (told : Told P (.block block :: above)) :
    VisitM.Triple (Informed base mark known [] (.block block :: above)) (completeBody env block)
      fun out => AwareOf base mark known (.block block :: above) fun more =>
        out.same block = false → (Node.block out).NamesOnly more := by
  unfold completeBody
  refine Informed.path_bind ?_
  refine (runApart_informs standard names unchecked (PartialPath.tells names) told.1 () above).bind
    fun ⟨completed, imports, last⟩ => .assuming fun completes => ?_
  dsimp only
  split
  next same =>
    refine .pure fun _ h => h.awareOf fun changed => ?_
    exact (Bool.eq_false_iff.mp changed same).elim
  next =>
    intro site out site' holds ran
    obtain ⟨⟨⟩, asked, requested, done⟩ := VisitM.ok_of_bind ran
    cases done
    cases requested
    refine ⟨_, fun _ => .inl, fun _ => ?_, holds.request (List.cons_ne_nil _ _)
      (List.nil_subset imports.requested)⟩
    exact completes.mono fun fqn => .imp_left (holds.before fqn)

/-- The imports of the split texts are asked for with those of the guards. -/
theorem guardPaths_informs (unchecked : base Fqn.runtimeException)
    (file : ∀ e, P (.expr e) → env.matcher.acceptsAny e Normalize.fileOfString = true → base Fqn.file)
    (told : Told P (.block block :: above)) :
    VisitM.Triple (Informed base mark known [] (.block block :: above)) (guardPaths env settings block)
      fun out => AwareOf base mark known (.block block :: above) fun more =>
        (Node.block out).NamesOnly more := by
  -- Wherever nothing comes of it, the body is what it was.
  have kept : VisitM.Triple (Informed base mark known [] (.block block :: above))
      (pure block : PassM Unit Block) fun out => AwareOf base mark known (.block block :: above)
        fun more => (Node.block out).NamesOnly more :=
    .pure fun _ h => h.awareOf (told.1.imp fun m is fqn mem => h.before fqn (names m is fqn mem))
  unfold guardPaths
  refine Informed.path_bind ?_
  dsimp only
  split
  · exact kept
  refine (runApart_informs standard names unchecked (Normalize.tells names file) told.1 () above).bind
    fun ⟨divided, fileImports, last⟩ => .assuming fun splits => ?_
  refine Informed.fresh_bind (Path.replacing_grows _ _ _) fun start => ?_
  obtain ⟨above', around⟩ := onBlock_starts block divided above start
  rw [around]
  dsimp only
  split
  · exact kept
  refine (runApart_informs standard (fun _ h => h) (.inl unchecked) (Guarding.tells fun _ h => h) splits 0
    above').bind fun ⟨guarded, guardImports, count⟩ => .assuming fun guards => ?_
  dsimp only
  split
  · exact kept
  intro site out site' holds ran
  obtain ⟨⟨⟩, asked, requested, ran⟩ := VisitM.ok_of_bind ran
  obtain ⟨⟨⟩, asked', requested', done⟩ := VisitM.ok_of_bind ran
  cases requested
  cases requested'
  cases done
  have first := holds.request (List.cons_ne_nil _ _) (List.nil_subset fileImports.requested)
  refine ⟨_, fun _ is => .inl (.inl is), ?_, first.request (List.cons_ne_nil _ _)
    (List.nil_subset guardImports.requested)⟩
  exact guards.mono fun fqn => .imp_left (.imp_left (holds.before fqn))

theorem treatBody_retells (unchecked : base Fqn.runtimeException)
    (file : ∀ e, P (.expr e) → env.matcher.acceptsAny e Normalize.fileOfString = true → base Fqn.file)
    (told : Told P (.block block :: above)) {descend : PassM Unit Node}
    (walks : Retells base mark (.block block :: above) (.block block) descend) :
    Retells base mark (.block block :: above) (.block block) (treatBody env settings block descend) := by
  intro known
  have finish (out : Block) (more : String → Prop) (names : (Node.block out).NamesOnly more) :
      VisitM.Triple (Informed base mark more [] (.block block :: above))
        (pure (.block out) : PassM Unit Node)
        fun out => AwareOf base mark more (.block block :: above) fun more =>
          Retold more mark (.block block) out :=
    .pure fun _ h => h.awareOf (.block names)
  have treats (completed : Block) (more : String → Prop)
      (names' : completed.same block = false → (Node.block completed).NamesOnly more) :
      VisitM.Triple (Informed base mark more [] (.block block :: above))
        (do
          if !completed.same block then return .block completed
          let walked ← descend
          if walked.same (.block block) then return .block (← guardPaths env settings block)
          else return walked : PassM Unit Node)
        fun out => AwareOf base mark more (.block block :: above) fun more =>
          Retold more mark (.block block) out := by
    split
    next changed => exact finish completed more (names' ((Bool.not_eq_true' _).mp changed))
    next =>
      refine Informed.bind (walks more) fun walked more _ retold => ?_
      split
      · exact Informed.bind (guardPaths_informs names standard unchecked file told)
          fun out more _ names => finish out more names
      · exact .pure fun _ h => h.awareOf retold
  unfold treatBody
  split
  · exact Informed.bind (completeBody_informs names standard unchecked told)
      fun completed more _ names' => treats completed more names'
  · refine treats block known fun changed => ?_
    exact (Bool.eq_false_iff.mp changed (beq_self_eq_true block.id)).elim

/-- The visitor that treats every body. -/
theorem visitor_retells (unchecked : base Fqn.runtimeException)
    (file : ∀ e, P (.expr e) → env.matcher.acceptsAny e Normalize.fileOfString = true → base Fqn.file)
    (n : Node) (above : List Node) (descend : PassM Unit Node) (told : Told P (n :: above))
    (walks : Retells base mark (n :: above) n descend) :
    Retells base mark (n :: above) n ((visitor env settings).visit n descend) := by
  intro known
  unfold visitor
  dsimp only
  split
  next block =>
    refine Informed.path_bind ?_
    split
    · exact treatBody_retells names standard unchecked file told walks known
    · exact walks known
  · exact walks known

end PathTraversal

end

/-! ## Passes -/

/-- The classes that a unit names somewhere, and those that it sees. -/
def CompilationUnit.Knows (unit : CompilationUnit) (fqn : String) : Prop :=
  fqn ∈ (Node.unit unit).mentions ∨ unit.seesType fqn = true

/-- What the pass of a visitor makes of a unit sees the classes that it names, the others than
those the unit named before. -/
theorem pass_visible {σ : Type} {v : Visitor EngineError Note σ} {own : σ} {unit : CompilationUnit}
    {next used : NodeId} {out : PassResult} (old : unit.id < next)
    (retells : Retells unit.Knows next [.unit unit] (.unit unit) (v.run (.unit unit)))
    (ran : v.pass own unit next = (.ok out, used)) :
    ∀ fqn ∈ (Node.unit out.unit).mentions,
      fqn ∈ (Node.unit unit).mentions ∨ out.unit.seesType fqn = true := by
  unfold Visitor.pass Visitor.runTree at ran
  split at ran
  next => cases ran
  next node site ended =>
    obtain ⟨more, -, retold, holds⟩ := retells _ (Informed.ofPath (Nat.le_refl next)) ended
    obtain ⟨label, new⟩ := retold.unit unit rfl
    dsimp only at ran
    split at ran
    next changed =>
      split at ran
      next same =>
        cases ran
        have back : Node.unit changed = .unit unit :=
          new.resolve_right fun late => Nat.not_lt_of_le late (Nat.lt_of_le_of_lt (Nat.le_of_eq same) old)
        cases back
        exact fun fqn mem => .inl mem
      next =>
        cases ran
        obtain ⟨package, imports⟩ := Node.Label.unit.inj label
        have asked : site.cursor.takeFindings.2.takeImports.1.requested = site.cursor.asked :=
          (Cursor.requested_takeImports _).trans (Cursor.asked_takeFindings _)
        refine Node.namesOnly_iff_mentions.mp (Node.namesOnly_iff.mpr
          ⟨fun _ none => (List.not_mem_nil none).elim, fun c mem => ?_⟩)
        have child : c ∈ (Node.unit changed).children := by
          obtain ⟨cls, inside, rfl⟩ := List.mem_map.mp mem
          have same := Regime.classes_apply site.cursor.takeFindings.2.takeImports.1 changed site.next
          exact List.mem_map_of_mem ((congrArg (cls ∈ ·) same).mp inside)
        refine (retold.names.child child).mono fun fqn is => ?_
        rcases holds.asked fqn is with (mentioned | seen) | none | requested
        · exact .inl mentioned
        · exact .inr (ImportRequests.seesType_apply _ (.inl (CompilationUnit.seesType_of_subset package
            (imports ▸ List.Subset.refl _) seen)))
        · cases none
        · exact .inr (ImportRequests.seesType_apply _ (.inr (asked ▸ requested)))
    next other =>
      have sort := retold.sort
      cases node with
      | unit changed => exact (other changed rfl).elim
      | _ => cases sort

/-- The expressions for which the remediation may split a text without asking for the class of
files: files that are made of a text, of that class or one below it. -/
def Remediation.splitsFile (matcher : CallMatcher) : Remediation → Expr → Bool
  | pathTraversal .., e => matcher.acceptsAny e PathTraversal.Normalize.fileOfString
  | _, _ => false

theorem Remediation.pass_visible [GlobCompiler] {r : Remediation} {id : String}
    {settings : RemediationSettings}
    {env : PassEnv} {pass : Pass} (made : r.pass id settings env = .ok pass)
    (standard : env.splicer = .standard) {unit : CompilationUnit} {next used : NodeId} {out : PassResult}
    (old : unit.id < next)
    (files : ∀ e, .expr e ∈ (Node.unit unit).subtree → r.splitsFile env.matcher e = true →
      unit.Knows Fqn.file) (ran : pass unit next = (.ok out, used)) :
    ∀ fqn ∈ (Node.unit out.unit).mentions,
      fqn ∈ (Node.unit unit).mentions ∨ out.unit.seesType fqn = true := by
  have names : ∀ m, m ∈ (Node.unit unit).subtree → ∀ fqn ∈ m.named, unit.Knows fqn :=
    fun m below fqn mem => .inl (List.mem_flatMap.mpr ⟨m, below, mem⟩)
  have told : Told (· ∈ (Node.unit unit).subtree) [.unit unit] := ⟨fun m below => below, fun _ => trivial⟩
  have unchecked : unit.Knows Fqn.runtimeException :=
    .inr (CompilationUnit.seesType_of_lang (by decide +kernel))
  have text : unit.Knows Fqn.string := .inr (CompilationUnit.seesType_of_lang (by decide +kernel))
  have state : unit.Knows Fqn.illegalStateException :=
    .inr (CompilationUnit.seesType_of_lang (by decide +kernel))
  have remedied {σ : Type} {remedy : Remedy σ} {own : σ}
      (tells : remedy.Tells unit.Knows next (· ∈ (Node.unit unit).subtree))
      (ran : (remedy.visitor env).pass own unit next = (.ok out, used)) :=
    JavaMend.pass_visible old (run_retells names
      (Remedy.visitor_retells names tells standard unchecked) _ [] told) ran
  cases r with
  | pathTraversal userInput stem fixPartialPath guardMessage =>
    cases read : pathSettings userInput stem fixPartialPath guardMessage settings with
    | error e =>
      simp only [Remediation.pass, read] at made
      cases made
    | ok settings =>
      simp only [Remediation.pass, read] at made
      cases made
      exact JavaMend.pass_visible old (run_retells names
        (PathTraversal.visitor_retells names standard unchecked files) _ [] told) ran
  | documentBuilderFactory =>
    cases made
    exact remedied (DocumentBuilder.tells names text state _) ran
  | cookieSecure => cases made; exact remedied (Cookie.tells names) ran
  | secureRandom => cases made; exact remedied (Random.tells names) ran
  | secureRandomSeed => cases made; exact remedied (Seed.tells names) ran
  | xmlInputFactory => cases made; exact remedied (XmlInput.tells names _) ran
  | transformerFactory => cases made; exact remedied (Transformer.tells names) ran
  | secureTempFile => cases made; exact remedied (TempFile.tells names) ran
  | tempDirectory => cases made; exact remedied (TempDirectory.tells names) ran
  | randomStringUtils => cases made; exact remedied (RandomString.tells names) ran
  | privilegedCode => cases made; exact remedied (Privileged.tells id) ran

/-- Every pass of the built-in catalog succeeds, and the unit that it makes sees every class that
it names and the unit before did not name; path traversal does if the class of files is named or
seen wherever some expression makes a file of a text. -/
theorem CatalogEntry.run_visible [GlobCompiler] {entry : CatalogEntry}
    (builtin : entry ∈ Catalog.builtin.entries)
    {settings : RemediationSettings} (valid : settings.validate = .ok ()) {env : PassEnv}
    (standard : env.splicer = .standard) {unit : CompilationUnit} {next : NodeId}
    (old : unit.id < next)
    (files : ∀ e, .expr e ∈ (Node.unit unit).subtree →
      entry.remediation.splitsFile env.matcher e = true → unit.Knows Fqn.file) :
    ∃ out used, entry.run settings env unit next = (.ok out, used) ∧
      ∀ fqn ∈ (Node.unit out.unit).mentions,
        fqn ∈ (Node.unit unit).mentions ∨ out.unit.seesType fqn = true := by
  obtain ⟨pass, made, succeeds⟩ := Remediation.pass_succeeds (Catalog.builtin_ready entry builtin)
    entry.id valid standard
  obtain ⟨out, used, ran⟩ := succeeds unit next
  refine ⟨out, used, ?_, Remediation.pass_visible made standard old files ran⟩
  unfold run
  rw [made]
  exact ran

section

attribute [local instance] GlobCompiler.standard

/-- A method that opens a stream on a text, which becomes a file:
`void m(String dir, ZipEntry entry) { new FileOutputStream(dir + "/" + entry.getName()); }` -/
theorem run_visible_stream :
    let dir : Expr := ⟨8, .string, .ident "dir" none⟩
    let entry : Expr := ⟨11, .known Fqn.zipEntry, .ident "entry" none⟩
    let name : Expr := ⟨10, .string, .call (some entry) "getName" [] (some Jdk.zipEntryGetName)⟩
    let start : Expr := ⟨7, .string, .binary .add dir ⟨9, .string, .literal (.string "/")⟩⟩
    let path : Expr := ⟨6, .string, .binary .add start name⟩
    let stream : Expr :=
      ⟨5, .known Fqn.fileOutputStream, .create "FileOutputStream" [path] (some Jdk.fileOutputStreamOfString)⟩
    let method : Stmt := ⟨2, .method ⟨[], some "void", "m",
      [.ofType .string "dir", .ofType (.known Fqn.zipEntry) "entry"], []⟩
      (some ⟨3, false, [⟨4, .expr stream⟩]⟩)⟩
    let unit : CompilationUnit := ⟨0, none, [⟨Fqn.zipEntry, false⟩, ⟨Fqn.fileOutputStream, false⟩],
      [⟨1, ⟨[], "A", .known "A"⟩, ⟨12, false, [method]⟩⟩]⟩
    ∀ zipSlip ∈ Catalog.builtin.entries.head?, (∀ e, .expr e ∈ (Node.unit unit).subtree →
        zipSlip.remediation.splitsFile .standard e = true → unit.Knows Fqn.file) ∧
      ∃ out used, zipSlip.run (.ofPreset .balanced) ⟨.standard, ⟨64, 8⟩, .standard⟩ unit 13 =
          (.ok out, used) ∧
        ∀ fqn ∈ (Node.unit out.unit).mentions,
          fqn ∈ (Node.unit unit).mentions ∨ out.unit.seesType fqn = true := by
  intro dir entry name start path stream method unit
  rintro zipSlip ⟨⟩
  have streams : ∀ m ∈ (Node.unit unit).subtree, ∀ e ∈ m.expr?,
      CallMatcher.standard.acceptsAny e PathTraversal.Normalize.fileOfString = false := by decide +kernel
  have files : ∀ e, .expr e ∈ (Node.unit unit).subtree →
      CallMatcher.standard.acceptsAny e PathTraversal.Normalize.fileOfString = true →
      unit.Knows Fqn.file := fun e below made =>
    (Bool.false_ne_true ((streams _ below e rfl).symm.trans made)).elim
  exact ⟨files, CatalogEntry.run_visible List.mem_cons_self
    (by decide +kernel : (RemediationSettings.ofPreset .balanced).validate = .ok ())
    (rfl : PassEnv.splicer ⟨.standard, ⟨64, 8⟩, .standard⟩ = .standard)
    (by decide : unit.id < 13) files⟩

end

end JavaMend
