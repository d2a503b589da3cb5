import JavaMend.Proofs.Remedy.Apart
import JavaMend.Proofs.Remedy.Success

/-!
# Entries of a catalog under a regime

A regime supports a remediation if the visits of its pass keep to it
(`Regime.Supports`). A pass that is supported succeeds, and what it makes of a unit is
owned by the regime and is what the unit may become (`CatalogEntry.run_mends`). A
property of all passes is then one regime, with one proof for each remediation that its
fixes fit.

The first such property is that every node stands at one place. What identifies a place by
the node that stands there (a flow query remembers the places it has seen by their nodes)
relies on it, and the passes keep it (`CatalogEntry.run_distinct`): what a fix repeats it
copies, what it moves is gone from where it was, and what takes the place of an expression
is made of that expression's operands.

Path traversal is the exception. An extraction reads the new local wherever an alike
expression stood in the statement, and all these reads are one node. They are the only
nodes that its output can hold twice.
-/

namespace JavaMend

/-- The visits of the remediation's pass keep to `G`, and to `C`, `K` and `N` where path
traversal treats a body apart. -/
def Regime.Supports (G : Regime) (C : Block → Regime) (K N : Regime) (env : PassEnv) (id : String) :
    Remediation → Prop
  | .pathTraversal .. => G.hidden = newRead G.mark ∧
    ∀ settings, PathTraversal.Treats G C K N env settings
  | .cookieSecure => G.Notes (Cookie.remedy env)
  | .secureRandom => G.Notes (Random.remedy env)
  | .secureRandomSeed => G.Notes (Seed.remedy env)
  | .xmlInputFactory => ∀ dtdsRequired, G.Notes (XmlInput.remedy env dtdsRequired)
  | .documentBuilderFactory => ∀ dtdsRequired, G.Notes (DocumentBuilder.remedy env dtdsRequired)
  | .transformerFactory => G.Notes (Transformer.remedy env)
  | .secureTempFile => G.Notes (TempFile.remedy env)
  | .tempDirectory => G.Notes (TempDirectory.remedy env)
  | .randomStringUtils => G.Notes (RandomString.remedy env)
  | .privilegedCode => G.Notes (Privileged.remedy env id)

section

variable {G : Regime} {C : Block → Regime} {K N : Regime} {env : PassEnv} {unit : CompilationUnit}
  (standard : env.splicer = .standard) (lawful : G.Lawful)
  (tree : (Node.unit unit).parts (fun _ => false) = G.tree)
include standard lawful tree

/-- What a pass that is supported makes of a unit. -/
theorem Remediation.pass_mends [GlobCompiler] {r : Remediation} {id : String}
    {settings : RemediationSettings}
    {pass : Pass} (supports : G.Supports C K N env id r) (made : r.pass id settings env = .ok pass)
    {out : PassResult} {used : NodeId} (ran : pass unit G.mark = (.ok out, used)) :
    G.Owns used ((Node.unit out.unit).parts G.hidden) ∧
      ∃ changed : CompilationUnit, G.became [] (.unit unit) (.unit changed) ∧
        out.unit.classes = changed.classes := by
  have remedied {σ : Type} {remedy : Remedy σ} {own : σ} (notes : G.Notes remedy)
      (ran : (remedy.visitor env).pass own unit G.mark = (.ok out, used)) :=
    Regime.pass_mends lawful (Regime.visitor_mends lawful notes standard) tree ran
  cases r with
  | pathTraversal userInput stem fixPartialPath guardMessage =>
    obtain ⟨hides, treats⟩ := supports
    cases read : pathSettings userInput stem fixPartialPath guardMessage settings with
    | error e =>
      simp only [Remediation.pass, read] at made
      cases made
    | ok settings =>
      simp only [Remediation.pass, read] at made
      cases made
      exact Regime.pass_mends lawful
        (PathTraversal.visitor_mends standard lawful (treats settings) hides) tree ran
  | xmlInputFactory =>
    cases made
    exact remedied (supports _) ran
  | documentBuilderFactory =>
    cases made
    exact remedied (supports _) ran
  | _ =>
    cases made
    exact remedied supports ran

/-- A supported entry of the built-in catalog succeeds, and keeps to the regime. -/
theorem CatalogEntry.run_mends [GlobCompiler] {entry : CatalogEntry}
    (builtin : entry ∈ Catalog.builtin.entries)
    {settings : RemediationSettings} (valid : settings.validate = .ok ())
    (supports : G.Supports C K N env entry.id entry.remediation) :
    ∃ out used, entry.run settings env unit G.mark = (.ok out, used) ∧
      G.Owns used ((Node.unit out.unit).parts G.hidden) ∧
      ∃ changed : CompilationUnit, G.became [] (.unit unit) (.unit changed) ∧
        out.unit.classes = changed.classes := by
  obtain ⟨pass, made, succeeds⟩ := Remediation.pass_succeeds (Catalog.builtin_ready entry builtin)
    entry.id valid standard
  obtain ⟨out, used, ran⟩ := succeeds unit G.mark
  refine ⟨out, used, ?_, Remediation.pass_mends standard lawful tree supports made ran⟩
  unfold CatalogEntry.run
  rw [made]
  exact ran

end

/-! ## Nodes that stand at one place

What identifies a place by the node that stands there (a flow query remembers the
places it has seen by their nodes) relies on no node standing at two places. The
passes keep it so (`CatalogEntry.run_distinct`): what a fix repeats it copies, what it
moves is gone from where it was, and what takes the place of an expression is made of
that expression's operands. -/

/-- The regime that only accounts for nodes. -/
def Regime.accounting (hidden : Expr → Bool) (tree : Multiset Node) (mark : NodeId) : Regime where
  hidden := hidden
  tree := tree
  mark := mark
  fits _ _ := True
  became _ _ _ := True
  segment _ _ _ := True

section

variable {hidden : Expr → Bool} {tree : Multiset Node} {mark : NodeId}

theorem Regime.accounting_lawful (drawn : Drawn 0 mark tree) : (accounting hidden tree mark).Lawful where
  drawn := drawn
  became_self _ _ := trivial
  became_refilled _ _ _ _ _ _ := trivial
  segment_visited _ _ _ _ _ _ := trivial
  segment_step _ _ _ _ _ _ _ _ _ _ _ _ _ _ _ := trivial
  became_repaired _ _ _ _ _ _ _ _ := trivial

theorem Regime.fitsNear_accounting {path : List Node} {fix : PendingFix} :
    (accounting hidden tree mark).FitsNear path fix :=
  fun _ _ _ _ _ => trivial

theorem Factory.fits_accounting {path : List Node} {f : Factory} {owner : Option Ty}
    {last : Option Stmt} {stmts : List Stmt} :
    f.Fits (.accounting hidden tree mark) path owner last stmts := by
  cases owner with
  | none => trivial
  | some _ => exact fun _ => trivial

theorem PathTraversal.treats_accounting (env : PassEnv) (settings : PathSettings) :
    Treats (.accounting hidden tree mark) (fun _ => .accounting hidden tree mark)
      (.accounting hidden tree mark) (.accounting hidden tree mark) env settings where
  lawful_complete _ _ drawn := Regime.accounting_lawful drawn
  lawful_split _ _ _ drawn := Regime.accounting_lawful drawn
  lawful _ _ _ drawn := Regime.accounting_lawful drawn
  completes _ _ _ := PartialPath.notes (fun _ => rfl) fun _ _ _ _ _ _ _ _ _ _ _ _ _ => trivial
  splits _ _ _ := Normalize.notes (fun _ => rfl) fun _ _ _ _ _ _ _ _ _ _ _ _ _ _ => trivial
  guards _ _ _ _ := Guarding.notes newRead_covers fun _ _ _ _ _ _ _ _ _ _ _ _ _ _ _ _ _ _ _ => trivial
  completed _ _ _ _ _ := trivial
  guarded _ _ _ _ _ _ _ _ _ := trivial

/-- The expressions that the output of a remediation can hold at two places, if the ids
from `mark` on are new. -/
def Remediation.repeats (mark : NodeId) : Remediation → Expr → Bool
  | pathTraversal .. => newRead mark
  | _ => fun _ => false

theorem Remediation.supports_accounting (env : PassEnv) (id : String) (r : Remediation) :
    (Regime.accounting (r.repeats mark) tree mark).Supports
      (fun _ => .accounting (r.repeats mark) tree mark) (.accounting (r.repeats mark) tree mark)
      (.accounting (r.repeats mark) tree mark) env id r := by
  cases r with
  | pathTraversal => exact ⟨rfl, PathTraversal.treats_accounting env⟩
  | cookieSecure =>
    refine Cookie.notes (fun _ => rfl) ?_ ?_ <;> (intros; exact Regime.fitsNear_accounting)
  | secureRandom =>
    refine Random.notes (fun _ => rfl) ?_
    intros
    exact Regime.fitsNear_accounting
  | secureRandomSeed => exact Seed.notes fun _ _ _ _ _ _ => trivial
  | xmlInputFactory =>
    exact fun _ => XmlInput.notes fun _ _ _ _ _ _ _ _ _ => Factory.fits_accounting
  | documentBuilderFactory =>
    exact fun _ => DocumentBuilder.notes fun _ _ _ _ _ _ _ _ _ _ _ => Factory.fits_accounting
  | transformerFactory => exact Transformer.notes fun _ _ _ _ _ _ _ _ _ => Factory.fits_accounting
  | secureTempFile =>
    refine TempFile.notes (fun _ => rfl) ?_
    intros
    exact Regime.fitsNear_accounting
  | tempDirectory =>
    exact TempDirectory.notes (fun _ => rfl) (fun _ _ _ _ _ _ _ _ => trivial)
      fun _ _ _ _ _ => trivial
  | randomStringUtils =>
    refine RandomString.notes (fun _ => rfl) ?_ (fun _ _ _ _ _ _ _ => trivial)
      (fun _ _ _ _ _ _ _ _ => trivial) fun _ _ _ _ _ _ => trivial
    intros
    exact Regime.fitsNear_accounting
  | privilegedCode => exact Privileged.notes id

end

/-- What the pass of a remediation makes has no node at two places, the reads of locals that
path traversal declares apart. -/
theorem Remediation.pass_drawn [GlobCompiler] {r : Remediation} {id : String}
    {settings : RemediationSettings}
    {env : PassEnv} {pass : Pass} (made : r.pass id settings env = .ok pass)
    (standard : env.splicer = .standard) {unit : CompilationUnit} {next : NodeId}
    (distinct : ((Node.unit unit).subtree.map Node.id).Nodup)
    (old : ∀ n ∈ (Node.unit unit).subtree, n.id < next) {out : PassResult} {used : NodeId}
    (ran : pass unit next = (.ok out, used)) :
    Drawn 0 used ((Node.unit out.unit).parts (r.repeats next)) := by
  have drawn : Drawn 0 next ((Node.unit unit).parts fun _ => false) := .of_distinct distinct old
  obtain ⟨⟨new, fresh, owned⟩, -⟩ := Remediation.pass_mends standard
    (Regime.accounting_lawful drawn) rfl (r.supports_accounting env id) made ran
  exact (drawn.add fresh).of_le owned

/-- Every pass of the built-in catalog succeeds and leaves no node at two places, the
reads of locals that path traversal declares apart. -/
theorem CatalogEntry.run_distinct [GlobCompiler] {entry : CatalogEntry}
    (builtin : entry ∈ Catalog.builtin.entries)
    {settings : RemediationSettings} (valid : settings.validate = .ok ()) {env : PassEnv}
    (standard : env.splicer = .standard) {unit : CompilationUnit} {next : NodeId}
    (distinct : ((Node.unit unit).subtree.map Node.id).Nodup)
    (old : ∀ n ∈ (Node.unit unit).subtree, n.id < next) :
    ∃ out used, entry.run settings env unit next = (.ok out, used) ∧
      (((Node.unit out.unit).parts (entry.remediation.repeats next)).map Node.id).Nodup ∧
      ∀ n ∈ (Node.unit out.unit).parts (entry.remediation.repeats next), n.id < used := by
  have drawn : Drawn 0 next ((Node.unit unit).parts fun _ => false) := by
    rw [Node.parts_all]
    refine ⟨Nat.zero_le _, ?_, fun n mem => ⟨Nat.zero_le _, old n (Multiset.mem_coe.mp mem)⟩⟩
    rw [Multiset.map_coe, Multiset.coe_nodup]
    exact distinct
  obtain ⟨out, used, ran, ⟨new, fresh, owned⟩, -⟩ := run_mends standard
    (Regime.accounting_lawful drawn) rfl builtin valid
    (Remediation.supports_accounting env entry.id entry.remediation)
  have made := (drawn.add fresh).of_le owned
  exact ⟨out, used, ran, made.distinct, fun n mem => (made.within n mem).2⟩

section

attribute [local instance] GlobCompiler.standard

/-- A method that makes one file twice, in one statement:
`log(new File(dir, entry.getName()), new FileOutputStream(new File(dir, entry.getName())));` -/
theorem run_distinct_twoFiles :
    let dir (id : NodeId) : Expr := ⟨id, .file, .ident "dir" none⟩
    let entry (id : NodeId) : Expr := ⟨id, .known Fqn.zipEntry, .ident "entry" none⟩
    let name (id : NodeId) : Expr :=
      ⟨id, .string, .call (some (entry (id + 1))) "getName" [] (some Jdk.zipEntryGetName)⟩
    let file (id : NodeId) : Expr :=
      ⟨id, .file, .create "File" [dir (id + 1), name (id + 2)] (some Jdk.fileOfParentAndChild)⟩
    let stream : Expr :=
      ⟨6, .known Fqn.fileOutputStream, .create "FileOutputStream" [file 11]
        (some Jdk.fileOutputStreamOfFile)⟩
    let log : Stmt := ⟨4, .expr ⟨5, .unknown, .call none "log" [file 7, stream] none⟩⟩
    let method : Stmt := ⟨2, .method ⟨[], some "void", "m",
      [.ofType .file "dir", .ofType (.known Fqn.zipEntry) "entry"], []⟩ (some ⟨3, false, [log]⟩)⟩
    let unit : CompilationUnit := ⟨0, none, [], [⟨1, ⟨[], "A", .known "A"⟩, ⟨15, false, [method]⟩⟩]⟩
    ((Node.unit unit).subtree.map Node.id).Nodup ∧ ∀ zipSlip ∈ Catalog.builtin.entries.head?,
      ∃ out used, zipSlip.run (.ofPreset .balanced) ⟨.standard, ⟨64, 8⟩, .standard⟩ unit 16 =
          (.ok out, used) ∧
        (((Node.unit out.unit).parts (newRead 16)).map Node.id).Nodup := by
  intro dir entry name file stream log method unit
  have distinct : ((Node.unit unit).subtree.map Node.id).Nodup := by decide +kernel
  refine ⟨distinct, ?_⟩
  rintro zipSlip ⟨⟩
  obtain ⟨out, used, ran, unshared, -⟩ := CatalogEntry.run_distinct List.mem_cons_self
    (by decide +kernel : (RemediationSettings.ofPreset .balanced).validate = .ok ())
    (rfl : PassEnv.splicer ⟨.standard, ⟨64, 8⟩, .standard⟩ = .standard) distinct
    (by decide +kernel : ∀ n ∈ (Node.unit unit).subtree, n.id < 16)
  exact ⟨out, used, ran, unshared⟩

end

end JavaMend
