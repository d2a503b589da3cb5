import JavaMend.Proofs.Remedy.Hardening

/-!
# Factories that are hardened twice

The passes for `XMLInputFactory` and `TransformerFactory` are hardenings: what the calls
on a factory leave open is a matter of which calls there are, and the call that is made
for a setting closes it (`XmlInput.hardening_lawful`, `Transformer.hardening_lawful`).
That is all it takes for a pass to find nothing to do in what it made
(`CatalogEntry.run_hardened`).

Two factories of one declaration are the exception. Both are to be configured behind it,
and only what is noted last is written there; the next pass writes the rest.
-/

namespace JavaMend

/-- A copy of a read is a new read. -/
theorem Expr.freshCopy_ident (id : NodeId) (ty : Ty) (name : String) (owner : Option Ty) :
    Expr.freshCopy ⟨id, ty, .ident name owner⟩ = Expr.make (.ident name owner) ty := by
  rw [freshCopy_eq]
  rfl

/-- A call on a read of the variable of a factory is a call on the factory. -/
theorem Factory.isReceiverOf_read (f : Factory) (owner : Option Ty) (id id' : NodeId) (ty ty' : Ty)
    (name : String) (args : List Expr) (method : Option MethodRef) :
    (f.receiver owner).isReceiverOf
      ⟨id, ty, .call (some ⟨id', ty', .ident f.held.name owner⟩) name args method⟩ = true := by
  cases owner with
  | none => exact beq_self_eq_true _
  | some _ => exact beq_self_eq_true _

namespace XmlInput

/-- How a factory is hardened. -/
def hardening (dtdsRequired : Bool) : Hardening where
  Item := Property
  creation := creation
  shapes := setProperty
  leftOpen := fun calls => leftOpen .standard calls dtdsRequired
  make := mkDisable
  imports := [Fqn.xmlInputFactory]

theorem protect_eq {env : PassEnv} (standard : env.matcher = .standard) (dtdsRequired : Bool) :
    protect env dtdsRequired = (hardening dtdsRequired).protect := by
  funext path f
  unfold protect Hardening.protect Hardening.missing
  dsimp only [hardening]
  rw [standard]
  cases leftOpen .standard (f.calls path.bodyOwner? (f.surroundings path.bodyOwner? path))
    dtdsRequired <;> rfl

theorem remedy_appends {env : PassEnv} (standard : env.matcher = .standard) (dtdsRequired : Bool) :
    (remedy env dtdsRequired).Appends (hardening dtdsRequired).plan := by
  refine Hardening.appends (fun _ => rfl) fun b => ?_
  unfold remedy
  rw [standard, protect_eq standard]
  rfl

/-- What is left open: what no call switches off, and the definitions only if nobody takes
care of them. -/
theorem mem_leftOpen {calls : List Expr} {dtdsRequired : Bool} {property : Property} :
    property ∈ leftOpen .standard calls dtdsRequired ↔
      (∀ call ∈ calls, CallMatcher.standard.acceptsAny call setProperty = true →
        sets property false call = false) ∧
      (property = .supportDtd → dtdsRequired = false ∧ ∀ call ∈ calls,
        (CallMatcher.standard.acceptsAny call setProperty = true → sets property true call = false) ∧
          CallMatcher.standard.acceptsAny call setResolver = false) := by
  unfold leftOpen
  cases property with
  | externalEntities => simp
  | supportDtd =>
    simp
    grind

theorem accepts_setProperty {e : Expr} (method : e.method? = some Jdk.xmlInputFactorySetProperty) :
    CallMatcher.standard.acceptsAny e setProperty = true := by
  have accepted : (setProperty.any (·.accepts Jdk.xmlInputFactorySetProperty)) = true := by decide +kernel
  exact (CallMatcher.acceptsAny_of_method method).trans accepted

/-- What is made for a property: a call on the factory that switches it off. -/
theorem disables_of_made {dtdsRequired : Bool} {f : Factory} {owner : Option Ty} {property : Property}
    {s : Stmt} (made : (hardening dtdsRequired).Made f owner property s) :
    ∃ call key value, s.form = .expr call ∧ (f.receiver owner).isReceiverOf call = true ∧
      CallMatcher.standard.acceptsAny call setProperty = true ∧ call.args = [key, value] ∧
      Property.of? key = some property ∧ value.form = .literal (.boolean false) := by
  obtain ⟨next, next', rfl⟩ := made
  show ∃ call key value,
    (mkDisable ⟨next, f.held.ty, .ident f.held.name owner⟩ property next').1.form = _ ∧ _
  unfold mkDisable
  rw [Expr.freshCopy_ident]
  refine ⟨_, _, _, rfl, f.isReceiverOf_read .., accepts_setProperty rfl, rfl, ?_, rfl⟩
  cases property <;> rfl

theorem hardening_lawful (dtdsRequired : Bool) : (hardening dtdsRequired).Lawful where
  fewer := by
    intro calls calls' more (property : Property) left
    obtain ⟨off, dtd⟩ := mem_leftOpen.mp left
    exact mem_leftOpen.mpr ⟨fun call mem => off call (more mem), fun isDtd =>
      ⟨(dtd isDtd).1, fun call mem => (dtd isDtd).2 call (more mem)⟩⟩
  closes := by
    intro f owner (property : Property) s made
    obtain ⟨call, key, ⟨id, ty, _⟩, isCall, receives, accepted, args, names, rfl⟩ :=
      disables_of_made made
    refine ⟨call, isCall, receives, fun calls mem left => ?_⟩
    have open_ := (mem_leftOpen.mp left).1 call mem accepted
    unfold sets at open_
    rw [args] at open_
    simp [names, boolean?, Expr.unparen] at open_

end XmlInput

namespace Transformer

/-- How a factory is hardened. -/
def hardening : Hardening where
  Item := Restriction
  creation := creation
  shapes := configuration
  leftOpen := leftOpen .standard
  make := mkRestriction
  imports := [Fqn.xmlConstants]

theorem protect_eq {env : PassEnv} (standard : env.matcher = .standard) :
    protect env = hardening.protect := by
  funext path f
  unfold protect Hardening.protect Hardening.missing
  dsimp only [hardening]
  rw [standard]
  cases leftOpen .standard (f.calls path.bodyOwner? (f.surroundings path.bodyOwner? path)) <;> rfl

theorem remedy_appends {env : PassEnv} (standard : env.matcher = .standard) :
    (remedy env).Appends hardening.plan := by
  refine Hardening.appends (fun _ => rfl) fun b => ?_
  unfold remedy
  rw [standard, protect_eq standard]
  rfl

/-- What is left open: what no call makes, unless some call opens the factory up. -/
theorem mem_leftOpen {calls : List Expr} {restriction : Restriction} :
    restriction ∈ leftOpen .standard calls ↔ ∀ call ∈ calls,
      CallMatcher.standard.acceptsAny call configuration = true →
        opens call = false ∧ restrictionOf? call ≠ some restriction := by
  unfold leftOpen
  cases restriction <;> simp [Restriction.all] <;> grind

theorem accepts_configuration {e : Expr} {method : MethodRef} (isMethod : e.method? = some method)
    (configures : method = Jdk.transformerFactorySetFeature ∨
      method = Jdk.transformerFactorySetAttribute) :
    CallMatcher.standard.acceptsAny e configuration = true := by
  have accepted : (configuration.any (·.accepts Jdk.transformerFactorySetFeature)) = true ∧
    (configuration.any (·.accepts Jdk.transformerFactorySetAttribute)) = true := by decide +kernel
  rw [CallMatcher.acceptsAny_of_method isMethod]
  rcases configures with rfl | rfl
  · exact accepted.1
  · exact accepted.2

theorem hardening_lawful : hardening.Lawful where
  fewer := by
    intro calls calls' more (restriction : Restriction) left
    exact mem_leftOpen.mpr fun call mem => mem_leftOpen.mp left call (more mem)
  closes := by
    rintro f owner (restriction : Restriction) s ⟨next, next', rfl⟩
    show hardening.Closes f owner restriction
      (mkRestriction ⟨next, f.held.ty, .ident f.held.name owner⟩ restriction next').1
    unfold mkRestriction
    rw [Expr.freshCopy_ident]
    have closes {call : Expr} (accepted : CallMatcher.standard.acceptsAny call configuration = true)
        (makes : restrictionOf? call = some restriction) {calls : List Expr} (mem : call ∈ calls) :
        restriction ∉ leftOpen .standard calls :=
      fun left => (mem_leftOpen.mp left call mem accepted).2 makes
    cases restriction with
    | secureProcessing =>
      exact ⟨_, rfl, f.isReceiverOf_read .., fun _ => closes (accepts_configuration rfl (.inl rfl)) rfl⟩
    | externalDtd =>
      exact ⟨_, rfl, f.isReceiverOf_read .., fun _ => closes (accepts_configuration rfl (.inr rfl)) rfl⟩
    | externalStylesheet =>
      exact ⟨_, rfl, f.isReceiverOf_read .., fun _ => closes (accepts_configuration rfl (.inr rfl)) rfl⟩

end Transformer

/-! ## The second pass -/

namespace Hardening

variable {H : Hardening}

/-- A hardened unit lacks nothing, whatever it imports. -/
theorem idle_unit {unit changed out : CompilationUnit} (lawful : H.Lawful)
    (h : Node.Appended H.plan [] (.unit unit) (.unit changed)) (same : out.classes = changed.classes)
    (single : (Node.unit unit).All fun m => ∀ b, m = .block b → H.Single b) :
    Node.Idle H.plan [] (.unit out) := by
  cases h with
  | around open_ pairs label before after visited =>
    refine .intro (fun b at_ => nomatch at_) fun c mem => ?_
    have mem : c ∈ (Node.unit changed).children := by
      show c ∈ changed.classes.map .cls
      rw [← same]
      exact mem
    rw [after] at mem
    obtain ⟨p, hp, rfl⟩ := List.mem_map.mp mem
    exact idle_of_appended lawful (visited p hp)
      (single.child (before ▸ List.mem_map_of_mem hp)) rfl

/-- The blocks of a unit without shared nodes. -/
theorem single_of_distinct {n : Node} (distinct : (n.subtree.map Node.id).Nodup)
    (single : ∀ s, .stmt s ∈ n.subtree → (Factory.ofDeclaration .standard H.creation s []).length ≤ 1) :
    n.All fun m => ∀ b, m = .block b → H.Single b := by
  rintro _ inside b rfl
  refine ⟨Node.distinct_stmts (Node.distinct_below distinct inside), fun s mem => single s ?_⟩
  exact Node.subtree_trans inside
    (Node.mem_subtree_of_child (List.mem_map_of_mem mem) Node.mem_subtree_self)

/-- A pass that hardens finds nothing to do in what it made. -/
theorem pass_twice (lawful : H.Lawful) {remedy : Remedy Unit} (appends : remedy.Appends H.plan)
    (succeeds : remedy.Succeeds)
    (notes : ∀ tree mark, (Regime.accounting (fun _ => false) tree mark).Notes remedy)
    {env : PassEnv} (standard : env.splicer = .standard) {unit : CompilationUnit} {next : NodeId}
    (distinct : ((Node.unit unit).subtree.map Node.id).Nodup)
    (old : ∀ n ∈ (Node.unit unit).subtree, n.id < next)
    (single : ∀ s, .stmt s ∈ (Node.unit unit).subtree →
      (Factory.ofDeclaration .standard H.creation s []).length ≤ 1) :
    ∃ out used, (remedy.visitor env).pass () unit next = (.ok out, used) ∧
      ∀ next' ≥ used, ∃ again used', (remedy.visitor env).pass () out.unit next' = (.ok again, used') ∧
        again.unit = out.unit := by
  obtain ⟨out, used, changed, ran, drawn, appended, classes, -⟩ :=
    appends.succeeds succeeds notes standard (.of_distinct distinct old)
  refine ⟨out, used, ran, fun next' later => ?_⟩
  have idle := idle_unit lawful appended classes (single_of_distinct distinct single)
  obtain ⟨again, used', changed', ran', -, appended', -, kept⟩ :=
    appends.succeeds succeeds notes standard (drawn.mono (Nat.le_refl _) later)
  exact ⟨again, used', ran', kept (Node.unit.inj (appended'.eq_of_idle idle))⟩

end Hardening

/-- The methods whose results an entry hardens. -/
def Remediation.hardened? : Remediation → Option (List Signature)
  | xmlInputFactory => some XmlInput.creation
  | transformerFactory => some Transformer.creation
  | _ => none

/-- An entry that hardens `XMLInputFactory` or `TransformerFactory` leaves alone what it
made, if no node is there twice and no declaration initializes two such factories. -/
theorem CatalogEntry.run_hardened [GlobCompiler] {entry : CatalogEntry} {creation : List Signature}
    (hardens : entry.remediation.hardened? = some creation) (settings : RemediationSettings)
    {env : PassEnv} (matches_ : env.matcher = .standard) (standard : env.splicer = .standard)
    {unit : CompilationUnit} {next : NodeId} (distinct : ((Node.unit unit).subtree.map Node.id).Nodup)
    (old : ∀ n ∈ (Node.unit unit).subtree, n.id < next)
    (single : ∀ s, .stmt s ∈ (Node.unit unit).subtree →
      (Factory.ofDeclaration .standard creation s []).length ≤ 1) :
    ∃ out used, entry.run settings env unit next = (.ok out, used) ∧
      ∀ next' ≥ used, ∃ again used', entry.run settings env out.unit next' = (.ok again, used') ∧
        again.unit = out.unit := by
  unfold CatalogEntry.run
  cases kind : entry.remediation with
  | xmlInputFactory =>
    rw [kind] at hardens
    cases hardens
    exact Hardening.pass_twice (XmlInput.hardening_lawful _) (XmlInput.remedy_appends matches_ _)
      (XmlInput.remedy_succeeds env _)
      (fun _ _ => XmlInput.notes fun _ _ _ _ _ _ _ _ _ => Factory.fits_accounting)
      standard distinct old single
  | transformerFactory =>
    rw [kind] at hardens
    cases hardens
    exact Hardening.pass_twice Transformer.hardening_lawful (Transformer.remedy_appends matches_)
      (Transformer.remedy_succeeds env)
      (fun _ _ => Transformer.notes fun _ _ _ _ _ _ _ _ _ => Factory.fits_accounting)
      standard distinct old single
  | _ =>
    rw [kind] at hardens
    cases hardens

section

attribute [local instance] GlobCompiler.standard

/-- A class with a field and a local that are new factories, the local with one setting:
`static TransformerFactory shared = TransformerFactory.newInstance();` and
`TransformerFactory own = TransformerFactory.newInstance(); own.setFeature(SECURE, true);` -/
theorem CatalogEntry.run_hardened_fieldAndLocal :
    let ty : Ty := .known Fqn.transformerFactory
    let creation (id : NodeId) : Expr := ⟨id, ty,
      .call (some ⟨id + 1, ty, .ident "TransformerFactory" none⟩) "newInstance" []
        (some Jdk.transformerFactoryNewInstance)⟩
    let declares (id : NodeId) (modifiers : List Modifier) (name : String) : Stmt :=
      ⟨id, .declare ⟨modifiers, "TransformerFactory", [⟨id + 1, name, ty, some (creation (id + 2))⟩]⟩⟩
    let secures (id : NodeId) (name : String) : Stmt := ⟨id, .expr ⟨id + 1, .void,
      .call (some ⟨id + 2, ty, .ident name none⟩) "setFeature"
        [⟨id + 3, .string, .literal (.string Transformer.Restriction.secureProcessing.key)⟩,
          ⟨id + 4, .boolean, .literal (.boolean true)⟩] (some Jdk.transformerFactorySetFeature)⟩⟩
    let method (id : NodeId) : Stmt := ⟨id, .method ⟨[], some "void", "m", [], []⟩
      (some ⟨id + 1, false, [declares (id + 2) [] "own", secures (id + 6) "own"]⟩)⟩
    let unit : CompilationUnit :=
      ⟨0, none, [], [⟨1, ⟨[], "A", .known "A"⟩, ⟨2, false, [declares 3 [.static] "shared", method 7]⟩⟩]⟩
    let entry : CatalogEntry := ⟨"transformer-factory", "", [], .transformerFactory⟩
    let env : PassEnv := ⟨.standard, ⟨64, 8⟩, .standard⟩
    ∃ out used, entry.run (.ofPreset .balanced) env unit 18 = (.ok out, used) ∧
      ∀ next' ≥ used, ∃ again used',
        entry.run (.ofPreset .balanced) env out.unit next' = (.ok again, used') ∧
          again.unit = out.unit := by
  intro ty creation declares secures method unit entry env
  have distinct : ((Node.unit unit).subtree.map Node.id).Nodup := by decide +kernel
  have old : ∀ n ∈ (Node.unit unit).subtree, n.id < 18 := by decide +kernel
  have single : ∀ n ∈ (Node.unit unit).subtree, ∀ s ∈ n.stmt?,
      (Factory.ofDeclaration .standard Transformer.creation s []).length ≤ 1 := by decide +kernel
  exact CatalogEntry.run_hardened rfl (.ofPreset .balanced) rfl rfl distinct old
    fun s mem => single _ mem s rfl

end

end JavaMend
