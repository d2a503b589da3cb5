import JavaMend.Proofs.Remedy.Featured

/-!
# Locals with the name of a field

A field that holds a factory is configured by calls, and these are found by its name, wherever
they stand in the methods and initializers of its class. A call on a local of that name is one
of them. It makes a difference: made on another variable, it is missing among the calls on the
field, and only there (`Hardening.missing_redirected`); so it is among what is said of a
`DocumentBuilderFactory` (`DocumentBuilder.mem_factsOf_redirected`). What is written for the
field stays the same if and only if the field lacks without the call what it lacks with it
(`CatalogEntry.run_redirected`).
-/

namespace JavaMend

namespace Factory

variable {call : NodeId} {name : String} {b b' : Block} {above above' : List Node} {f : Factory}

theorem classStmts_eq (b : Block) (above : List Node) : classStmts ⟨.block b :: above⟩ =
    (b.stmts.filter Path.isExecutable).flatMap fun m =>
      (Node.stmt m).children.flatMap fun c => (c.block?.map (·.stmts)).getD [] := by
  unfold classStmts Path.executedBodies
  simp only [Path.value?, List.head?_cons, List.flatMap_assoc, List.flatMap_map]
  rfl

/-- The statements of the methods and initializers, one by one. -/
theorem classStmts_redirected (h : Node.Redirected call name (.block b) (.block b')) :
    List.Forall₂ (fun s s' => Node.Redirected call name (.stmt s) (.stmt s'))
      (classStmts ⟨.block b :: above⟩) (classStmts ⟨.block b' :: above'⟩) := by
  rw [classStmts_eq, classStmts_eq]
  have executed : List.Forall₂ (fun s s' => Node.Redirected call name (.stmt s) (.stmt s'))
      (b.stmts.filter Path.isExecutable) (b'.stmts.filter Path.isExecutable) := by
    refine List.rel_filter (fun s s' became => ?_) h.stmts
    show _ = true ↔ _ = true
    rw [Path.isExecutable_of_label (became.children (.inr rfl)).2.1]
  refine List.rel_flatMap executed fun s s' became => ?_
  exact List.rel_flatMap (became.children (.inr rfl)).2.2 fun c c' became => became.block?_stmts

/-- The calls on the variables of another name, without the one call. -/
theorem calls_of_instead {es es' : List Expr} {x : String} (other : x ≠ name)
    (instead : List.Forall₂ (Node.Redirected.Instead call name) es es') :
    List.Forall₂ Expr.SameCall ((es.filter (·.receiverName? == some x)).filter (·.id != call))
      (es'.filter (·.receiverName? == some x)) := by
  rw [List.filter_filter]
  induction instead with
  | nil => exact .nil
  | @cons e e' es es' here _ ih =>
    have counts : (e'.receiverName? == some x) = (e.id != call && e.receiverName? == some x) := by
      rcases here.receiver with ⟨apart, same⟩ | ⟨at_, receiver⟩
      · simp [same, apart]
      · simp [receiver, at_, other.symm]
    rw [List.filter_cons, List.filter_cons, counts]
    split
    · exact .cons here.alike ih
    · exact ih

/-- The calls on a field are what they were, without the one call. -/
theorem calls_redirected (h : Node.Redirected call name (.block b) (.block b'))
    (other : f.held.name ≠ name) (ty : Ty) :
    List.Forall₂ Expr.SameCall
      ((f.calls (some ty) (classStmts ⟨.block b :: above⟩)).filter (·.id != call))
      (f.calls (some ty) (classStmts ⟨.block b' :: above'⟩)) :=
  calls_of_instead other <| List.rel_flatMap (classStmts_redirected h) fun _ _ became => became.exprs

/-- The factories of a class body are the same, whatever follows their declarations. -/
theorem declaredIn_redirected (creation : List Signature) {stmts stmts' : List Stmt}
    (h : List.Forall₂ (fun s s' => Node.Redirected call name (.stmt s) (.stmt s')) stmts stmts')
    (declared : ∀ s ∈ stmts, s.declaration?.isSome → ∀ m ∈ (Node.stmt s).subtree, m.id ≠ call) :
    List.Forall₂ (fun f f' => f' = { f with following := f'.following })
      (declaredIn .standard creation stmts) (declaredIn .standard creation stmts') := by
  induction h with
  | nil => exact .nil
  | @cons s s' stmts stmts' became _ ih =>
    refine List.rel_append ?_ (ih fun s mem => declared s (List.mem_cons_of_mem _ mem))
    unfold ofDeclaration
    cases isDecl : s.declaration? with
    | none =>
      have label : s'.form.blank = s.form.blank :=
        Node.Label.stmt.inj (became.children (.inr rfl)).2.1
      have none' : s'.declaration? = none := by
        unfold Stmt.declaration? at isDecl ⊢
        revert label isDecl
        cases s'.form <;> cases s.form <;> simp [StmtForm.blank]
      rw [none']
      exact .nil
    | some decl =>
      have same := became.eq_of_apart (declared s List.mem_cons_self (by rw [isDecl]; rfl))
      cases same
      rw [isDecl]
      have made (held held' : Variable) (same : held = held') :
          Option.Rel (fun f f' : Factory => f' = { f with following := f'.following })
            (do let init ← held.init
                guard (CallMatcher.standard.acceptsAny init.unparen creation)
                return ({ declaration := s, held, init, following := stmts } : Factory))
            (do let init ← held'.init
                guard (CallMatcher.standard.acceptsAny init.unparen creation)
                return ({ declaration := s, held := held', init, following := stmts' } : Factory)) := by
        subst same
        cases held.init with
        | none => exact .none
        | some init =>
          cases accepted : CallMatcher.standard.acceptsAny init.unparen creation <;> simp [accepted]
      exact List.rel_filterMap (fun {held held'} => made held held')
        (List.forall₂_same.mpr fun _ _ => rfl)

/-- The call stands in no declaration of the class body, and the new name is that of no
factory there. -/
structure Misses (creation : List Signature) (call : NodeId) (name : String) (b : Block) : Prop where
  declared : ∀ s ∈ b.stmts, s.declaration?.isSome → ∀ m ∈ (Node.stmt s).subtree, m.id ≠ call
  fresh : ∀ f ∈ declaredIn .standard creation b.stmts, f.held.name ≠ name

end Factory

/-- How an entry hardens the factories of a block. -/
structure FactoryPlan where
  creation : List Signature
  plan : Block → Path → List Addition
  /-- What is written for a factory that is declared behind others. -/
  addition? : Path → List Factory → Factory → Option Addition
  /-- Without the call, the factory lacks what it lacks with it. -/
  Spared : NodeId → Path → List Factory → Factory → Prop

namespace FactoryPlan

/-- The factories of a block, each with those before it. -/
def factories (P : FactoryPlan) (b : Block) : List (List Factory × Factory) :=
  Factory.withEarlier (Factory.declaredIn .standard P.creation b.stmts)

/-- A call on a local counts among the calls on a field with its name. -/
structure Counts (P : FactoryPlan) (call : NodeId) (b : Block) (path : Path) (b' : Block) (path' : Path) :
    Prop where
  plans : P.plan b path = (P.factories b).filterMap fun x => P.addition? path x.1 x.2
  /-- It is the same fields that are looked at. -/
  plans' : P.plan b' path' = (P.factories b).filterMap fun x => P.addition? path' x.1 x.2
  same_iff : ∀ x ∈ P.factories b,
    P.addition? path' x.1 x.2 = P.addition? path x.1 x.2 ↔ P.Spared call path x.1 x.2

end FactoryPlan

/-! ## What a class body leaves open -/

namespace Hardening

variable (H : Hardening)

/-- What is left open is a matter of what the calls say. -/
def Blind : Prop := ∀ {calls calls' : List Expr}, List.Forall₂ Expr.SameCall calls calls' →
  H.leftOpen calls' = H.leftOpen calls

/-- Settings are told apart by what is made for them. -/
def Legible : Prop := ∀ {f : Factory} {owner : Option Ty} {item item' : H.Item} {s : Stmt},
  H.Made f owner item s → H.Made f owner item' s → item = item'

/-- Without the call, the calls on a factory leave open what they do. -/
def Spared (call : NodeId) (path : Path) (f : Factory) : Prop :=
  H.leftOpen ((f.calls path.bodyOwner? (f.surroundings path.bodyOwner? path)).filter (·.id != call)) =
    H.missing path f

variable {H} {call : NodeId} {name : String} {b b' : Block} {above above' : List Node} {f : Factory}
  {ty : Ty} {path path' : Path}

/-- What a field lacks is what the other calls leave open. -/
theorem missing_redirected (blind : H.Blind) (h : Node.Redirected call name (.block b) (.block b'))
    (other : f.held.name ≠ name) (owner' : (⟨.block b' :: above'⟩ : Path).bodyOwner? = some ty) :
    H.missing ⟨.block b' :: above'⟩ f = H.leftOpen
      ((f.calls (some ty) (f.surroundings (some ty) ⟨.block b :: above⟩)).filter (·.id != call)) := by
  unfold missing
  rw [owner']
  exact blind (Factory.calls_redirected h other ty)

/-- What is written for a field is a matter of what it lacks. -/
theorem addition?_eq_of_missing (owner : path.bodyOwner? = some ty) (owner' : path'.bodyOwner? = some ty)
    (same : H.missing path' f = H.missing path f) : H.addition? path' f = H.addition? path f := by
  unfold addition?
  rw [same, owner, owner']
  split <;> rfl

/-- What a field lacks is a matter of what is written for it. -/
theorem missing_eq_of_addition? (legible : H.Legible) (owner : path.bodyOwner? = some ty)
    (owner' : path'.bodyOwner? = some ty) (same : H.addition? path' f = H.addition? path f) :
    H.missing path' f = H.missing path f := by
  cases found : H.addition? path f with
  | none =>
    have nothing {path : Path} (none : H.addition? path f = none) : H.missing path f = [] := by
      by_contra lacking
      have lacks := addition?_isSome.mpr lacking
      rw [none] at lacks
      cases lacks
    rw [nothing found, nothing (same.trans found)]
  | some a =>
    have writes := writes_of_addition? found 0
    have writes' := writes_of_addition? (same.trans found) 0
    unfold Writes at writes writes'
    rw [owner] at writes
    rw [owner'] at writes'
    obtain ⟨init, body, one, form, made⟩ := writes
    obtain ⟨init', body', one', form', made'⟩ := writes'
    cases one.symm.trans one'
    cases form.symm.trans form'
    have unique : Relator.LeftUnique (H.Made f (some ty)) := fun _ _ _ made made' => legible made made'
    exact unique.forall₂ made' made

/-- A field is written what it was if and only if the call is not needed. -/
theorem addition?_redirected (blind : H.Blind) (legible : H.Legible)
    (h : Node.Redirected call name (.block b) (.block b')) (other : f.held.name ≠ name)
    (owner : (⟨.block b :: above⟩ : Path).bodyOwner? = some ty)
    (owner' : (⟨.block b' :: above'⟩ : Path).bodyOwner? = some ty) :
    H.addition? ⟨.block b' :: above'⟩ f = H.addition? ⟨.block b :: above⟩ f ↔
      H.Spared call ⟨.block b :: above⟩ f := by
  have without := @missing_redirected H call name b b' above above' f ty blind h other owner'
  unfold Spared
  rw [owner, ← without]
  exact ⟨missing_eq_of_addition? legible owner owner', addition?_eq_of_missing owner owner'⟩

/-- What follows a field plays no part. -/
theorem addition?_following (owner : path.bodyOwner? = some ty) (f : Factory) (following : List Stmt) :
    H.addition? path { f with following } = H.addition? path f := by
  unfold addition? missing
  rw [owner]
  rfl

/-- It is the same fields that are looked at. -/
theorem plan_redirected (h : Node.Redirected call name (.block b) (.block b'))
    (misses : Factory.Misses H.creation call name b) (owner' : path'.bodyOwner? = some ty) :
    H.plan b' path' =
      (Factory.declaredIn .standard H.creation b.stmts).filterMap (H.addition? path') := by
  have factories := Factory.declaredIn_redirected H.creation h.stmts misses.declared
  unfold plan
  generalize Factory.declaredIn .standard H.creation b.stmts = fs at factories ⊢
  generalize Factory.declaredIn .standard H.creation b'.stmts = fs' at factories ⊢
  induction factories with
  | nil => rfl
  | @cons f f' fs fs' same _ ih =>
    rw [same, List.filterMap_cons, List.filterMap_cons, addition?_following owner', ih]

variable (H) in
/-- Each factory is hardened by itself. -/
def factoryPlan : FactoryPlan where
  creation := H.creation
  plan := H.plan
  addition? path _ f := H.addition? path f
  Spared call path _ f := H.Spared call path f

theorem factoryPlan_counts (blind : H.Blind) (legible : H.Legible)
    (h : Node.Redirected call name (.block b) (.block b'))
    (misses : Factory.Misses H.creation call name b)
    (owner : (⟨.block b :: above⟩ : Path).bodyOwner? = some ty)
    (owner' : (⟨.block b' :: above'⟩ : Path).bodyOwner? = some ty) :
    H.factoryPlan.Counts call b ⟨.block b :: above⟩ b' ⟨.block b' :: above'⟩ where
  plans := (Factory.filterMap_withEarlier (H.addition? _) _).symm
  plans' := (plan_redirected h misses owner').trans (Factory.filterMap_withEarlier (H.addition? _) _).symm
  same_iff _ placed := addition?_redirected blind legible h
    (misses.fresh _ (Factory.mem_of_withEarlier placed).1) owner owner'

end Hardening

namespace DocumentBuilder

/-- A factory is hardened by what calls say about it and those before it. -/
def factoryPlan (env : PassEnv) (dtdsRequired : Bool) : FactoryPlan where
  creation := creation
  plan := plan env dtdsRequired
  addition? path := addition? env dtdsRequired path (factsOf env path)
  Spared call path before f := lacks dtdsRequired (factsApart env call path) before f =
    lacks dtdsRequired (factsOf env path) before f

variable {env : PassEnv} {dtdsRequired : Bool} {call : NodeId} {name : String} {b b' : Block}
  {above above' : List Node} {ty : Ty}

theorem factoryPlan_counts (standard : env.matcher = .standard)
    (place : (⟨.block b :: above⟩ : Path).Redirected call name ⟨.block b' :: above'⟩)
    (distinct : ∀ m ∈ Node.block b :: above, (m.subtree.map Node.id).Nodup)
    (misses : Factory.Misses creation call name b)
    (owner : (⟨.block b :: above⟩ : Path).bodyOwner? = some ty)
    (owner' : (⟨.block b' :: above'⟩ : Path).bodyOwner? = some ty) :
    (factoryPlan env dtdsRequired).Counts call b ⟨.block b :: above⟩ b' ⟨.block b' :: above'⟩ where
  plans := by
    rw [FactoryPlan.factories, ← standard]
    exact choose_additions ..
  plans' := by
    have body := (List.forall₂_cons.mp place).1
    have alike := Factory.declaredIn_redirected creation body.stmts misses.declared
    refine Eq.trans ?_ (choose_additions ..)
    show (choose _ _ (Factory.declaredIn env.matcher creation b'.stmts)).map _ = _
    rw [standard]
    exact choose_following owner' alike _
  same_iff := by
    rintro ⟨before, f⟩ placed
    obtain ⟨mem, among⟩ := Factory.mem_of_withEarlier placed
    have said (g : Factory) (mem : g ∈ f :: before) (fact : Fact) :=
      mem_factsOf_redirected standard place (owner ▸ rfl) (owner' ▸ rfl) distinct
        (misses.fresh g (by
          rcases List.mem_cons.mp mem with rfl | mem'
          · assumption
          · exact among mem')) fact
    show addition? _ _ _ _ before f = addition? _ _ _ _ before f ↔ lacks _ _ _ _ = lacks _ _ _ _
    rw [addition?_eq_iff owner owner' (Path.takenNames_redirected place), lacks_of_sameFacts said]

end DocumentBuilder

namespace XmlInput

theorem of?_sameArgument {a a' : Expr} (h : a.SameArgument a') : Property.of? a' = Property.of? a := by
  unfold Property.of?
  simp only [h.constantName, h.stringValue]

theorem hardening_blind (dtdsRequired : Bool) : (hardening dtdsRequired).Blind := by
  intro calls calls' same
  have sets_ {property : Property} {value : Bool} {e e' : Expr} (h : e.SameCall e') :
      sets property value e' = sets property value e := by
    unfold sets
    rw [h.first of?_sameArgument, h.second (·.boolean)]
  show leftOpen .standard calls' dtdsRequired = leftOpen .standard calls dtdsRequired
  have settings := Expr.SameCall.filter same setProperty
  unfold leftOpen
  simp only [Expr.SameCall.any settings sets_, Expr.SameCall.any same (·.acceptsAny setResolver)]

theorem hardening_legible (dtdsRequired : Bool) : (hardening dtdsRequired).Legible := by
  intro f owner (item : Property) (item' : Property) s made made'
  obtain ⟨call, key, _, isCall, -, -, args, names, -⟩ := disables_of_made made
  obtain ⟨call', key', _, isCall', -, -, args', names', -⟩ := disables_of_made made'
  cases isCall.symm.trans isCall'
  cases args.symm.trans args'
  exact Option.some.inj (names.symm.trans names')

end XmlInput

namespace Transformer

theorem of?_sameArgument {a a' : Expr} (h : a.SameArgument a') :
    Restriction.of? a' = Restriction.of? a := by
  unfold Restriction.of?
  simp only [h.constantName, h.stringValue]

theorem restrictionOf?_sameCall {e e' : Expr} (h : e.SameCall e') :
    restrictionOf? e' = restrictionOf? e := h.first of?_sameArgument

theorem restrictions_sameCall {calls calls' : List Expr} (h : List.Forall₂ Expr.SameCall calls calls') :
    calls'.filterMap restrictionOf? = calls.filterMap restrictionOf? := by
  induction h with
  | nil => rfl
  | cons same _ ih => rw [List.filterMap_cons, List.filterMap_cons, restrictionOf?_sameCall same, ih]

theorem hardening_blind : hardening.Blind := by
  intro calls calls' same
  have opens_ {e e' : Expr} (h : e.SameCall e') : opens e' = opens e := by
    unfold opens
    rw [restrictionOf?_sameCall h, h.second (·.literal)]
  show leftOpen .standard calls' = leftOpen .standard calls
  have settings := Expr.SameCall.filter same configuration
  unfold leftOpen
  simp only [Expr.SameCall.any settings opens_, restrictions_sameCall settings]

theorem hardening_legible : hardening.Legible := by
  intro f owner (item : Restriction) (item' : Restriction) s made made'
  have makes {item : Restriction} (made : hardening.Made f owner item s) :
      s.expression?.bind restrictionOf? = some item := by
    obtain ⟨next, next', rfl⟩ := made
    show (mkRestriction ⟨next, f.held.ty, .ident f.held.name owner⟩ item next').1.expression?.bind _ = _
    unfold mkRestriction
    rw [Expr.freshCopy_ident]
    cases item <;> rfl
  exact Option.some.inj ((makes made).symm.trans (makes made'))

end Transformer

/-! ## Units -/

/-- The entries that harden factories, for a project that uses some document type definitions
or none. -/
def Remediation.factoryPlan? (env : PassEnv) (dtdsRequired : Bool) : Remediation → Option FactoryPlan
  | xmlInputFactory => some (XmlInput.hardening dtdsRequired).factoryPlan
  | documentBuilderFactory => some (DocumentBuilder.factoryPlan env dtdsRequired)
  | transformerFactory => some Transformer.hardening.factoryPlan
  | _ => none

/-- A class stands at the same place, whatever variable a call is made on. -/
theorem Node.Redirected.exists_place {root root' n m : Node} {above : List Node} {call : NodeId}
    {name : String} (h : Node.Redirected call name root root') (genuine : Path.GenuineList (n :: above))
    (last : (n :: above).getLast? = some root) (inside : m ∈ n.subtree) (isClass : m.class?.isSome) :
    ∃ n' above', Path.GenuineList (n' :: above') ∧ (n' :: above').getLast? = some root' ∧
      (⟨n :: above⟩ : Path).Redirected call name ⟨n' :: above'⟩ := by
  induction above generalizing n with
  | nil =>
    cases Option.some.inj last
    exact ⟨root', [], trivial, rfl, .cons h .nil⟩
  | cons parent above ih =>
    have below := Node.mem_subtree_of_child genuine.1 inside
    obtain ⟨parent', above', genuine', last', place⟩ := ih genuine.2 last below
    have noExpr : parent.expr? = none := by
      cases parent with
      | expr e =>
        rw [noClass_expr e m below] at isClass
        cases isClass
      | _ => rfl
    obtain ⟨-, -, children⟩ := (List.forall₂_cons.mp place).1.children (.inr noExpr)
    obtain ⟨i, hi, rfl⟩ := List.mem_iff_getElem.mp genuine.1
    have hi' : i < parent'.children.length := children.length_eq ▸ hi
    exact ⟨parent'.children[i], parent' :: above', ⟨List.getElem_mem _, genuine'⟩, last',
      .cons (children.get hi hi') place⟩

namespace CatalogEntry

variable {entry : CatalogEntry} {settings : RemediationSettings} {env : PassEnv} {P : FactoryPlan}

/-- The call counts in every class body of a unit. -/
theorem factoryPlan_counts (matches_ : env.matcher = .standard)
    (hardens : entry.remediation.factoryPlan? env (!settings.externalDtds.isEmpty) = some P)
    {call : NodeId} {name : String} {b b' : Block} {above above' : List Node} {ty : Ty}
    (place : (⟨.block b :: above⟩ : Path).Redirected call name ⟨.block b' :: above'⟩)
    (distinct : ∀ m ∈ Node.block b :: above, (m.subtree.map Node.id).Nodup)
    (misses : Factory.Misses P.creation call name b)
    (owner : (⟨.block b :: above⟩ : Path).bodyOwner? = some ty)
    (owner' : (⟨.block b' :: above'⟩ : Path).bodyOwner? = some ty) :
    P.Counts call b ⟨.block b :: above⟩ b' ⟨.block b' :: above'⟩ := by
  have body := (List.forall₂_cons.mp place).1
  cases kind : entry.remediation with
  | xmlInputFactory =>
    rw [kind] at hardens
    cases hardens
    exact Hardening.factoryPlan_counts (XmlInput.hardening_blind _) (XmlInput.hardening_legible _) body
      misses owner owner'
  | documentBuilderFactory =>
    rw [kind] at hardens
    cases hardens
    exact DocumentBuilder.factoryPlan_counts matches_ place distinct misses owner owner'
  | transformerFactory =>
    rw [kind] at hardens
    cases hardens
    exact Hardening.factoryPlan_counts Transformer.hardening_blind Transformer.hardening_legible body
      misses owner owner'
  | _ =>
    rw [kind] at hardens
    cases hardens

/-- What an entry that hardens makes of a unit: what its plan says is appended. -/
theorem run_appends [GlobCompiler] (matches_ : env.matcher = .standard)
    (hardens : entry.remediation.factoryPlan? env (!settings.externalDtds.isEmpty) = some P)
    (standard : env.splicer = .standard)
    {unit : CompilationUnit} {next : NodeId} (distinct : ((Node.unit unit).subtree.map Node.id).Nodup)
    (old : ∀ n ∈ (Node.unit unit).subtree, n.id < next) :
    ∃ out used changed, entry.run settings env unit next = (.ok out, used) ∧
      out.unit.classes = changed.classes ∧ Node.Appended P.plan [] (.unit unit) (.unit changed) := by
  have drawn := Drawn.of_distinct distinct old
  unfold CatalogEntry.run
  cases kind : entry.remediation with
  | xmlInputFactory =>
    rw [kind] at hardens
    cases hardens
    obtain ⟨out, used, changed, ran, -, appended, classes, -⟩ :=
      (XmlInput.remedy_appends matches_ _).succeeds (XmlInput.remedy_succeeds env _)
        (fun _ _ => XmlInput.notes fun _ _ _ _ _ _ _ _ _ => Factory.fits_accounting) standard drawn
    exact ⟨out, used, changed, ran, classes, appended⟩
  | documentBuilderFactory =>
    rw [kind] at hardens
    cases hardens
    obtain ⟨out, used, changed, ran, -, appended, classes, -⟩ :=
      (DocumentBuilder.remedy_appends env _).succeeds (DocumentBuilder.remedy_succeeds env _)
        (fun _ _ => DocumentBuilder.notes fun _ _ _ _ _ _ _ _ _ _ _ => Factory.fits_accounting) standard
        drawn
    exact ⟨out, used, changed, ran, classes, appended⟩
  | transformerFactory =>
    rw [kind] at hardens
    cases hardens
    obtain ⟨out, used, changed, ran, -, appended, classes, -⟩ :=
      (Transformer.remedy_appends matches_).succeeds (Transformer.remedy_succeeds env)
        (fun _ _ => Transformer.notes fun _ _ _ _ _ _ _ _ _ => Factory.fits_accounting) standard drawn
    exact ⟨out, used, changed, ran, classes, appended⟩
  | _ =>
    rw [kind] at hardens
    cases hardens

/-- A call on a local is made on another variable. The entry hardens the fields of a class as
before if and only if the call is not needed: if without it the field lacks what it lacks with
it. The places of the two units are told apart by nothing but the call. -/
theorem run_redirected [GlobCompiler] (matches_ : env.matcher = .standard)
    (hardens : entry.remediation.factoryPlan? env (!settings.externalDtds.isEmpty) = some P)
    (standard : env.splicer = .standard)
    {unit unit' : CompilationUnit} {next call : NodeId} {name : String}
    (distinct : ((Node.unit unit).subtree.map Node.id).Nodup)
    (old : ∀ n ∈ (Node.unit unit).subtree, n.id < next)
    (redirected : Node.Redirected call name (.unit unit) (.unit unit')) :
    ∃ out used changed out' used' changed',
      entry.run settings env unit next = (.ok out, used) ∧ out.unit.classes = changed.classes ∧
      Node.Appended P.plan [] (.unit unit) (.unit changed) ∧
      entry.run settings env unit' next = (.ok out', used') ∧ out'.unit.classes = changed'.classes ∧
      Node.Appended P.plan [] (.unit unit') (.unit changed') ∧
      ∀ n above, Path.GenuineList (n :: above) → (n :: above).getLast? = some (.unit unit) →
        ∀ head b, n.class? = some (head, b) → Factory.Misses P.creation call name b →
          ∃ n' above' b', Path.GenuineList (n' :: above') ∧
            (n' :: above').getLast? = some (.unit unit') ∧ n'.class? = some (head, b') ∧
            (⟨.block b :: n :: above⟩ : Path).Redirected call name ⟨.block b' :: n' :: above'⟩ ∧
            P.Counts call b ⟨.block b :: n :: above⟩ b' ⟨.block b' :: n' :: above'⟩ := by
  have ids := redirected.ids
  obtain ⟨out, used, changed, ran, classes, appended⟩ := run_appends matches_ hardens standard distinct old
  have old' : ∀ n ∈ (Node.unit unit').subtree, n.id < next := by
    intro n' mem
    obtain ⟨n, inside, same⟩ := List.mem_map.mp (ids ▸ List.mem_map_of_mem mem)
    exact same ▸ old n inside
  obtain ⟨out', used', changed', ran', classes', appended'⟩ :=
    run_appends matches_ hardens standard (ids ▸ distinct) old'
  refine ⟨out, used, changed, out', used', changed', ran, classes, appended, ran', classes', appended', ?_⟩
  intro n above genuine last head b isClass misses
  obtain ⟨n', above', genuine', last', place⟩ :=
    redirected.exists_place genuine last Node.mem_subtree_self (isClass ▸ rfl)
  obtain ⟨same, around⟩ := List.forall₂_cons.mp place
  obtain ⟨b', isClass', body⟩ := same.class? isClass
  have owner : (⟨.block b :: n :: above⟩ : Path).bodyOwner? = some head.ty := by
    show n.class?.map _ = _
    rw [isClass]
    rfl
  have owner' : (⟨.block b' :: n' :: above'⟩ : Path).bodyOwner? = some head.ty := by
    show n'.class?.map _ = _
    rw [isClass']
    rfl
  have within : ∀ m ∈ Node.block b :: n :: above, (m.subtree.map Node.id).Nodup := by
    intro m on
    have child : Path.GenuineList (.block b :: n :: above) :=
      ⟨Node.children_of_class isClass ▸ List.mem_cons_self, genuine⟩
    obtain ⟨front, back, split⟩ := List.append_of_mem on
    have genuine' : Path.GenuineList (m :: back) := Path.genuineList_right (split ▸ child)
    have last' : (m :: back).getLast? = some (.unit unit) := by
      have top : (Node.block b :: n :: above).getLast? = some (.unit unit) := last
      rwa [split, List.getLast?_append_of_ne_nil _ (List.cons_ne_nil _ _)] at top
    exact distinct.sublist ((Node.subtree_sublist_of_genuine genuine' last').map Node.id)
  exact ⟨n', above', b', genuine', last', isClass', .cons body place,
    factoryPlan_counts matches_ hardens (.cons body place) within misses owner owner'⟩

section

attribute [local instance] GlobCompiler.standard

/-- A parameter with the name of a field: `static XMLInputFactory f = XMLInputFactory.newInstance();`
and `void m(XMLInputFactory f) { f.setProperty(ENTITIES, false); }`. The field is hardened less for
this call. -/
theorem run_redirected_parameter :
    let ty : Ty := .known Fqn.xmlInputFactory
    let creation : Expr := ⟨5, ty, .call (some ⟨6, ty, .ident "XMLInputFactory" none⟩) "newInstance" []
      (some Jdk.xmlInputFactoryNewInstance)⟩
    let field : Stmt := ⟨3, .declare ⟨[.static], "XMLInputFactory", [⟨4, "f", ty, some creation⟩]⟩⟩
    let call (name : String) : Expr := ⟨10, .void, .call (some ⟨11, ty, .ident name none⟩) "setProperty"
      [⟨12, .string, .literal (.string XmlInput.Property.externalEntities.key)⟩,
        ⟨13, .boolean, .literal (.boolean false)⟩] (some Jdk.xmlInputFactorySetProperty)⟩
    let closes (name : String) : Stmt := ⟨9, .expr (call name)⟩
    let method (name : String) : Stmt := ⟨7,
      .method ⟨[], some "void", "m", [⟨"XMLInputFactory", "f", ty⟩], []⟩ (some ⟨8, false, [closes name]⟩)⟩
    let body (name : String) : Block := ⟨2, false, [field, method name]⟩
    let head : ClassHead := ⟨[], "A", .known "A"⟩
    let cls (name : String) : Node := .cls ⟨1, head, body name⟩
    let unit (name : String) : CompilationUnit := ⟨0, none, [], [⟨1, head, body name⟩]⟩
    let f : Factory := ⟨field, ⟨4, "f", ty, some creation⟩, creation, [method "f"]⟩
    let entry : CatalogEntry := ⟨"xml-input-factory", "", [], .xmlInputFactory⟩
    let env : PassEnv := ⟨.standard, ⟨64, 8⟩, .standard⟩
    let P := (XmlInput.hardening false).factoryPlan
    ∃ out used changed out' used' changed',
      entry.run (.ofPreset .balanced) env (unit "f") 14 = (.ok out, used) ∧
      out.unit.classes = changed.classes ∧
      Node.Appended P.plan [] (.unit (unit "f")) (.unit changed) ∧
      entry.run (.ofPreset .balanced) env (unit "g") 14 = (.ok out', used') ∧
      out'.unit.classes = changed'.classes ∧
      Node.Appended P.plan [] (.unit (unit "g")) (.unit changed') ∧
      ∃ n' above' b', Path.GenuineList (n' :: above') ∧
        (n' :: above').getLast? = some (.unit (unit "g")) ∧ n'.class? = some (head, b') ∧
        P.addition? ⟨.block b' :: n' :: above'⟩ [] f ≠
          P.addition? ⟨[.block (body "f"), cls "f", .unit (unit "f")]⟩ [] f := by
  intro ty creation field call closes method body head cls unit f entry env P
  have distinct : ((Node.unit (unit "f")).subtree.map Node.id).Nodup := by decide +kernel
  have old : ∀ n ∈ (Node.unit (unit "f")).subtree, n.id < 14 := by decide +kernel
  have redirected : Node.Redirected 10 "g" (.unit (unit "f")) (.unit (unit "g")) := by
    have onLocal : (call "f").callsLocal "f" = true := rfl
    have statement : Node.Redirected 10 "g" (.stmt (closes "f")) (.stmt (closes "g")) :=
      .around_child (.here rfl onLocal (by decide +kernel)) (by decide +kernel) (by decide +kernel)
        rfl rfl rfl rfl
    have inside : Node.Redirected 10 "g" (.block ⟨8, false, [closes "f"]⟩)
        (.block ⟨8, false, [closes "g"]⟩) :=
      .around_child statement (by decide +kernel) (by decide +kernel) rfl rfl rfl rfl
    have member : Node.Redirected 10 "g" (.stmt (method "f")) (.stmt (method "g")) :=
      .around_child inside (by decide +kernel) (by decide +kernel) rfl rfl rfl rfl
    have members : Node.Redirected 10 "g" (.block (body "f")) (.block (body "g")) := by
      refine .around (by decide +kernel) (by decide +kernel) rfl rfl rfl fun c c' pair => ?_
      rcases List.mem_cons.mp pair with first | pair
      · cases first
        exact .kept (by decide +kernel)
      · cases List.mem_singleton.mp pair
        exact member
    have inClass : Node.Redirected 10 "g" (cls "f") (cls "g") :=
      .around_child members (by decide +kernel) (by decide +kernel) rfl rfl rfl rfl
    exact .around_child inClass (by decide +kernel) (by decide +kernel) rfl rfl rfl rfl
  have accepted : CallMatcher.standard.acceptsAny creation.unparen P.creation = true := by
    show CallMatcher.standard.acceptsAny creation.unparen XmlInput.creation = true
    decide +kernel
  have declared : f ∈ Factory.declaredIn .standard P.creation (body "f").stmts :=
    Factory.mem_declaredIn.mpr ⟨[], field, rfl,
      Factory.mem_ofDeclaration.mpr ⟨rfl, rfl, _, rfl, List.mem_cons_self, rfl, accepted⟩⟩
  have misses : Factory.Misses P.creation 10 "g" (body "f") := by
    refine ⟨by decide +kernel, ?_⟩
    show ∀ f ∈ Factory.declaredIn .standard XmlInput.creation (body "f").stmts, f.held.name ≠ "g"
    decide +kernel
  obtain ⟨out, used, changed, out', used', changed', ran, classes, appended, ran', classes', appended',
    fields⟩ := @run_redirected entry (.ofPreset .balanced) env P _ rfl rfl rfl _ _ 14 10 "g" distinct old
      redirected
  refine ⟨out, used, changed, out', used', changed', ran, classes, appended, ran', classes', appended', ?_⟩
  have genuine : Path.GenuineList [cls "f", .unit (unit "f")] := ⟨List.mem_cons_self, trivial⟩
  obtain ⟨n', above', b', genuine', last', isClass', -, counts⟩ :=
    fields (cls "f") [.unit (unit "f")] genuine rfl head (body "f") rfl misses
  refine ⟨n', above', b', genuine', last', isClass', fun unchanged => ?_⟩
  obtain ⟨before, placed⟩ := Factory.exists_withEarlier declared
  have spared := (counts.same_iff (before, f) placed).mp unchanged
  change XmlInput.leftOpen .standard
    ((f.calls (some head.ty) (Factory.classStmts ⟨[.block (body "f"), cls "f", .unit (unit "f")]⟩)).filter
      (·.id != 10)) false = XmlInput.leftOpen .standard
        (f.calls (some head.ty) (Factory.classStmts ⟨[.block (body "f"), cls "f", .unit (unit "f")]⟩)) false
    at spared
  rw [Factory.classStmts_eq] at spared
  revert spared
  decide +kernel

end

end CatalogEntry

end JavaMend
