import JavaMend.Proofs.Match.Members
import JavaMend.Proofs.Patch.Substitution
import JavaMend.Proofs.Remedy.Following
import JavaMend.Proofs.Remedy.Entries

/-!
# Secure generators

The pass for insecure generators notes each one on the frame of the block that holds it and
replaces it when the visit of that block ends, so it follows a rewriting
(`Random.remedy_follows`). It comes out as if one walk over the tree had put a new
`SecureRandom` in the place of each outermost new `Random`, wherever that stands
(`CatalogEntry.run_secureRandom`).

The pass goes by the type of an expression and by the constructor that it is resolved to,
and does not ask if it is an instance creation. So this holds of trees in which nothing
else is resolved to a constructor of `Random`.
-/

namespace JavaMend

namespace Random

/-! ## What is replaced -/

/-- The pass takes for insecure what has the type `Random` and is resolved to a constructor
of that class or of one below it. -/
theorem isInsecure_iff {e : Expr} : isInsecure .standard e = true ↔
    e.ty.isClass Fqn.random = true ∧
      ∃ m, e.method? = some m ∧ m.isConstructor = true ∧ Fqn.random ∈ m.owner.names := by
  have read : creation = [.exactly "java.util.Random <constructor>(..)" Fqn.random
      MethodRef.constructorName [.anySequence]] := rfl
  simp [isInsecure, CallMatcher.acceptsAny_standard, read, Signature.accepts_exactly,
    MethodRef.isConstructor]

/-- Whether an expression gives way is read off its label. -/
theorem isInsecure_of_label (e e' : Expr) (label : (Node.expr e).label = (Node.expr e').label) :
    isInsecure .standard e = isInsecure .standard e' := by
  have ty : e.ty = e'.ty := (Node.Label.expr.inj label).1
  unfold isInsecure
  rw [ty, CallMatcher.acceptsAny_congr (Expr.method?_of_label label)]

theorem children_secureRandom : (Expr.mkCreate Jdk.secureRandom [] 0).1.children = [] := rfl

theorem isInsecure_secureRandom :
    isInsecure .standard (Expr.mkCreate Jdk.secureRandom [] 0).1 = false := by
  decide +kernel

/-- A new `SecureRandom` in the place of whatever the pass takes for insecure. -/
def securing : Substitution where
  gives := isInsecure .standard
  new := (Expr.mkCreate Jdk.secureRandom [] 0).1
  labelled := isInsecure_of_label
  leaf := children_secureRandom
  stays := isInsecure_secureRandom

/-- Is the expression an instance creation of type `Random`, resolved to a constructor of
that class? -/
def isNewRandom (e : Expr) : Bool :=
  match e.form with
  | .create _ _ method =>
    e.ty.isClass Fqn.random && method.any fun m => m.isConstructor && m.owner.isClass Fqn.random
  | _ => false

/-- Every new `Random` is insecure. -/
theorem isInsecure_of_new {e : Expr} (new : isNewRandom e = true) : isInsecure .standard e = true := by
  unfold isNewRandom at new
  split at new
  next name args method form =>
    have same : e.method? = method := by
      unfold Expr.method?
      rw [form]
    rw [Bool.and_eq_true, Option.any_eq_true] at new
    obtain ⟨ty, m, rfl, made⟩ := new
    obtain ⟨constructs, own⟩ := Bool.and_eq_true_iff.mp made
    exact isInsecure_iff.mpr ⟨ty, m, same, constructs, Ty.mem_names_of_isClass own⟩
  next => cases new

/-- In a unit that is resolved well, an expression of type `Random` that is resolved to a
constructor is an instance creation, and the constructor one of that class. -/
def Resolved (unit : CompilationUnit) : Prop :=
  ∀ e, .expr e ∈ (Node.unit unit).subtree → e.ty.isClass Fqn.random = true →
    (e.method?.any (·.isConstructor)) = true → isNewRandom e = true

instance (unit : CompilationUnit) : Decidable (Resolved unit) :=
  decidable_of_iff (∀ n ∈ (Node.unit unit).subtree, ∀ e ∈ n.expr?, e.ty.isClass Fqn.random = true →
    (e.method?.any (·.isConstructor)) = true → isNewRandom e = true)
    ⟨fun h e mem => h _ mem e rfl, fun h n mem e at_ => h e (by cases n <;> cases at_; exact mem)⟩

/-- In such a unit, the pass takes the new generators for insecure and nothing else. -/
theorem Resolved.isInsecure_eq {unit : CompilationUnit} (resolved : Resolved unit) {e : Expr}
    (mem : .expr e ∈ (Node.unit unit).subtree) : isInsecure .standard e = isNewRandom e := by
  rw [Bool.eq_iff_iff]
  refine ⟨fun matched => ?_, isInsecure_of_new⟩
  obtain ⟨ty, m, found, constructs, -⟩ := isInsecure_iff.mp matched
  refine resolved e mem ty ?_
  rw [found, Option.any_some]
  exact constructs

/-- Whether an expression is a new `Random` is read off its label. -/
theorem isNewRandom_of_label (e e' : Expr) (label : (Node.expr e).label = (Node.expr e').label) :
    isNewRandom e = isNewRandom e' := by
  obtain ⟨id, ty, form⟩ := e
  obtain ⟨id', ty', form'⟩ := e'
  obtain ⟨rfl, forms⟩ := Node.Label.expr.inj label
  cases form <;> cases form' <;> simp [ExprForm.map] at forms <;> simp [isNewRandom, forms]

theorem isNewRandom_secureRandom : isNewRandom (Expr.mkCreate Jdk.secureRandom [] 0).1 = false := by
  decide +kernel

/-- A new `SecureRandom` in the place of every new `Random`. -/
def renewing : Substitution where
  gives := isNewRandom
  new := (Expr.mkCreate Jdk.secureRandom [] 0).1
  labelled := isNewRandom_of_label
  leaf := children_secureRandom
  stays := isNewRandom_secureRandom

/-- The unit with the class imported, unless it is visible anyway. -/
def importing (fqn : String) (unit : CompilationUnit) : CompilationUnit :=
  if unit.seesType fqn then unit
  else { unit with imports := unit.imports ++ [⟨fqn, false⟩] }

/-- The unit with a new `SecureRandom` in the place of every outermost new `Random`, and with
the import that it takes if there is one. -/
def secured (unit : CompilationUnit) : CompilationUnit :=
  match renewing.apply (.unit unit) with
  | .unit changed =>
    if (Node.unit unit).subtree.any renewing.isGiven then importing Fqn.secureRandom changed
    else changed
  | _ => unit

/-! ## The pass -/

section

variable {unit : CompilationUnit} {mark : NodeId} {env : PassEnv}

/-- The rewriting that the pass follows. -/
abbrev renewal : Rewriting Unit := securing.rewriting Fqn.secureRandom

/-- A generator is noted where the visit comes to it. -/
theorem enter_notes {e : Expr} {above : List Node} {hand : Multiset Node}
    {ws : List (Node × List PendingFix)} {was : Prop}
    (comes : renewal.Comes False unit mark (.expr e) above) (gives : securing.gives e = true) :
    VisitM.Triple
      (fun site => renewal.Order (fun _ _ => True) unit ws was above site ∧
        (renewal.ledger unit mark).Holds (.expr e :: above) hand site)
      (do PassM.replaceHere e (← VisitM.fresh (Expr.mkCreate Jdk.secureRandom [])) [Fqn.secureRandom] :
        PassM Unit Unit)
      fun _ site => (renewal.Order (fun _ _ => True) unit ws was above site ∧
          (renewal.ledger unit mark).Holds (.expr e :: above) hand site) ∧
        Rewriting.Noted (Rewriting.nearestFixes site.cursor.waiting) e.id := by
  rintro site _ site' ⟨order, holds⟩ ran
  obtain ⟨new, site₁, ran₁, ran₂⟩ := VisitM.ok_of_bind ran
  obtain ⟨-, extra, -, paid, holds₁⟩ :=
    Regime.fresh_holds (Expr.mkCreate_spends (fun _ => false) Jdk.secureRandom []) holds ran₁
  obtain ⟨used, made, rfl⟩ := VisitM.ok_of_fresh ran₁
  obtain ⟨isNew, at_⟩ : securing.IsNew new ∧ new.id = site.next := by
    cases made
    exact ⟨⟨rfl, rfl⟩, rfl⟩
  have late : mark ≤ new.id := at_ ▸ holds.owns.le
  refine Rewriting.replaceHere_notes comes (comes.free.resolve_left id) gives (fun _ _ => rfl) isNew
    late ?_ ?_ ⟨order.next used, holds₁⟩ ran₂
  · intro m mem old
    rw [Node.subtree_eq, isNew.children] at mem
    cases List.mem_singleton.mp mem
    exact absurd old (Nat.not_lt_of_le late)
  · exact le_trans (by simpa [Expr.parts] using paid) (Multiset.le_add_left _ _)

/-- The pass follows the rewriting. -/
theorem remedy_follows (matcher : env.matcher = .standard) :
    renewal.Follows (fun _ _ => True) False unit mark (remedy env) where
  sparing := Substitution.rewriting_sparing
  outward _ _ _ _ := trivial
  enter n above hand ws was comes := by
    rintro site goOn site' ⟨order, holds⟩ ran
    unfold remedy at ran
    cases n with
    | expr e =>
      dsimp only at ran
      split at ran
      next insecure =>
        have gives : securing.gives e = true := by rwa [matcher] at insecure
        rw [← bind_assoc] at ran
        obtain ⟨_, _, noting, done⟩ := VisitM.ok_of_bind ran
        cases done
        obtain ⟨⟨order', holds'⟩, noted⟩ := enter_notes comes gives ⟨order, holds⟩ noting
        exact ⟨⟨{ order' with knows := trivial }, holds'⟩, e, rfl, gives, noted⟩
      next secure =>
        cases ran
        refine ⟨⟨{ order with knows := trivial }, holds⟩, fun given => secure ?_⟩
        rw [matcher]
        exact given
    | _ =>
      cases ran
      refine ⟨⟨{ order with knows := trivial }, holds⟩, fun given => ?_⟩
      cases given
  leave b above hand ws was comes := by
    rintro site _ site' held ran
    cases ran
    refine ⟨held, fun s _ drops => ?_, False.elim⟩
    cases drops

/-- Adding an import that was asked for. -/
theorem apply_alike {set : ImportRequests} {fqn : String} (asked : set.requested = [fqn])
    {a b : CompilationUnit} (alike : (Node.unit a).alike (.unit b) = true) (next : NodeId) :
    (Node.unit (set.apply a next).1).alike (.unit (importing fqn b)) = true := by
  obtain ⟨label, children⟩ := Node.alike_iff.mp alike
  obtain ⟨package, imports⟩ := Node.Label.unit.inj label
  have sees : a.seesType fqn = b.seesType fqn := by
    unfold CompilationUnit.seesType
    rw [package, imports]
  have lacking : set.lacking a = if b.seesType fqn then [] else [⟨fqn, false⟩] := by
    unfold ImportRequests.lacking
    rw [asked, List.filter_singleton, sees]
    cases b.seesType fqn <;> rfl
  unfold ImportRequests.apply importing
  rw [lacking]
  cases b.seesType fqn with
  | true => exact alike
  | false =>
    refine Node.alike_iff.mpr ⟨?_, children⟩
    show Node.Label.unit a.package (a.imports ++ [⟨fqn, false⟩]) =
      .unit b.package (b.imports ++ [⟨fqn, false⟩])
    rw [package, imports]

/-- The pass makes of a unit what one walk over it does. -/
theorem pass_secures (matcher : env.matcher = .standard) (splicer : env.splicer = .standard)
    (distinct : ((Node.unit unit).subtree.map Node.id).Nodup)
    (old : ∀ n ∈ (Node.unit unit).subtree, n.id < mark) (resolved : Resolved unit)
    {out : PassResult} {used : NodeId} (ran : pass env unit mark = (.ok out, used)) :
    (Node.unit out.unit).alike (.unit (secured unit)) = true ∧
      ∀ n ∈ (Node.unit out.unit).subtree, securing.isGiven n = false := by
  have same : ∀ n ∈ (Node.unit unit).subtree, securing.isGiven n = renewing.isGiven n := by
    intro n mem
    cases n with
    | expr e => exact resolved.isInsecure_eq mem
    | _ => rfl
  obtain ⟨changed, rewritten, outcome⟩ :=
    (remedy_follows matcher).pass splicer distinct old trivial ran
  have alike := Substitution.alike_apply rewritten
  have gone := Substitution.gone rewritten
  rw [Substitution.apply_congr (S := securing) (T := renewing) rfl
    fun e mem => resolved.isInsecure_eq mem] at alike
  obtain ⟨substituted, applied⟩ : ∃ substituted, renewing.apply (.unit unit) = .unit substituted := by
    have sort := renewing.sameSort_apply (.unit unit)
    cases at_ : renewing.apply (.unit unit) with
    | unit substituted => exact ⟨substituted, rfl⟩
    | _ =>
      rw [at_] at sort
      cases sort
  unfold secured
  rw [applied] at alike ⊢
  dsimp only
  rcases outcome with ⟨nothing, kept, rfl⟩ | ⟨something, set, asked, next, made⟩
  · -- A unit that came back had nothing to replace.
    have none : (Node.unit changed).subtree.any renewing.isGiven = false := by
      rw [List.any_eq_false]
      intro n mem given
      exact nothing (Substitution.acts_iff.mpr ⟨n, mem, (same n mem).trans given⟩)
    rw [none, kept]
    exact ⟨alike, gone⟩
  · obtain ⟨m, mem, given⟩ := Substitution.acts_iff.mp something
    have some : (Node.unit unit).subtree.any renewing.isGiven = true :=
      List.any_eq_true.mpr ⟨m, mem, same m mem ▸ given⟩
    rw [some, made]
    refine ⟨apply_alike asked alike _, fun n mem => ?_⟩
    rw [Node.subtree_eq, List.mem_cons] at mem
    rcases mem with rfl | mem
    · rfl
    · refine gone n ?_
      rw [Node.subtree_eq]
      refine List.mem_cons_of_mem _ ?_
      rw [show (Node.unit changed).children = changed.classes.map Node.cls from rfl,
        ← Regime.classes_apply]
      exact mem

end

end Random

/-- The pass for insecure generators puts a new `SecureRandom` in the place of every
outermost new `Random` of a unit, wherever it stands, and imports the class if it did. -/
theorem CatalogEntry.run_secureRandom [GlobCompiler] {entry : CatalogEntry}
    (random : entry.remediation = .secureRandom) (settings : RemediationSettings)
    (limits : FlowLimits) {unit : CompilationUnit} {next : NodeId}
    (distinct : ((Node.unit unit).subtree.map Node.id).Nodup)
    (old : ∀ n ∈ (Node.unit unit).subtree, n.id < next) (resolved : Random.Resolved unit) :
    ∃ out used, entry.run settings ⟨.standard, limits, .standard⟩ unit next = (.ok out, used) ∧
      (Node.unit out.unit).alike (.unit (Random.secured unit)) = true ∧
      ∀ e, .expr e ∈ (Node.unit out.unit).subtree → Random.isNewRandom e = false := by
  have run : entry.run settings ⟨.standard, limits, .standard⟩ =
      Random.pass ⟨.standard, limits, .standard⟩ := by
    unfold run
    rw [random]
    rfl
  rw [run]
  have succeeds : (Random.pass ⟨.standard, limits, .standard⟩).Succeeds := by
    refine Remedy.pass_succeeds ?_ (Random.remedy_succeeds _) ()
    rfl
  obtain ⟨out, used, ran⟩ := succeeds unit next
  obtain ⟨alike, gone⟩ := Random.pass_secures rfl rfl distinct old resolved ran
  refine ⟨out, used, ran, alike, fun e mem => ?_⟩
  rw [← Bool.not_eq_true]
  intro new
  exact Bool.false_ne_true ((gone _ mem).symm.trans (Random.isInsecure_of_new new))

section

attribute [local instance] GlobCompiler.standard

/-- A class with a generator in a field and with two in a loop without braces:
`Random r = new Random(); void m() { while (roll(new Random())) use(new Random()); }` -/
theorem run_secureRandom_loop :
    let creation (id : NodeId) : Expr :=
      ⟨id, .known Fqn.random, .create "Random" [] (some Jdk.random)⟩
    let field : Stmt := ⟨3, .declare ⟨[], "Random", [⟨4, "r", .known Fqn.random, some (creation 5)⟩]⟩⟩
    let use : Stmt := ⟨11, .expr ⟨12, .unknown, .call none "use" [creation 13] none⟩⟩
    let loop : Stmt := ⟨8, .whileLoop ⟨9, .boolean, .call none "roll" [creation 10] none⟩ use⟩
    let method : Stmt := ⟨6, .method ⟨[], some "void", "m", [], []⟩ (some ⟨7, false, [loop]⟩)⟩
    let unit : CompilationUnit :=
      ⟨0, none, [], [⟨1, ⟨[], "A", .known "A"⟩, ⟨2, false, [field, method]⟩⟩]⟩
    (Node.unit unit).subtree.countP Random.renewing.isGiven = 3 ∧
      ∀ entry ∈ Catalog.builtin.get? "secure-random", ∃ out used,
        entry.run (.ofPreset .balanced) ⟨.standard, ⟨64, 8⟩, .standard⟩ unit 14 = (.ok out, used) ∧
        (Node.unit out.unit).alike (.unit (Random.secured unit)) = true := by
  intro creation field use loop method unit
  refine ⟨by decide +kernel, ?_⟩
  intro entry found
  have random : entry.remediation = .secureRandom := by
    cases found
    rfl
  obtain ⟨out, used, ran, alike, -⟩ := CatalogEntry.run_secureRandom random (.ofPreset .balanced) ⟨64, 8⟩
    (by decide +kernel : ((Node.unit unit).subtree.map Node.id).Nodup)
    (by decide +kernel : ∀ n ∈ (Node.unit unit).subtree, n.id < 14)
    (by decide +kernel : Random.Resolved unit)
  exact ⟨out, used, ran, alike⟩

end

end JavaMend
