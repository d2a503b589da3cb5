import JavaMend.Proofs.Tree.Places
import JavaMend.Proofs.Patch.Rewriting
import JavaMend.Proofs.TempFiles.Calls
import JavaMend.Proofs.TempFiles.Scan

/-!
# Calls that give way, and reading what is left

The two passes for temporary files share out the calls that create one: a call that a site
of the nearest block claims becomes a call that makes a directory (`TempDirectory.making`),
and every other one becomes a call that makes a file of safe permissions
(`TempFile.filing`). A block that is the body of a top-level class has no sites.

What the scan for temporary directories reads off a statement is read off the rewritten
statement as well, but for a call that has given way: the statement that bound it binds no
longer (`Rewriting.OfCreations.echo`). So the sites of a rewritten block are the sites of
the block whose calls have not given way (`Rewriting.OfCreations.sites_rewritten`).
-/

namespace JavaMend

section

/-! ## Places -/

/-- What matters about the place of a node: the sites of the nearest block, and whether the
node stands right below a top-level class. -/
structure Place where
  sites : List TempDirectory.DirectorySite
  inClass : Bool

namespace Place

/-- The place inside of a node. -/
def inside (p : Place) : Node → Place
  | .block b => ⟨if p.inClass then [] else TempDirectory.sites .standard b, false⟩
  | n => ⟨p.sites, n.cls?.isSome⟩

/-- The place of a unit. -/
def outermost : Place := ⟨[], false⟩

/-- Is it the call of a site? -/
def claims (p : Place) (e : Expr) : Bool := p.sites.any (·.create.id == e.id)

/-- Is it a later statement of a site whose call gives way? -/
def steps (p : Place) (s : Stmt) : Bool :=
  (TempDirectory.binding? .standard s).isNone && p.sites.any fun site =>
    TempDirectory.isCreation site.create && (site.deleteStmt.id == s.id || site.mkdirStmt.id == s.id)

variable {p : Place} {n : Node}

theorem inside_block {b : Block} (plain : p.inClass = false) :
    p.inside (.block b) = ⟨TempDirectory.sites .standard b, false⟩ := by
  rw [inside, plain]
  rfl

/-- Below a block, the place changes with the next block only. -/
theorem inside_open (plain : p.inClass = false) (open_ : n.block? = none) (noClass : n.cls? = none) :
    p.inside n = p := by
  obtain ⟨sites, inClass⟩ := p
  cases plain
  cases n with
  | block b => cases open_
  | cls c => cases noClass
  | _ => rfl

theorem inClass_inside : (p.inside n).inClass = n.cls?.isSome := by
  cases n <;> rfl

end Place

/-- The calls of sites become calls that make directories. -/
def TempDirectory.making : Rewriting Place where
  outside := .outermost
  inside := Place.inside
  gives p e := isCreation e && p.claims e
  drops p s := p.steps s
  makes := Makes
  refers := Fqn.files

/-- All other calls become calls that make files of safe permissions. -/
def TempFile.filing : Rewriting Place where
  outside := .outermost
  inside := Place.inside
  gives p e := TempDirectory.isCreation e && !p.claims e
  drops _ _ := false
  makes := Makes
  refers := Fqn.files

/-- A rewriting of calls that create temporary files. It makes calls of `toFile`. -/
structure Rewriting.OfCreations (R : Rewriting Place) : Prop where
  inside : ∀ p n, R.inside p n = p.inside n
  gives : ∀ p e, R.gives p e = true → TempDirectory.isCreation e = true
  makes : ∀ e new, R.makes e new →
    ∃ made, new.form = .call (some made) Jdk.pathToFile.name [] (some Jdk.pathToFile)

theorem TempDirectory.making_ofCreations : making.OfCreations where
  inside _ _ := rfl
  gives _ _ gives := (Bool.and_eq_true_iff.mp gives).1
  makes _ _ made := by
    obtain ⟨_, _, _, _, _, made, _, _, new, _⟩ := made
    exact ⟨made, new.form⟩

theorem TempFile.filing_ofCreations : filing.OfCreations where
  inside _ _ := rfl
  gives _ _ gives := (Bool.and_eq_true_iff.mp gives).1
  makes _ _ made := by
    obtain ⟨_, _, _, _, made, _, new, _⟩ := made
    exact ⟨made, new.form⟩

namespace Rewriting.OfCreations

open TempDirectory

variable {R : Rewriting Place} {p : Place} {n : Node} {e create : Expr} {s : Stmt} {name : String}

theorem inside_open (h : R.OfCreations) (plain : p.inClass = false) (open_ : n.block? = none)
    (noClass : n.cls? = none) : R.inside p n = p := by
  rw [h.inside, Place.inside_open plain open_ noClass]

/-- What has no method does not give way. -/
theorem isGiven_expr (h : R.OfCreations) (none_ : e.method? = none) : R.isGiven p (.expr e) = false := by
  show R.gives p e = false
  by_contra given
  cases (isCreation_of_none none_).symm.trans (h.gives p e (Bool.not_eq_false _ ▸ given))

/-- The parentheses around a call do not give way. -/
theorem outermost_unparen (h : R.OfCreations) (plain : p.inClass = false)
    (gives : R.gives p e.unparen = true) : R.Outermost e.unparen p (.expr e) := by
  fun_induction Expr.unparen e with
  | case1 id ty inner ih =>
    refine .under (h.isGiven_expr rfl) rfl List.mem_cons_self ?_
    rw [h.inside_open plain rfl rfl]
    exact ih gives
  | case2 e => exact .here gives

/-- Nor does anything else between a call and the statement that binds it. -/
theorem outermost_binding (h : R.OfCreations) (plain : p.inClass = false)
    (binds : binding? .standard s = some (name, create)) (gives : R.gives p create = true) :
    R.Outermost create p (.stmt s) := by
  have inside {n : Node} (open_ : n.block? = none) (noClass : n.cls? = none) : R.inside p n = p :=
    h.inside_open plain open_ noClass
  rcases binding?_cases binds with
    ⟨id, modifiers, typeName, v, init, rfl, -, initialised, rfl⟩ |
    ⟨id, id', ty, target, value, rfl, -, rfl⟩
  · have child : Node.expr init ∈ (Node.var v).children := by
      simp [Node.children, initialised]
    refine .under rfl rfl List.mem_cons_self (.under rfl rfl child ?_)
    rw [inside rfl rfl, inside rfl rfl]
    exact h.outermost_unparen plain gives
  · refine .under rfl rfl List.mem_cons_self (.under ?_ rfl
      (List.mem_cons_of_mem _ List.mem_cons_self) ?_)
    · rw [inside rfl rfl]
      exact h.isGiven_expr rfl
    · rw [inside rfl rfl, inside rfl rfl]
      exact h.outermost_unparen plain gives

end Rewriting.OfCreations

/-! ## Sites of a block -/

namespace TempDirectory

/-- A site of a list of statements. -/
structure SiteOf (stmts : List Stmt) (site : DirectorySite) : Prop where
  createMem : site.createStmt ∈ stmts
  binds : ∃ name, binding? .standard site.createStmt = some (name, site.create)
  deleteMem : site.deleteStmt ∈ stmts
  deletes : binding? .standard site.deleteStmt = none
  mkdirMem : site.mkdirStmt ∈ stmts
  makes : binding? .standard site.mkdirStmt = none

variable {b : Block} {site : DirectorySite} {p : Place} {s : Stmt}

theorem siteOf_mem (mem : site ∈ sites .standard b) : SiteOf b.stmts site := by
  obtain ⟨name, ⟨createMem, binds⟩, ⟨deleteMem, deletes⟩, mkdirMem, makes⟩ :=
    (scan_traced b.stmts).sites site mem
  refine ⟨createMem, ⟨name, binding?_of_event binds⟩, deleteMem, ?_, mkdirMem, ?_⟩ <;>
    rw [binding?_eq_none_iff] <;> intro _ _ binds
  · cases deletes.symm.trans binds
  · cases makes.symm.trans binds

/-- A call that a site claims stands in the first statement of the site. -/
theorem claims_of_mem (mem : site ∈ p.sites) : p.claims site.create = true :=
  List.any_eq_true.mpr ⟨site, mem, beq_self_eq_true _⟩

theorem SiteOf.outermost {stmts : List Stmt} (h : SiteOf stmts site) (plain : p.inClass = false)
    (gives : making.gives p site.create = true) :
    making.Outermost site.create p (.stmt site.createStmt) := by
  obtain ⟨name, binds⟩ := h.binds
  exact making_ofCreations.outermost_binding plain binds gives

/-- The first statement of a site is not dropped. -/
theorem SiteOf.steps_create {stmts : List Stmt} (h : SiteOf stmts site) :
    p.steps site.createStmt = false := by
  obtain ⟨name, binds⟩ := h.binds
  unfold Place.steps
  rw [binds]
  rfl

/-- The sites of the place inside of a block are sites of the block. -/
theorem siteOf_inside (mem : site ∈ (p.inside (.block b)).sites) : SiteOf b.stmts site := by
  unfold Place.inside at mem
  dsimp only at mem
  split at mem
  · cases mem
  · exact siteOf_mem mem

theorem making_sparing : making.Sparing := by
  intro p b s mem dropped
  have steps : (p.inside (.block b)).steps s = true := dropped
  obtain ⟨site, here, step⟩ := List.any_eq_true.mp (Bool.and_eq_true_iff.mp steps).2
  have of := siteOf_inside here
  refine ⟨site.createStmt, of.createMem, of.steps_create, ?_⟩
  have gives : making.gives (p.inside (.block b)) site.create = true :=
    Bool.and_eq_true_iff.mpr ⟨(Bool.and_eq_true_iff.mp step).1, claims_of_mem here⟩
  exact (of.outermost Place.inClass_inside gives).acts

theorem filing_sparing : TempFile.filing.Sparing := fun _ _ _ _ dropped => nomatch dropped

end TempDirectory

end

/-! ## Reading rewritten statements -/

namespace Expr

variable {e : Expr} {m : MethodRef}

theorem localName?_of_method (found : e.method? = some m) : e.localName? = none := by
  obtain ⟨id, ty, form⟩ := e
  cases form <;> first | rfl | cases found

end Expr

namespace TempDirectory

/-- The local that a call calls a method of one of the shapes on. -/
def calledOn? (shapes : List Signature) (call : Expr) : Option String := do
  guard (CallMatcher.standard.acceptsAny call shapes)
  (← call.receiver?).unparen.localName?

theorem event_assign {id id' : NodeId} {ty : Ty} {target value : Expr} {name : String}
    (named : target.localName? = some name) :
    event .standard ⟨id, .expr ⟨id', ty, .assign none target value⟩⟩ =
      if CallMatcher.standard.acceptsAny value.unparen createTempFile && target.ty.isFile then
        .binds name value.unparen
      else .sets name := by
  unfold event binding? assigned?
  cases accepted : CallMatcher.standard.acceptsAny value.unparen createTempFile <;>
    cases file : target.ty.isFile <;> simp [accepted, file, named]

theorem event_declare {id : NodeId} {modifiers : List Modifier} {typeName : String} {v : Variable}
    {init : Expr} (initialised : v.init = some init) :
    event .standard ⟨id, .declare ⟨modifiers, typeName, [v]⟩⟩ =
      if CallMatcher.standard.acceptsAny init.unparen createTempFile && v.ty.isFile then
        .binds v.name init.unparen
      else .idle := by
  unfold event binding? assigned?
  cases accepted : CallMatcher.standard.acceptsAny init.unparen createTempFile <;>
    cases file : v.ty.isFile <;> simp [accepted, file, initialised] <;> rfl

theorem calledOn?_of_other {shapes : List Signature} {call : Expr} {m : MethodRef}
    (among : shapes.all (·.isAmong ["delete", "mkdir", "mkdirs"]) = true)
    (found : call.method? = some m) (other : m.name ∉ ["delete", "mkdir", "mkdirs"]) :
    calledOn? shapes call = none := by
  have rejected : CallMatcher.standard.acceptsAny call shapes = false := by
    by_contra accepted
    obtain ⟨m', found', mem⟩ :=
      CallMatcher.name_of_acceptsAny among (Bool.not_eq_false _ ▸ accepted)
    cases found.symm.trans found'
    exact other mem
  unfold calledOn?
  rw [rejected]
  rfl

end TempDirectory

namespace Rewriting

/-- The statements of a block that stay, and what has become of them. -/
def Pairs (R : Rewriting Place) (p : Place) (b b' : Block) (s s' : Stmt) : Prop :=
  (s, s') ∈ (b.stmts.filter (!R.drops p ·)).zip b'.stmts ∧ R.Rewritten p (.stmt s) (.stmt s')

theorem pairs_rewritten {R : Rewriting Place} {p : Place} {b b' : Block} (rewritten : R.Rewritten p (.block b) (.block b')) :
    List.Forall₂ (R.Pairs (R.inside p (.block b)) b b')
      (b.stmts.filter (!R.drops (R.inside p (.block b)) ·)) b'.stmts := by
  rcases rewritten.cases with ⟨_, _, same, -⟩ | ⟨-, -, children⟩
  · cases same
  · change List.Forall₂ _ ((b.stmts.filter _).map Node.stmt) (b'.stmts.map Node.stmt) at children
    rw [List.forall₂_map_left_iff, List.forall₂_map_right_iff, List.forall₂_iff_zip] at children
    rw [List.forall₂_iff_zip]
    exact ⟨children.1, fun pair => ⟨pair, children.2 pair⟩⟩

end Rewriting

namespace Rewriting.OfCreations

open TempDirectory

variable {R : Rewriting Place} {p : Place} {e e' : Expr} {s s' : Stmt}

/-! ## Expressions -/

/-- The method of a call that gives way. -/
theorem given_method (h : R.OfCreations) (given : R.gives p e = true) :
    ∃ m, e.method? = some m ∧ m.name = "createTempFile" :=
  name_of_accepted (accepted_of_isCreation (h.gives p e given))

/-- The method of a call that takes a place. -/
theorem made_method (h : R.OfCreations) (made : R.makes e e') :
    e'.method? = some Jdk.pathToFile := by
  obtain ⟨receiver, form⟩ := h.makes e e' made
  rw [Expr.method?, form]

theorem expr_cases (h : R.OfCreations) (plain : p.inClass = false)
    (rewritten : R.Rewritten p (.expr e) (.expr e')) :
    R.gives p e = true ∧ R.makes e e' ∨ R.gives p e = false ∧ e'.ty = e.ty ∧
      ExprForm.Related (fun c c' => R.Rewritten p (.expr c) (.expr c')) e.form e'.form := by
  rcases rewritten.cases with ⟨_, _, same, same', given, made⟩ | ⟨other, label, children⟩
  · cases same
    cases same'
    exact .inl ⟨given, made⟩
  · rw [h.inside_open plain rfl rfl] at children
    exact .inr ⟨other, ExprForm.related_of_label label children⟩

theorem localName?_rewritten (h : R.OfCreations) (plain : p.inClass = false)
    (rewritten : R.Rewritten p (.expr e) (.expr e')) : e'.localName? = e.localName? := by
  rcases h.expr_cases plain rewritten with ⟨given, made⟩ | ⟨-, -, related⟩
  · obtain ⟨m, found, -⟩ := h.given_method given
    rw [Expr.localName?_of_method found, Expr.localName?_of_method (h.made_method made)]
  · obtain ⟨id, ty, form⟩ := e
    obtain ⟨id', ty', form'⟩ := e'
    cases related <;> rfl

theorem unparen_rewritten (h : R.OfCreations) (plain : p.inClass = false)
    (rewritten : R.Rewritten p (.expr e) (.expr e')) :
    R.Rewritten p (.expr e.unparen) (.expr e'.unparen) := by
  fun_induction Expr.unparen e generalizing e' with
  | case1 id ty inner ih =>
    rcases h.expr_cases plain rewritten with ⟨given, -⟩ | ⟨-, -, related⟩
    · cases (h.isGiven_expr rfl).symm.trans given
    · obtain ⟨id', ty', form'⟩ := e'
      cases related with
      | parens inner =>
        rw [Expr.unparen]
        exact ih inner
  | case2 e other =>
    have same : e'.unparen = e' := by
      rcases h.expr_cases plain rewritten with ⟨-, made⟩ | ⟨-, -, related⟩
      · exact Expr.unparen_of_method (h.made_method made)
      · obtain ⟨id, ty, form⟩ := e
        obtain ⟨id', ty', form'⟩ := e'
        cases related with
        | parens => exact (other _ _ _ rfl).elim
        | _ => rfl
    rwa [same]

theorem accepts_rewritten {f f' : ExprForm Expr} {r : Expr → Expr → Prop} (shapes : List Signature)
    (form : e.form = f) (form' : e'.form = f') (related : ExprForm.Related r f f') :
    CallMatcher.standard.acceptsAny e' shapes = CallMatcher.standard.acceptsAny e shapes := by
  refine CallMatcher.acceptsAny_congr ?_ shapes
  unfold Expr.method?
  rw [form, form']
  cases related <;> rfl

/-- The local of a step is read off as before. -/
theorem calledOn?_rewritten (h : R.OfCreations) (plain : p.inClass = false) {shapes : List Signature}
    (among : shapes.all (·.isAmong ["delete", "mkdir", "mkdirs"]) = true)
    (rewritten : R.Rewritten p (.expr e) (.expr e')) : calledOn? shapes e' = calledOn? shapes e := by
  rcases h.expr_cases plain rewritten with ⟨given, made⟩ | ⟨-, -, related⟩
  · obtain ⟨m, found, name⟩ := h.given_method given
    rw [calledOn?_of_other among found (by rw [name]; decide),
      calledOn?_of_other among (h.made_method made) (by decide)]
  · have accepts := accepts_rewritten shapes rfl rfl related
    unfold calledOn?
    rw [accepts]
    have receivers : Option.Rel (fun c c' => R.Rewritten p (.expr c) (.expr c')) e.receiver? e'.receiver? := by
      unfold Expr.receiver?
      generalize e.form = form at related ⊢
      generalize e'.form = form' at related ⊢
      cases related with
      | call _ _ receiver => exact receiver
      | _ => exact .none
    generalize e.receiver? = receiver at receivers ⊢
    generalize e'.receiver? = receiver' at receivers ⊢
    cases receivers with
    | none => rfl
    | some receivers =>
      simp only [Option.bind_eq_bind, Option.bind_some]
      rw [h.localName?_rewritten plain (h.unparen_rewritten plain receivers)]

/-! ## Statements -/

/-- Two statements that bind and set nothing, and are the same steps. -/
theorem echo_of_steps (binds : binding? .standard s = none) (binds' : binding? .standard s' = none)
    (sets : assigned? s = none) (sets' : assigned? s' = none)
    (steps : ∀ shapes : List Signature, shapes.all (·.isAmong ["delete", "mkdir", "mkdirs"]) = true →
      step? .standard shapes s' = step? .standard shapes s) {gives : Expr → Bool}
    {turns : Expr → Expr → Prop} :
    Echo gives turns s (event .standard s) (event .standard s') := by
  have same : event .standard s' = event .standard s := by
    unfold event
    rw [binds, binds', sets, sets', steps _ delete_among, steps _ mkdir_among]
  rw [same]
  exact .same (binding?_eq_none_iff.mp binds)

/-- The call that a statement binds a local to, and what has become of the binding. -/
theorem binding_rewritten (h : R.OfCreations) (plain : p.inClass = false)
    (rewritten : R.Rewritten p (.expr e) (.expr e')) :
    (R.gives p e.unparen = true ∧ CallMatcher.standard.acceptsAny e'.unparen createTempFile = false) ∨
      R.gives p e.unparen = false ∧ CallMatcher.standard.acceptsAny e'.unparen createTempFile =
        CallMatcher.standard.acceptsAny e.unparen createTempFile := by
  rcases h.expr_cases plain (h.unparen_rewritten plain rewritten) with ⟨given, made⟩ | ⟨stays, -, related⟩
  · refine .inl ⟨given, ?_⟩
    by_contra accepted
    obtain ⟨m, found, name⟩ := name_of_accepted (Bool.not_eq_false _ ▸ accepted)
    cases (h.made_method made).symm.trans found
    exact absurd name (by decide)
  · exact .inr ⟨stays, accepts_rewritten _ rfl rfl related⟩

theorem expression_echo (h : R.OfCreations) (plain : p.inClass = false) {id id' : NodeId}
    (rewritten : R.Rewritten p (.expr e) (.expr e')) :
    Echo (R.gives p) (fun c c' => R.Rewritten p (.expr c) (.expr c')) ⟨id, .expr e⟩
      (event .standard ⟨id, .expr e⟩) (event .standard ⟨id', .expr e'⟩) := by
  have steps : ∀ shapes : List Signature,
      shapes.all (·.isAmong ["delete", "mkdir", "mkdirs"]) = true →
      step? .standard shapes ⟨id', .expr e'⟩ = step? .standard shapes ⟨id, .expr e⟩ := fun shapes among =>
    h.calledOn?_rewritten plain among (h.unparen_rewritten plain rewritten)
  rcases h.expr_cases plain rewritten with ⟨given, made⟩ | ⟨-, -, related⟩
  · obtain ⟨m, found, -⟩ := h.given_method given
    have found' := h.made_method made
    obtain ⟨_, _, form⟩ := e
    obtain ⟨_, _, form'⟩ := e'
    refine echo_of_steps ?_ ?_ ?_ ?_ steps
    · cases form <;> first | rfl | cases found
    · cases form' <;> first | rfl | cases found'
    · cases form <;> first | rfl | cases found
    · cases form' <;> first | rfl | cases found'
  · obtain ⟨eid, ty, form⟩ := e
    obtain ⟨eid', ty', form'⟩ := e'
    cases related with
    | @assign target value target' value' op relatedTarget relatedValue =>
      have named := h.localName?_rewritten plain relatedTarget
      cases local_ : target.localName? with
      | none =>
        rw [local_] at named
        refine echo_of_steps ?_ ?_ ?_ ?_ steps
        · cases op <;> simp [binding?, local_]
        · cases op <;> simp [binding?, named]
        · exact local_
        · exact named
      | some x =>
        rw [local_] at named
        cases op with
        | some op =>
          have sets : event .standard ⟨id, .expr ⟨eid, ty, .assign (some op) target value⟩⟩ = .sets x := by
            simp [event, binding?, assigned?, local_]
          have sets' : event .standard ⟨id', .expr ⟨eid', ty', .assign (some op) target' value'⟩⟩ = .sets x := by
            simp [event, binding?, assigned?, named]
          rw [sets, sets']
          exact .same fun _ _ => Event.noConfusion
        | none =>
          have ty : target'.ty = target.ty := by
            rcases h.expr_cases plain relatedTarget with ⟨given, -⟩ | ⟨-, ty, -⟩
            · obtain ⟨m, found, -⟩ := h.given_method given
              cases local_.symm.trans (Expr.localName?_of_method found)
            · exact ty
          rw [event_assign local_, event_assign named, ty]
          cases file : target.ty.isFile with
          | false =>
            rw [Bool.and_false, Bool.and_false]
            exact .same fun _ _ => Event.noConfusion
          | true =>
            rw [Bool.and_true, Bool.and_true]
            rcases h.binding_rewritten plain relatedValue with ⟨given, lost⟩ | ⟨stays, same⟩
            · rw [lost, accepted_of_isCreation (h.gives p _ given)]
              exact .sets given
            · rw [same]
              split
              · exact .binds stays (h.unparen_rewritten plain relatedValue)
              · exact .same fun _ _ => Event.noConfusion
    | _ => exact echo_of_steps rfl rfl rfl rfl steps

/-- A declaration that has been rewritten is to the scan what it was, but for a call that has
given way. -/
theorem declaration_echo (h : R.OfCreations) (plain : p.inClass = false) {id id' : NodeId}
    {decl decl' : Declaration Variable} (same : decl'.map (fun _ => ()) = decl.map fun _ => ())
    (rewritten : List.Forall₂ (R.Rewritten p) decl.children decl'.children) :
    Echo (R.gives p) (fun c c' => R.Rewritten p (.expr c) (.expr c')) ⟨id, .declare decl⟩
      (event .standard ⟨id, .declare decl⟩) (event .standard ⟨id', .declare decl'⟩) := by
  obtain ⟨modifiers, typeName, vars⟩ := decl
  obtain ⟨modifiers', typeName', vars'⟩ := decl'
  unfold Declaration.children at rewritten
  dsimp only at rewritten
  rw [List.forall₂_map_left_iff, List.forall₂_map_right_iff] at rewritten
  rcases rewritten with _ | ⟨first, _ | ⟨-, -⟩⟩
  · exact .same fun _ _ => Event.noConfusion
  · rename_i v v'
    rcases first.cases with ⟨_, _, same, -⟩ | ⟨-, label, children⟩
    · cases same
    rw [h.inside_open plain rfl rfl] at children
    obtain ⟨name, ty⟩ := Node.Label.var.inj label
    obtain ⟨vid, vname, vty, init⟩ := v
    obtain ⟨vid', vname', vty', init'⟩ := v'
    cases name
    cases ty
    cases init <;> cases init'
    · exact .same fun _ _ => Event.noConfusion
    · cases children
    · cases children
    next init init' =>
      obtain ⟨rewritten, -⟩ := List.forall₂_cons.mp children
      rw [event_declare rfl, event_declare rfl]
      dsimp only
      cases file : vty.isFile with
      | false =>
        rw [Bool.and_false, Bool.and_false]
        exact .same fun _ _ => Event.noConfusion
      | true =>
        rw [Bool.and_true, Bool.and_true]
        rcases h.binding_rewritten plain rewritten with ⟨given, lost⟩ | ⟨stays, same⟩
        · rw [lost, accepted_of_isCreation (h.gives p _ given)]
          exact .declares given List.mem_cons_self
        · rw [same]
          split
          · exact .binds stays (h.unparen_rewritten plain rewritten)
          · exact .same fun _ _ => Event.noConfusion
  · exact .same fun _ _ => Event.noConfusion

/-- The call that a condition negates. -/
def negated? (condition : Expr) : Option Expr :=
  match condition.form with
  | .unary .not operand => some operand.unparen
  | _ => none

theorem negated?_of_method {m : MethodRef} (found : e.method? = some m) : negated? e = none := by
  obtain ⟨id, ty, form⟩ := e
  cases form <;> first | rfl | cases found

theorem negation_rewritten (h : R.OfCreations) (plain : p.inClass = false) {shapes : List Signature}
    (among : shapes.all (·.isAmong ["delete", "mkdir", "mkdirs"]) = true)
    (rewritten : R.Rewritten p (.expr e) (.expr e')) :
    (negated? e').bind (calledOn? shapes) = (negated? e).bind (calledOn? shapes) := by
  rcases h.expr_cases plain rewritten with ⟨given, made⟩ | ⟨-, -, related⟩
  · obtain ⟨m, found, -⟩ := h.given_method given
    rw [negated?_of_method found, negated?_of_method (h.made_method made)]
  · obtain ⟨id, ty, form⟩ := e
    obtain ⟨id', ty', form'⟩ := e'
    cases related with
    | unary op operand =>
      cases op with
      | not => exact h.calledOn?_rewritten plain among (h.unparen_rewritten plain operand)
      | _ => rfl
    | _ => rfl

/-- A statement that has been rewritten is to the scan what it was, but for a call that has
given way. -/
theorem echo (h : R.OfCreations) (plain : p.inClass = false)
    (rewritten : R.Rewritten p (.stmt s) (.stmt s')) :
    Echo (R.gives p) (fun c c' => R.Rewritten p (.expr c) (.expr c')) s
      (event .standard s) (event .standard s') := by
  rcases rewritten.cases with ⟨_, _, same, -⟩ | ⟨-, label, children⟩
  · cases same
  · rw [h.inside_open plain rfl rfl] at children
    obtain ⟨id, form⟩ := s
    obtain ⟨id', form'⟩ := s'
    have blank : form'.blank = form.blank := Node.Label.stmt.inj label
    cases form <;> cases form' <;> simp only [StmtForm.blank, reduceCtorEq] at blank
    case declare decl decl' =>
      exact h.declaration_echo plain (StmtForm.declare.inj blank) children
    case expr e e' =>
      obtain ⟨rewritten, -⟩ := List.forall₂_cons.mp children
      exact h.expression_echo plain rewritten
    case ifElse condition onTrue onFalse condition' onTrue' onFalse' =>
      obtain ⟨tested, -⟩ := List.forall₂_cons.mp children
      refine echo_of_steps rfl rfl rfl rfl fun shapes among => ?_
      cases onFalse <;> cases onFalse' <;> simp only [StmtForm.ifElse.injEq, Option.map, reduceCtorEq,
        and_false] at blank
      · exact h.negation_rewritten plain among (h.unparen_rewritten plain tested)
      · rfl
    all_goals exact .same fun _ _ => Event.noConfusion

/-! ## Blocks -/

/-- The sites of a rewritten block are the sites of the block whose calls have not given way. -/
theorem sites_rewritten (h : R.OfCreations) {b b' : Block}
    (rewritten : R.Rewritten p (.block b) (.block b')) (nodup : b.stmts.Nodup)
    (ordered : Ordered b.stmts)
    (dropped : ∀ s ∈ b.stmts, R.drops (p.inside (.block b)) s = true →
      ∃ site ∈ sites .standard b, R.gives (p.inside (.block b)) site.create = true ∧
        (site.deleteStmt = s ∨ site.mkdirStmt = s)) :
    List.Forall₂
      (DirectorySite.Mirrored (fun c c' => R.Rewritten (p.inside (.block b)) (.expr c) (.expr c'))
        (R.Pairs (p.inside (.block b)) b b'))
      ((sites .standard b).filter (!R.gives (p.inside (.block b)) ·.create)) (sites .standard b') := by
  have pairs := pairs_rewritten rewritten
  rw [h.inside] at pairs
  exact sites_mirror nodup ordered dropped
    (fun s s' pair => h.echo Place.inClass_inside pair.2) pairs

end Rewriting.OfCreations

end JavaMend
