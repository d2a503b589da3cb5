import JavaMend.Proofs.Patch.Scoping
import JavaMend.Proofs.Remedy.Hardening

/-!
# The names that a `DocumentBuilderFactory` takes

For every factory that it hardens the pass declares a local, and behind it a `try` whose
handler has a parameter. Both names are chosen when the visit of the block ends, one factory
after the other (`DocumentBuilder.choose`): a name is none of those that are taken at the
block as it was before the visit, and none that was chosen for the same block before.
-/

namespace JavaMend

/-! ## Nodes in which nothing is declared -/

namespace Node

theorem silent_block {b : Block} (silent : ∀ s ∈ b.stmts, (Node.stmt s).declaredNames = []) :
    (Node.block b).declaredNames = [] := by
  rw [declaredNames_eq]
  refine List.flatMap_eq_nil_iff.mpr fun c mem => ?_
  obtain ⟨s, hs, rfl⟩ := List.mem_map.mp mem
  exact silent s hs

/-- A statement of which all parts are expressions. -/
theorem silent_stmt {s : Stmt} (exprs : ∀ c ∈ (Node.stmt s).children, ∃ e, c = .expr e) :
    (Node.stmt s).declaredNames = [] := by
  rw [declaredNames_eq]
  refine List.flatMap_eq_nil_iff.mpr fun c mem => ?_
  obtain ⟨e, rfl⟩ := exprs c mem
  exact declaredNames_expr e

end Node

namespace DocumentBuilder

/-- The names of locals and those of parameters begin in different ways. -/
theorem feature_ne_exception (taken taken' : List String) :
    leastFreeName "FEATURE" taken ≠ leastFreeName "e" taken' := by
  obtain ⟨suffix, feature⟩ := leastFreeName_eq_append "FEATURE" taken
  obtain ⟨suffix', exception⟩ := leastFreeName_eq_append "e" taken'
  rw [feature, exception]
  intro same
  have same := congrArg String.toList same
  rw [String.toList_append, String.toList_append] at same
  exact absurd (List.cons.inj same).1 (by decide)

/-! ## Choosing names -/

/-- A factory that is hardened, with the names that are declared for it. -/
structure Choice where
  factory : Factory
  feature : String
  exception : String

/-- The names for some factories, of which some need none. -/
def choose (handled : Factory → Bool) (taken : List String) : List Factory → List Choice
  | [] => []
  | f :: fs =>
    if handled f then choose handled taken fs
    else
      let feature := leastFreeName "FEATURE" taken
      ⟨f, feature, leastFreeName "e" (feature :: taken)⟩ :: choose handled (feature :: taken) fs

/-- The names are free, and the one of the local is told from those of parameters. -/
structure Choice.Free (taken : List String) (c : Choice) : Prop where
  feature : c.feature ∉ taken
  exception : c.exception ∉ taken
  chosen : ∃ names, c.feature = leastFreeName "FEATURE" names
  caught : ∃ names, c.exception = leastFreeName "e" names

theorem Choice.Free.ne {taken : List String} {c d : Choice} (h : c.Free taken) (h' : d.Free taken) :
    c.feature ≠ d.exception := by
  obtain ⟨names, chosen⟩ := h.chosen
  obtain ⟨names', caught⟩ := h'.caught
  rw [chosen, caught]
  exact feature_ne_exception names names'

variable {handled : Factory → Bool} {taken : List String} {fs : List Factory} {c : Choice}

theorem choose_free (mem : c ∈ choose handled taken fs) : c.factory ∈ fs ∧ c.Free taken := by
  induction fs generalizing taken with
  | nil => cases mem
  | cons f fs ih =>
    rw [choose] at mem
    split at mem
    · exact (ih mem).imp_left (List.mem_cons_of_mem _)
    · rcases List.mem_cons.mp mem with rfl | mem
      · refine ⟨List.mem_cons_self, leastFreeName_not_mem _ _, fun inside => ?_, ⟨_, rfl⟩, ⟨_, rfl⟩⟩
        exact leastFreeName_not_mem "e" _ (List.mem_cons_of_mem _ inside)
      · obtain ⟨among, free⟩ := ih mem
        exact ⟨List.mem_cons_of_mem _ among,
          { free with
            feature := fun inside => free.feature (List.mem_cons_of_mem _ inside)
            exception := fun inside => free.exception (List.mem_cons_of_mem _ inside) }⟩

/-- No two factories of a block declare one name. -/
theorem choose_nodup (handled : Factory → Bool) (taken : List String) (fs : List Factory) :
    ((choose handled taken fs).map (·.feature)).Nodup := by
  induction fs generalizing taken with
  | nil => exact .nil
  | cons f fs ih =>
    rw [choose]
    split
    · exact ih taken
    · refine List.nodup_cons.mpr ⟨fun again => ?_, ih _⟩
      obtain ⟨c, mem, same⟩ := List.mem_map.mp again
      exact (choose_free mem).2.feature (same ▸ List.mem_cons_self)

/-! ## What is planned -/

section

variable (env : PassEnv) (dtdsRequired : Bool)

/-- What the code around a block says about its factories. -/
def factsOf (path : Path) : List (String × Fact) :=
  factsBelow env (if path.bodyOwner?.isSome then path.executedBodies else [path])

/-- Does a factory need nothing? -/
def isHandled (facts : List (String × Fact)) (f : Factory) : Bool :=
  facts.contains (f.held.name, .doctypeDisallowed) ||
    (dtdsRequired && facts.contains (f.held.name, .entityFeatureSet))

/-- The names for the factories of a block. -/
def choices (b : Block) (path : Path) : List Choice :=
  choose (isHandled dtdsRequired (factsOf env path)) path.takenNames
    (Factory.declaredIn env.matcher creation b.stmts)

/-- What is to be written for a factory. -/
def Choice.addition (path : Path) (facts : List (String × Fact)) (c : Choice) : Addition :=
  c.factory.addition path.bodyOwner? (lastFeatureStmt? env c.factory)
    (mkSettings c.factory path.bodyOwner? dtdsRequired c.feature c.exception
      (facts.contains (c.factory.held.name, .xincludeSet)))
    (Fqn.parserConfigurationException :: if dtdsRequired then [Fqn.xmlConstants] else [])

/-- What is to be written into a block. -/
def plan (b : Block) (path : Path) : List Addition :=
  (choices env dtdsRequired b path).map (Choice.addition env dtdsRequired path (factsOf env path))

theorem protect_eq (path : Path) (facts : List (String × Fact)) (taken : List String) (f : Factory) :
    protect env dtdsRequired path facts taken f =
      if isHandled dtdsRequired facts f then pure taken
      else do
        let feature := leastFreeName "FEATURE" taken
        (Choice.addition env dtdsRequired path facts
          ⟨f, feature, leastFreeName "e" (feature :: taken)⟩).note
        return feature :: taken := by
  show (if isHandled dtdsRequired facts f then _ else _) = _
  split
  · rfl
  · unfold Choice.addition
    dsimp only
    rw [Factory.addition_note, bind_assoc]
    rfl

/-- Looking at factories one after the other notes what is planned for them. -/
theorem protect_all (path : Path) (facts : List (String × Fact)) (taken : List String)
    (fs : List Factory) :
    (do
      let _ ← fs.foldlM (protect env dtdsRequired path facts) taken
      return ()) =
      ((choose (isHandled dtdsRequired facts) taken fs).map
        (Choice.addition env dtdsRequired path facts)).forM Addition.note := by
  induction fs generalizing taken with
  | nil => rfl
  | cons f fs ih =>
    rw [List.foldlM_cons, bind_assoc, protect_eq, choose]
    split
    · rw [pure_bind]
      exact ih taken
    · rw [List.map_cons]
      show _ = Addition.note _ >>= fun _ => List.forM _ Addition.note
      rw [← ih, bind_assoc]
      rfl

theorem remedy_appends : (remedy env dtdsRequired).Appends (plan env dtdsRequired) where
  enter _ := rfl
  leave b := by
    unfold remedy
    dsimp only
    refine bind_congr fun path => ?_
    unfold plan choices
    cases Factory.declaredIn env.matcher creation b.stmts with
    | nil => rfl
    | cons f fs => exact protect_all env dtdsRequired path (factsOf env path) path.takenNames (f :: fs)
  anchors b above a mem := by
    obtain ⟨c, hc, rfl⟩ := List.mem_map.mp mem
    refine Factory.addition_anchor_mem (Factory.declaredAmong_of_mem (choose_free hc).1) fun _ s found => ?_
    exact lastFeatureStmt?_mem s found

end

/-! ## What is written -/

/-- A local, and a `try` whose handler has a parameter. Nothing else is declared. -/
inductive Guards (feature exception : String) : List Stmt → Prop where
  | intro {declaration guard_ : Stmt} {typeName : String} {v : Variable} {body : Block}
      {clause : CatchClause Variable Block}
      (declares : declaration.form = .declare ⟨[], typeName, [v]⟩) (name : v.name = feature)
      (guards : guard_.form = .tryCatch [] body [clause] none)
      (parameter : clause.parameter.name = exception)
      (silent : (Node.block body).declaredNames = [])
      (silent' : (Node.block clause.body).declaredNames = []) :
      Guards feature exception [declaration, guard_]

section

variable (factory : Expr) (feature exception : String)

theorem mkSetFeature_silent (key : Expr) (enabled : Bool) :
    (mkSetFeature factory key enabled).Gives fun s => (Node.stmt s).declaredNames = [] := by
  intro next
  refine Node.silent_stmt fun c mem => ?_
  cases List.mem_singleton.mp mem
  exact ⟨_, rfl⟩

theorem mkDeclare_declares (init : Option Expr) : (Stmt.mkDeclare [] .string feature init).Gives
    fun declaration => ∃ typeName v, declaration.form = .declare ⟨[], typeName, [v]⟩ ∧ v.name = feature :=
  fun _ => ⟨_, _, rfl, rfl⟩

theorem mkClear_silent (method : MethodRef) :
    (mkClear factory method).Gives fun s => (Node.stmt s).declaredNames = [] := by
  intro next
  refine Node.silent_stmt fun c mem => ?_
  cases List.mem_singleton.mp mem
  exact ⟨_, rfl⟩

theorem mkSwitchOff_silent (name : String) : (mkSwitchOff factory feature name).Gives fun stmts =>
    ∀ s ∈ stmts, (Node.stmt s).declaredNames = [] := by
  intro next s mem
  rcases List.mem_cons.mp mem with rfl | mem
  · refine Node.silent_stmt fun c mem => ?_
    cases List.mem_singleton.mp mem
    exact ⟨_, rfl⟩
  · cases List.mem_singleton.mp mem
    exact mkSetFeature_silent factory _ false _

/-- A declaration of a local, followed by statements that are guarded. -/
theorem guards_of_mkGuarded {declaration : Stmt} {typeName : String} {v : Variable} {stmts : List Stmt}
    {opening : String} (declares : declaration.form = .declare ⟨[], typeName, [v]⟩)
    (name : v.name = feature) (silent : ∀ s ∈ stmts, (Node.stmt s).declaredNames = []) :
    (mkGuarded stmts opening feature exception).Gives fun guard_ =>
      Guards feature exception [declaration, guard_] := by
  intro next
  refine .intro declares name rfl rfl (Node.silent_block silent) (Node.silent_block fun s mem => ?_)
  cases List.mem_singleton.mp mem
  refine Node.silent_stmt fun c mem => ?_
  cases List.mem_singleton.mp mem
  exact ⟨_, rfl⟩

theorem mkRefuseDoctype_guards :
    (mkRefuseDoctype factory feature exception).Gives (Guards feature exception) := by
  refine .bind (fun _ => trivial) fun text (_ : True) => ?_
  refine .bind (mkDeclare_declares feature _) fun declaration ⟨typeName, v, declares, name⟩ => ?_
  refine .bind (fun _ => trivial) fun key (_ : True) => ?_
  refine .bind (mkSetFeature_silent factory key true) fun enable silent => ?_
  refine .bind (guards_of_mkGuarded feature exception declares name ?_) fun _ guards => .pure guards
  exact List.forall_mem_singleton.mpr silent

theorem mkSwitchedOff_guards {declaration : Stmt} {typeName : String} {v : Variable}
    (declares : declaration.form = .declare ⟨[], typeName, [v]⟩) (name : v.name = feature)
    {features : List (List Stmt)}
    (off : ∀ stmts ∈ features, ∀ s ∈ stmts, (Node.stmt s).declaredNames = []) {xinclude : List Stmt}
    (clear : ∀ s ∈ xinclude, (Node.stmt s).declaredNames = []) :
    (mkSwitchedOff factory feature exception declaration features xinclude).Gives
      (Guards feature exception) := by
  refine .bind (mkClear_silent factory _) fun expand silent => ?_
  refine .bind (fun _ => trivial) fun constant (_ : True) => ?_
  refine .bind (mkSetFeature_silent factory constant true) fun secure silent' => ?_
  refine .bind (guards_of_mkGuarded feature exception declares name ?_) fun _ guards => .pure guards
  simp only [List.forall_mem_append, List.forall_mem_cons, List.mem_flatten]
  refine ⟨⟨?_, clear⟩, silent, silent', nofun⟩
  rintro s ⟨stmts, mem, inside⟩
  exact off stmts mem s inside

theorem mkDisableEntities_guards (xincludeSet : Bool) :
    (mkDisableEntities factory feature exception xincludeSet).Gives (Guards feature exception) := by
  refine .bind (fun _ => trivial) fun nothing (_ : True) => ?_
  refine .bind (mkDeclare_declares feature _) fun declaration ⟨typeName, v, declares, name⟩ => ?_
  refine .bind (.mapM_all fun name _ => mkSwitchOff_silent factory feature name) fun features off => ?_
  have rest {xinclude : List Stmt} (clear : ∀ s ∈ xinclude, (Node.stmt s).declaredNames = []) :=
    mkSwitchedOff_guards factory feature exception declares name off clear
  show Fresh.Gives (if xincludeSet then
      pure [] >>= mkSwitchedOff factory feature exception declaration features
    else (do
      let clear ← mkClear factory Jdk.documentBuilderFactorySetXincludeAware
      let xinclude ← pure [clear]
      mkSwitchedOff factory feature exception declaration features xinclude)) _
  split
  · exact rest fun _ none => (List.not_mem_nil none).elim
  · exact .bind (mkClear_silent factory _) fun s silent => rest (List.forall_mem_singleton.mpr silent)

theorem mkSettings_guards (f : Factory) (owner : Option Ty) (dtdsRequired : Bool)
    (xincludeSet : Bool) :
    (mkSettings f owner dtdsRequired feature exception xincludeSet).Gives (Guards feature exception) := by
  refine .bind (fun _ => trivial) fun read (_ : True) => ?_
  split
  · exact mkDisableEntities_guards read feature exception xincludeSet
  · exact mkRefuseDoctype_guards read feature exception

end

/-- What is written for a factory: a local and what it is needed for, in an initializer if a
field holds the factory. -/
def Inserts (owner : Option Ty) (feature exception : String) (ws : List Stmt) : Prop :=
  match owner with
  | none => Guards feature exception ws
  | some _ => ∃ init body, ws = [init] ∧ init.form = .block body ∧ Guards feature exception body.stmts

variable {env : PassEnv} {dtdsRequired : Bool} {path : Path} {feature exception : String}
  {ws : List Stmt}

theorem Choice.inserts (facts : List (String × Fact)) (c : Choice) :
    (c.addition env dtdsRequired path facts).make.Gives
      (Inserts path.bodyOwner? c.feature c.exception) := by
  unfold addition
  cases path.bodyOwner? with
  | none => exact mkSettings_guards _ _ _ _ _ _
  | some ty =>
    refine .bind (mkSettings_guards _ _ _ _ _ _) fun stmts guards => ?_
    exact fun next => ⟨_, _, rfl, rfl, guards⟩

/-- A local and its guard declare the name of the local. -/
theorem Guards.declares (h : Guards feature exception ws) :
    ws.flatMap Stmt.declaredNames = [feature] := by
  cases h with
  | intro declares name guards =>
    simp [Stmt.declaredNames, declares, guards, name]

theorem Inserts.declares {owner : Option Ty} (h : Inserts owner feature exception ws) {x : String}
    (mem : x ∈ ws.flatMap Stmt.declaredNames) : owner = none ∧ x = feature := by
  cases owner with
  | none =>
    rw [Guards.declares h] at mem
    exact ⟨rfl, List.mem_singleton.mp mem⟩
  | some ty =>
    obtain ⟨init, body, rfl, form, -⟩ := h
    simp [Stmt.declaredNames, form] at mem

end DocumentBuilder

end JavaMend
