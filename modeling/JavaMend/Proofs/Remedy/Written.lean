import JavaMend.Proofs.Tree.Parts
import JavaMend.Remedy.Catalog

/-!
# What remedies write

The makers of the remedies, as spenders: what a remedy writes is new, but for what it
takes from the expression that it replaces. Operands that are read more than once are
copied each time, so no maker uses a node twice.
-/

namespace JavaMend

section

variable (hidden : Expr → Bool)

open Fresh (Spends)

theorem Variable.mkRead_spends (v : Variable) (owner : Option Ty) :
    Spends 0 (v.mkRead owner) (Expr.parts hidden) :=
  Expr.make_leaf_spends hidden rfl _

/-- Where a maker makes nothing, something of the budget is still there. -/
theorem Fresh.Spends.orElse {make : Fresh (Option Expr)} {budget : Multiset Node} {other : Expr}
    (h : Spends budget make fun e => Expr.partsOf hidden e.toList)
    (le : other.parts hidden ≤ budget) :
    Spends budget make fun e => (e.getD other).parts hidden := by
  intro next
  obtain ⟨new, drawn, made⟩ := h next
  refine ⟨new, drawn, ?_⟩
  cases answer : (make next).1 with
  | none => exact le_trans le (Multiset.le_add_right _ _)
  | some e =>
    rw [answer] at made
    simpa using made

theorem Stmt.partsOf_eq_sum (stmts : List Stmt) :
    Stmt.partsOf hidden stmts = (stmts.map (Stmt.parts hidden)).sum := by
  rw [Stmt.partsOf, Node.partsOf, List.map_map]
  rfl

/-- Statements that are made one after the other for a new read of a variable. -/
theorem Variable.mkReads_spends {α : Type} (v : Variable) (owner : Option Ty) {items : List α}
    {make : Expr → α → Fresh Stmt} (spends : ∀ read a, Spends 0 (make read a) (Stmt.parts hidden)) :
    Spends 0 (do
      let read ← v.mkRead owner
      items.mapM (make read)) (Stmt.partsOf hidden) := by
  refine (mkRead_spends hidden v owner).bind_new fun read => ?_
  have made := Spends.mapM_new fun a (_ : a ∈ items) => spends read a
  exact (made.of_le (Multiset.zero_le _)).weaken fun stmts =>
    le_of_eq (Stmt.partsOf_eq_sum hidden stmts)

/-- A call on a copy of an expression, with one argument, as a statement. -/
theorem Stmt.mkCallOnCopy_spends (target : Expr) (method : MethodRef) {make : Fresh Expr}
    (spends : Spends 0 make (Expr.parts hidden)) :
    Spends 0 (do Stmt.mkExpr (← Expr.mkCall (← target.freshCopy) method [← make]))
      (Stmt.parts hidden) := by
  refine (Expr.freshCopy_spends hidden target).bind_new fun copy => ?_
  refine spends.bind_new fun arg => ?_
  refine ((Expr.mkCall_spends hidden copy method [arg]).of_le ?_).then_ (Stmt.mkExpr_spends hidden)
  simp [add_comm]

/-- `v.setSecure(true);` -/
def Cookie.mkEnable (v : Variable) : Fresh Stmt := do
  Stmt.mkExpr (← Expr.mkCall (← v.mkRead none) Jdk.cookieSetSecure [← Expr.mkBool true])

theorem Cookie.mkEnable_spends (v : Variable) :
    Spends 0 (mkEnable v) (Stmt.parts hidden) := by
  refine (Variable.mkRead_spends hidden v none).bind_new fun read => ?_
  refine (Expr.mkBool_spends hidden true).bind_new fun arg => ?_
  refine ((Expr.mkCall_spends hidden read _ [arg]).of_le ?_).then_ (Stmt.mkExpr_spends hidden)
  simp [add_comm]

/-- A static call with some arguments, made a file. -/
theorem Expr.mkToFile_spends (method : MethodRef) (args : List Expr) :
    Spends (Expr.partsOf hidden args)
      (do
        let made ← Expr.mkStaticCall method args
        return some (← Expr.mkCall made Jdk.pathToFile []))
      fun new => Expr.partsOf hidden new.toList := by
  refine (Expr.mkStaticCall_spends hidden method args).then_ fun made => ?_
  refine ((Expr.mkCall_spends hidden made _ []).of_le (by simp)).then_ fun new => ?_
  exact .pure (by simp)

theorem Expr.partsOf_args_le (e : Expr) : Expr.partsOf hidden e.args ≤ e.parts hidden := by
  refine le_trans ?_ e.partsOf_children_le
  obtain ⟨id, ty, form⟩ := e
  cases form with
  | call receiver name args method =>
    show Expr.partsOf hidden args ≤ Expr.partsOf hidden (receiver.toList ++ args)
    rw [Expr.partsOf_append]
    exact Multiset.le_add_left _ _
  | create className args method => exact le_rfl
  | _ => exact Multiset.zero_le _

theorem Expr.unparen_le (e : Expr) : e.unparen.parts hidden ≤ e.parts hidden := by
  fun_induction Expr.unparen e with
  | case1 id ty inner ih =>
    have child : Node.expr inner ∈ (Node.expr ⟨id, ty, .parens inner⟩).children :=
      List.mem_cons_self
    exact le_trans ih (Node.parts_le_of_mem child)
  | case2 e plain => exact le_rfl

/-- The first arguments of a call, and the third unless it is `null`. -/
theorem TempDirectory.args_le {create start ending : Expr} {rest : List Expr}
    (args : create.args = start :: ending :: rest) :
    Expr.partsOf hidden (start :: ending :: (directory? create).toList) ≤
      Expr.partsOf hidden create.args := by
  unfold directory?
  rw [args]
  cases rest with
  | nil => exact le_rfl
  | cons dir rest =>
    simp only [List.getElem?_cons_succ, List.getElem?_cons_zero, Expr.partsOf_cons]
    gcongr
    cases kept : (!isNull dir) with
    | true => exact le_of_eq_of_le (by simp [Option.filter, kept]) (Multiset.le_add_right _ _)
    | false => exact le_of_eq_of_le (by simp [Option.filter, kept]) (Multiset.zero_le _)

theorem TempFile.replacement?_spends (create : Expr) :
    Spends (Expr.partsOf hidden create.args) (replacement? create)
      fun new => Expr.partsOf hidden new.toList := by
  unfold replacement?
  split
  next start ending rest args =>
    refine Spends.of_le ?_ (TempDirectory.args_le hidden args)
    cases TempDirectory.directory? create with
    | none => exact Expr.mkToFile_spends hidden _ [start, ending]
    | some dir =>
      have order : Expr.partsOf hidden (start :: ending :: (some dir).toList) =
          dir.parts hidden + Expr.partsOf hidden [start, ending] := by
        simp only [Option.toList, Expr.partsOf_cons, Expr.partsOf_nil]
        abel
      rw [order]
      refine ((Expr.mkCall_spends hidden dir _ []).of_le (by simp)).bind fun parent => ?_
      exact (Expr.mkToFile_spends hidden _ [parent, start, ending]).of_le (by simp)
  next => exact .pure (Multiset.zero_le _)

/-- A directory of a name, as a file. -/
def TempDirectory.mkDirectory (dir : Option Expr) (name : Expr) : Fresh (Option Expr) := do
  let made ← match dir with
    | some dir => do
      let parent ← Expr.mkCall dir Jdk.fileToPath []
      Expr.mkStaticCall Jdk.filesCreateTempDirectoryIn [parent, name]
    | none => Expr.mkStaticCall Jdk.filesCreateTempDirectory [name]
  return some (← Expr.mkCall made Jdk.pathToFile [])

theorem TempDirectory.mkDirectory_spends (dir : Option Expr) (name : Expr) :
    Spends (name.parts hidden + Expr.partsOf hidden dir.toList) (mkDirectory dir name)
      fun new => Expr.partsOf hidden new.toList := by
  cases dir with
  | none => exact (Expr.mkToFile_spends hidden _ [name]).of_le (by simp)
  | some dir =>
    have order : name.parts hidden + Expr.partsOf hidden (some dir).toList =
        dir.parts hidden + name.parts hidden := by
      simp [Option.toList, add_comm]
    rw [order]
    refine ((Expr.mkCall_spends hidden dir _ []).of_le (by simp)).bind fun parent => ?_
    exact (Expr.mkToFile_spends hidden _ [parent, name]).of_le (by simp)

theorem TempDirectory.replacement?_spends (create : Expr) :
    Spends (Expr.partsOf hidden create.args) (replacement? create)
      fun new => Expr.partsOf hidden new.toList := by
  unfold replacement?
  split
  next start ending rest args =>
    refine Spends.of_le ?_ (TempDirectory.args_le hidden args)
    have order : Expr.partsOf hidden (start :: ending :: (directory? create).toList) =
        start.parts hidden + ending.parts hidden +
          Expr.partsOf hidden (directory? create).toList := by
      simp only [Expr.partsOf_cons, add_assoc]
    rw [order]
    show Spends _ (if isNull ending then pure start >>= mkDirectory (directory? create)
      else Expr.mkAdd start ending >>= mkDirectory (directory? create)) _
    have first : Spends (start.parts hidden + ending.parts hidden) (pure start)
        (Expr.parts hidden) := .pure (Multiset.le_add_right _ _)
    split
    · exact first.bind fun name => mkDirectory_spends hidden _ name
    · exact (Expr.mkAdd_spends hidden start ending).bind fun name => mkDirectory_spends hidden _ name
  next => exact .pure (Multiset.zero_le _)

/-! ## Configurations of factories -/

theorem mkFieldInitializer_spends (declaration : Stmt) (stmts : List Stmt) :
    Spends (Stmt.partsOf hidden stmts) (mkFieldInitializer declaration stmts) (Stmt.parts hidden) := by
  refine (Block.make_spends hidden stmts _).then_ fun body => ?_
  exact (Stmt.make_spends hidden (.block body)).of_le (by simp [Stmt.children, Block.parts])

theorem XmlInput.mkDisable_spends (factory : Expr) (property : Property) :
    Spends 0 (mkDisable factory property) (Stmt.parts hidden) := by
  refine (Expr.freshCopy_spends hidden factory).bind_new fun copy => ?_
  refine (Expr.mkStaticField_spends hidden _ _ _).bind_new fun key => ?_
  refine (Expr.mkBool_spends hidden false).bind_new fun value => ?_
  refine ((Expr.mkCall_spends hidden copy _ [key, value]).of_le (le_of_eq ?_)).then_
    (Stmt.mkExpr_spends hidden)
  simp only [Expr.partsOf_cons, Expr.partsOf_nil]
  abel

/-- The statements that switch some properties of a factory off. -/
def XmlInput.mkSettings (f : Factory) (owner : Option Ty) (properties : List Property) :
    Fresh (List Stmt) := do
  let read ← f.held.mkRead owner
  properties.mapM (mkDisable read)

theorem XmlInput.mkSettings_spends (f : Factory) (owner : Option Ty) (properties : List Property) :
    Spends 0 (mkSettings f owner properties) (Stmt.partsOf hidden) :=
  Variable.mkReads_spends hidden f.held owner (mkDisable_spends hidden)

theorem Transformer.mkRestriction_spends (factory : Expr) (restriction : Restriction) :
    Spends 0 (mkRestriction factory restriction) (Stmt.parts hidden) := by
  have call (key copy : Expr) (method : MethodRef) {make : Fresh Expr}
      (spends : Spends 0 make (Expr.parts hidden)) :
      Spends (copy.parts hidden + (key.parts hidden + 0))
        (do Stmt.mkExpr (← Expr.mkCall copy method [key, ← make])) (Stmt.parts hidden) := by
    refine spends.bind_new fun value => ?_
    refine ((Expr.mkCall_spends hidden copy _ [key, value]).of_le (le_of_eq ?_)).then_
      (Stmt.mkExpr_spends hidden)
    simp only [Expr.partsOf_cons, Expr.partsOf_nil]
    abel
  refine (Expr.mkStaticField_spends hidden _ _ _).bind_new fun key => ?_
  refine (Expr.freshCopy_spends hidden factory).bind_new fun copy => ?_
  cases restriction with
  | secureProcessing => exact call key copy _ (Expr.mkBool_spends hidden true)
  | _ => exact call key copy _ (Expr.mkString_spends hidden "")

/-- The statements that restrict a factory. -/
def Transformer.mkSettings (f : Factory) (owner : Option Ty) (settings : List Restriction) :
    Fresh (List Stmt) := do
  let read ← f.held.mkRead owner
  settings.mapM (mkRestriction read)

theorem Transformer.mkSettings_spends (f : Factory) (owner : Option Ty)
    (settings : List Restriction) :
    Spends 0 (mkSettings f owner settings) (Stmt.partsOf hidden) :=
  Variable.mkReads_spends hidden f.held owner (mkRestriction_spends hidden)

theorem DocumentBuilder.mkSetFeature_spends (factory feature : Expr) (enabled : Bool) :
    Spends (feature.parts hidden) (mkSetFeature factory feature enabled) (Stmt.parts hidden) := by
  refine (Expr.freshCopy_spends hidden factory).bind_new fun copy => ?_
  refine (Expr.mkBool_spends hidden enabled).bind_new fun value => ?_
  refine .next 0 (Expr.mkCall_spends hidden copy _ [feature, value])
    (fun call => (Stmt.mkExpr_spends hidden call).of_le (Multiset.le_add_right _ _)) (le_of_eq ?_)
  simp only [Expr.partsOf_cons, Expr.partsOf_nil]
  abel

theorem DocumentBuilder.mkGuarded_spends (stmts : List Stmt) (opening feature exception : String) :
    Spends (Stmt.partsOf hidden stmts) (mkGuarded stmts opening feature exception)
      (Stmt.parts hidden) := by
  refine (Expr.mkString_spends hidden opening).bind_new fun text => ?_
  refine (Expr.mkIdent_spends hidden feature .string).bind_new fun name => ?_
  refine .next (Stmt.partsOf hidden stmts) (Expr.mkAdd_spends hidden text name) (fun start => ?_)
    (le_of_eq (by abel))
  refine (Expr.mkString_spends hidden _).bind_new fun ending => ?_
  refine .next (Stmt.partsOf hidden stmts) (Expr.mkAdd_spends hidden start ending)
    (fun message => ?_) (le_of_eq (by abel))
  refine (Expr.mkIdent_spends hidden exception _).bind_new fun cause => ?_
  refine .next (Stmt.partsOf hidden stmts) (Expr.mkCreate_spends hidden _ [message, cause])
    (fun error => ?_) (le_of_eq (by simp only [Expr.partsOf_cons, Expr.partsOf_nil]; abel))
  refine .next (Stmt.partsOf hidden stmts) ((Stmt.make_spends hidden (.throwStmt error)).of_le
    (by simp [Stmt.children, Expr.parts])) (fun rethrow => ?_) le_rfl
  refine .next (Stmt.partsOf hidden stmts) (Block.make_spends hidden [rethrow] false)
    (fun body => ?_) (le_of_eq (by simp))
  refine .next (Stmt.partsOf hidden stmts) (CatchClause.make_spends hidden _ exception body)
    (fun handler => ?_) le_rfl
  refine .next (Node.partsOf hidden handler.children) (Block.make_spends hidden stmts false)
    (fun tried => ?_) (le_of_eq (add_comm _ _))
  refine (Stmt.make_spends hidden (.tryCatch [] tried [handler] none)).of_le (le_of_eq ?_)
  simp [Stmt.children, Block.parts]

theorem DocumentBuilder.mkRefuseDoctype_spends (factory : Expr) (feature exception : String) :
    Spends 0 (mkRefuseDoctype factory feature exception) (Stmt.partsOf hidden) := by
  refine (Expr.mkString_spends hidden _).bind_new fun text => ?_
  refine .next 0 (Stmt.mkDeclare_spends hidden [] .string feature (some text))
    (fun declaration => ?_) (le_of_eq (by simp [Option.toList]))
  refine (Expr.mkIdent_spends hidden feature .string).bind_new fun name => ?_
  refine .next (declaration.parts hidden) (mkSetFeature_spends hidden factory name true)
    (fun enable => ?_) (le_of_eq (by abel))
  refine .next (declaration.parts hidden) (mkGuarded_spends hidden [enable] _ feature exception)
    (fun guarded => ?_) (le_of_eq (by simp))
  exact .pure (by simp [add_comm])

theorem DocumentBuilder.mkClear_spends (factory : Expr) (method : MethodRef) :
    Spends 0 (mkClear factory method) (Stmt.parts hidden) :=
  Stmt.mkCallOnCopy_spends hidden factory method (Expr.mkBool_spends hidden false)

theorem DocumentBuilder.mkSwitchOff_spends (factory : Expr) (feature name : String) :
    Spends 0 (mkSwitchOff factory feature name) (Stmt.partsOf hidden) := by
  refine (Expr.mkIdent_spends hidden feature .string).bind_new fun target => ?_
  refine (Expr.mkString_spends hidden name).bind_new fun value => ?_
  refine .next 0 (Expr.mkAssign_spends hidden target value) (fun assign => ?_)
    (le_of_eq (by abel))
  refine .next 0 (Stmt.mkExpr_spends hidden assign) (fun first => ?_) (le_refl _)
  refine (Expr.mkIdent_spends hidden feature .string).bind_new fun read => ?_
  refine .next (first.parts hidden) (mkSetFeature_spends hidden factory read false)
    (fun second => ?_) (le_of_eq (by abel))
  exact .pure (by simp [add_comm])

/-- The end of switching entity features off. -/
def DocumentBuilder.mkSwitchedOff (factory : Expr) (feature exception : String) (declaration : Stmt)
    (features : List (List Stmt)) (xinclude : List Stmt) : Fresh (List Stmt) := do
  let expand ← mkClear factory Jdk.documentBuilderFactorySetExpandEntityReferences
  let constant ← Expr.mkStaticField (.known Fqn.xmlConstants) "FEATURE_SECURE_PROCESSING" .string
  let secure ← mkSetFeature factory constant true
  return [declaration, ← mkGuarded (features.flatten ++ xinclude ++ [expand, secure])
    "The feature '" feature exception]

theorem DocumentBuilder.mkSwitchedOff_spends (factory : Expr) (feature exception : String)
    (declaration : Stmt) (features : List (List Stmt)) (xinclude : List Stmt) :
    Spends (declaration.parts hidden + Stmt.partsOf hidden features.flatten +
        Stmt.partsOf hidden xinclude)
      (mkSwitchedOff factory feature exception declaration features xinclude)
      (Stmt.partsOf hidden) := by
  refine (mkClear_spends hidden factory _).bind_new fun expand => ?_
  refine (Expr.mkStaticField_spends hidden _ _ _).bind_new fun constant => ?_
  refine .next _ (mkSetFeature_spends hidden factory constant true) (fun secure => ?_) le_rfl
  refine .next (declaration.parts hidden) (mkGuarded_spends hidden
    (features.flatten ++ xinclude ++ [expand, secure]) _ feature exception) (fun guarded => ?_)
    (le_of_eq ?_)
  · exact .pure (by simp [add_comm])
  · simp only [Stmt.partsOf_append, Stmt.partsOf_cons, Stmt.partsOf_nil]
    abel

theorem DocumentBuilder.mkDisableEntities_spends (factory : Expr) (feature exception : String)
    (xincludeSet : Bool) :
    Spends 0 (mkDisableEntities factory feature exception xincludeSet) (Stmt.partsOf hidden) := by
  have flat (features : List (List Stmt)) : (features.map (Stmt.partsOf hidden)).sum =
      Stmt.partsOf hidden features.flatten := by
    induction features with
    | nil => rfl
    | cons stmts features ih =>
      rw [List.map_cons, List.sum_cons, ih, List.flatten_cons, Stmt.partsOf_append]
  refine Expr.mkNull_spends hidden |>.bind_new fun null => ?_
  refine .next 0 (Stmt.mkDeclare_spends hidden [] .string feature (some null))
    (fun declaration => ?_) (le_of_eq (by simp [Option.toList]))
  refine (Spends.mapM_new fun name (_ : name ∈ entityFeatures) =>
    mkSwitchOff_spends hidden factory feature name).bind_new fun features => ?_
  rw [flat]
  show Spends _ (if xincludeSet then
      pure [] >>= mkSwitchedOff factory feature exception declaration features
    else (do
      let clear ← mkClear factory Jdk.documentBuilderFactorySetXincludeAware
      let xinclude ← pure [clear]
      mkSwitchedOff factory feature exception declaration features xinclude)) _
  have rest (xinclude : List Stmt) :=
    mkSwitchedOff_spends hidden factory feature exception declaration features xinclude
  split
  · exact (rest []).of_le (le_of_eq (by simp [add_comm]))
  · refine (mkClear_spends hidden factory _).bind_new fun clear => ?_
    refine (rest [clear]).of_le (le_of_eq ?_)
    simp only [Stmt.partsOf_cons, Stmt.partsOf_nil]
    abel

/-- The statements that refuse document types, or switch entities off. -/
def DocumentBuilder.mkSettings (f : Factory) (owner : Option Ty) (dtdsRequired : Bool)
    (feature exception : String) (xincludeSet : Bool) : Fresh (List Stmt) := do
  let read ← f.held.mkRead owner
  if dtdsRequired then mkDisableEntities read feature exception xincludeSet
  else mkRefuseDoctype read feature exception

theorem DocumentBuilder.mkSettings_spends (f : Factory) (owner : Option Ty) (dtdsRequired : Bool)
    (feature exception : String) (xincludeSet : Bool) :
    Spends 0 (mkSettings f owner dtdsRequired feature exception xincludeSet)
      (Stmt.partsOf hidden) := by
  refine (Variable.mkRead_spends hidden f.held owner).bind_new fun read => ?_
  refine Spends.of_le ?_ (Multiset.zero_le _)
  split
  · exact mkDisableEntities_spends hidden read feature exception xincludeSet
  · exact mkRefuseDoctype_spends hidden read feature exception

/-! ## Members for random strings -/

theorem RandomString.mkGeneratorRead_spends (owner : Ty) :
    Spends 0 (mkGeneratorRead owner) (Expr.parts hidden) :=
  Expr.make_leaf_spends hidden rfl _

theorem RandomString.mkHead_spends (owner : Ty) :
    Spends 0 (mkHead owner) (Stmt.partsOf hidden) := by
  refine .next 0 (Expr.mkCreate_spends hidden _ []) (fun create => ?_) (by simp)
  refine .next 0 (Stmt.mkDeclare_spends hidden _ _ generatorField (some create))
    (fun generator => ?_) (by simp [Option.toList])
  refine (Expr.mkInt_spends hidden 20).bind_new fun twenty => ?_
  refine .next (generator.parts hidden) (Stmt.mkDeclare_spends hidden _ _ lengthField (some twenty))
    (fun count => ?_) (by simp [Option.toList])
  refine (Expr.mkInt_spends hidden 64).bind_new fun size => ?_
  refine .next _ (Expr.mkArray_spends hidden _ size) (fun bytes => ?_) le_rfl
  refine (mkGeneratorRead_spends hidden owner).bind_new fun read => ?_
  refine .next (count.parts hidden + generator.parts hidden)
    (Expr.mkCall_spends hidden read _ [bytes]) (fun call => ?_) (by simp [add_assoc])
  refine .next _ (Stmt.mkExpr_spends hidden call) (fun warmUp => ?_) le_rfl
  refine .next (count.parts hidden + generator.parts hidden)
    (Block.make_spends hidden [warmUp] true) (fun body => ?_) (by simp)
  refine .next _ ((Stmt.make_spends hidden (.block body)).of_le
    (by simp [Stmt.children, Block.parts])) (fun initializer => ?_) le_rfl
  refine .pure (le_of_eq ?_)
  simp only [Stmt.partsOf_cons, Stmt.partsOf_nil]
  abel

theorem RandomString.mkMethod_spends (owner : Ty) (utils : String) :
    Spends 0 (mkMethod owner utils) (Stmt.parts hidden) := by
  refine (Expr.make_leaf_spends hidden rfl _).bind_new fun length => ?_
  refine (Expr.mkInt_spends hidden 0).bind_new fun start => ?_
  refine (Expr.mkInt_spends hidden 0).bind_new fun ending => ?_
  refine (Expr.mkBool_spends hidden true).bind_new fun letters => ?_
  refine (Expr.mkBool_spends hidden true).bind_new fun numbers => ?_
  refine (Expr.mkNull_spends hidden).bind_new fun chars => ?_
  refine (mkGeneratorRead_spends hidden owner).bind_new fun generator => ?_
  refine .next 0 (Expr.mkStaticCall_spends hidden _
    [length, start, ending, letters, numbers, chars, generator]) (fun drawn => ?_) (le_of_eq ?_)
  · refine .next 0 ((Stmt.make_spends hidden (.returnStmt (some drawn))).of_le
      (by simp [Stmt.children, Expr.parts])) (fun answer => ?_) le_rfl
    refine .next 0 (Block.make_spends hidden [answer] false) (fun body => ?_) (by simp)
    exact (Stmt.make_spends hidden (.method _ (some body))).of_le
      (by simp [Stmt.children, Block.parts])
  · simp only [Expr.partsOf_cons, Expr.partsOf_nil]
    abel

/-! ## Paths -/

namespace PathTraversal

/-- A directory with a separator behind it. -/
def PartialPath.mkCompleted (directory : Expr) : Fresh Expr := do
  Expr.mkAdd directory (← Expr.mkStaticField .file "separator" .string)

theorem PartialPath.mkCompleted_spends (directory : Expr) :
    Spends (directory.parts hidden) (mkCompleted directory) (Expr.parts hidden) := by
  refine (Expr.mkStaticField_spends hidden _ _ _).bind_new fun separator => ?_
  exact (Expr.mkAdd_spends hidden directory separator).of_le (le_of_eq (add_comm _ _))

namespace Normalize

theorem operandsBefore_le (e : Expr) (after : List Expr) :
    Expr.partsOf hidden (operandsBefore e after) ≤ e.parts hidden + Expr.partsOf hidden after := by
  fun_induction operandsBefore e after with
  | case1 after id ty left right isString ih =>
    refine le_trans ih ?_
    have both : Expr.partsOf hidden [left, right] ≤
        Expr.parts hidden ⟨id, ty, .binary .add left right⟩ := Expr.partsOf_children_le _
    rw [Expr.partsOf_cons, Expr.partsOf_cons, Expr.partsOf_nil, add_zero] at both
    rw [Expr.partsOf_cons, ← add_assoc]
    gcongr
  | case2 => exact le_of_eq (Expr.partsOf_cons _ _)
  | case3 => exact le_of_eq (Expr.partsOf_cons _ _)

theorem operandsOf_le (e : Expr) : Expr.partsOf hidden (operandsOf e) ≤ e.parts hidden := by
  refine le_trans (operandsBefore_le hidden e.unparen []) ?_
  rw [Expr.partsOf_nil, add_zero]
  exact e.unparen_le hidden

/-- Operands that are put together again. -/
theorem mkConcatenation?_spends (operands : List Expr) :
    Spends (Expr.partsOf hidden operands) (mkConcatenation? operands)
      fun e => Expr.partsOf hidden e.toList := by
  have sums (rest : List Expr) : ∀ first : Expr,
      Spends (first.parts hidden + Expr.partsOf hidden rest) (rest.foldlM Expr.mkAdd first)
        (Expr.parts hidden) := by
    induction rest with
    | nil => exact fun first => .pure (by simp)
    | cons second rest ih =>
      intro first
      rw [List.foldlM_cons]
      refine .next (Expr.partsOf hidden rest) (Expr.mkAdd_spends hidden first second)
        (fun sum => ih sum) (le_of_eq ?_)
      rw [Expr.partsOf_cons, add_assoc]
  cases operands with
  | nil => exact .pure (Multiset.zero_le _)
  | cons first rest =>
    rw [Expr.partsOf_cons]
    exact (sums rest first).then_ fun e => .pure (by simp)

/-- The directory ends where the child starts, or before. -/
theorem cut?_le {operands : List Expr} {userInput : List NodeId} {parentEnd childStart : Nat}
    (found : cut? operands userInput = some (parentEnd, childStart)) : parentEnd ≤ childStart := by
  unfold cut? at found
  dsimp only at found
  split at found
  · cases found
    exact Nat.le_succ _
  · cases found
    exact Nat.le_refl _
  · obtain ⟨i, -, at_⟩ := Option.map_eq_some_iff.mp found
    cases at_
    exact Nat.le_refl _

theorem take_drop_le {operands : List Expr} {parentEnd childStart : Nat}
    (le : parentEnd ≤ childStart) :
    Expr.partsOf hidden (operands.take parentEnd) + Expr.partsOf hidden (operands.drop childStart) ≤
      Expr.partsOf hidden operands := by
  obtain ⟨skipped, rfl⟩ := Nat.exists_eq_add_of_le le
  calc Expr.partsOf hidden (operands.take parentEnd) +
        Expr.partsOf hidden (operands.drop (parentEnd + skipped))
      ≤ Expr.partsOf hidden (operands.take parentEnd) +
          Expr.partsOf hidden ((operands.drop parentEnd).take skipped ++
            (operands.drop parentEnd).drop skipped) := by
        rw [Expr.partsOf_append, List.drop_drop]
        gcongr
        exact Multiset.le_add_left _ _
    _ = Expr.partsOf hidden operands := by
        rw [List.take_append_drop, ← Expr.partsOf_append, List.take_append_drop]

theorem splitPath?_spends (path : Expr) (userInput : List NodeId) :
    Spends (path.parts hidden) (splitPath? path userInput)
      fun file => Expr.partsOf hidden file.toList := by
  refine Spends.of_le ?_ (operandsOf_le hidden path)
  unfold splitPath?
  dsimp only
  split
  · exact .pure (Multiset.zero_le _)
  · split
    next => exact .pure (Multiset.zero_le _)
    next parentEnd childStart found =>
      refine Spends.of_le ?_ (take_drop_le hidden (cut?_le found))
      refine (mkConcatenation?_spends hidden _).bind fun parent => ?_
      rw [add_comm]
      refine (mkConcatenation?_spends hidden _).bind fun child => ?_
      split
      next parent child =>
        split
        · refine .next 0 (Expr.mkCreate_spends hidden _ [parent, child])
            (fun file => .pure (by simp)) (le_of_eq ?_)
          simp [add_comm]
        · exact .pure (Multiset.zero_le _)
      next => exact .pure (Multiset.zero_le _)

/-- A creation with another first argument. -/
theorem withFile?_spends {sink : Expr} {path file : Expr} {rest : List Expr}
    (args : sink.args = path :: rest) :
    Spends (file.parts hidden + Expr.partsOf hidden rest) (withFile? sink file)
      fun new => Expr.partsOf hidden new.toList := by
  obtain ⟨id, ty, form⟩ := sink
  unfold withFile?
  dsimp only
  split
  next className first others method =>
    cases args
    refine .next 0 (Expr.make_spends hidden (.create className (file :: rest) _) ty)
      (fun new => .pure (by simp)) (le_of_eq ?_)
    simp [ExprForm.children]
  next => exact .pure (Multiset.zero_le _)

theorem normalized?_spends (matcher : CallMatcher) (userInput : List NodeId) (e : Expr) :
    Spends (e.parts hidden) (normalized? matcher userInput e)
      fun new => Expr.partsOf hidden (new.map (·.1)).toList := by
  unfold normalized?
  split
  next => exact .pure (Multiset.zero_le _)
  next path head =>
    obtain ⟨rest, args⟩ : ∃ rest, e.args = path :: rest := by
      cases h : e.args with
      | nil => rw [h] at head; cases head
      | cons first rest =>
        rw [h] at head
        cases head
        exact ⟨rest, rfl⟩
    have budget : path.parts hidden + Expr.partsOf hidden rest ≤ e.parts hidden := by
      rw [← Expr.partsOf_cons, ← args]
      exact e.partsOf_args_le hidden
    refine Spends.of_le ?_ budget
    have finish (file : Expr) : Spends (file.parts hidden + Expr.partsOf hidden rest)
        (do return (← withFile? e file).map fun sink => (sink, [Fqn.file]))
        fun new => Expr.partsOf hidden (new.map (·.1)).toList := by
      refine (withFile?_spends hidden args).then_ fun sink => .pure ?_
      cases sink <;> simp
    split
    · refine .next 0 (splitPath?_spends hidden path userInput) (fun file => .pure ?_) ?_
      · cases file <;> simp
      · gcongr
        exact Multiset.zero_le _
    · split
      · refine (splitPath?_spends hidden path userInput).orElse hidden le_rfl |>.bind fun answer => ?_
        cases answer with
        | some file => exact finish file
        | none =>
          refine .next _ ((Expr.mkCreate_spends hidden _ [path]).of_le (by simp))
            (fun file => finish file) le_rfl
      · exact .pure (Multiset.zero_le _)

end Normalize

end PathTraversal

end

end JavaMend
