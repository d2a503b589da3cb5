import JavaMend.Proofs.Patch.Applied
import JavaMend.Proofs.Remedy.Written
import JavaMend.Proofs.Tree.Sound

/-!
# What remedies make is sound

One lemma for each maker of the remedies: what it makes is sound if its operands are, and
if the classes that the remedy asks imports for are known. Where an operand becomes a
receiver or a summand, it has to hold together as it is; the makers add no parentheses.
-/

namespace JavaMend

variable {known : String → Prop}

/-- An argument of a sound call is sound. -/
theorem Expr.Sound.arg {e arg : Expr} (sound : e.Sound known) (mem : arg ∈ e.args) :
    arg.Sound known :=
  (Expr.sound_iff.mp sound).2.2 arg (Expr.mem_children_of_args mem)

theorem Expr.Sound.child {e c : Expr} (sound : e.Sound known) (mem : c ∈ e.children) :
    c.Sound known :=
  (Expr.sound_iff.mp sound).2.2 c mem

theorem Expr.Sound.unparen {e : Expr} (sound : e.Sound known) : e.unparen.Sound known := by
  fun_induction Expr.unparen e with
  | case1 id ty inner ih => exact ih (sound.child List.mem_cons_self)
  | case2 e plain => exact sound

theorem Variable.mkRead_firm (known : String → Prop) (v : Variable) (owner : Option Ty) :
    (v.mkRead owner).Gives (Expr.Firm known) := fun _ => Expr.firm_ident

/-- Statements that are made one after the other for a new read of a variable. -/
theorem Variable.mkReads_sound {α : Type} (v : Variable) (owner : Option Ty) {items : List α}
    {make : Expr → α → Fresh Stmt}
    (sound : ∀ read a, read.Firm known → (make read a).Gives (Stmt.Sound known)) :
    Fresh.Gives (do
      let read ← v.mkRead owner
      items.mapM (make read)) fun stmts => ∀ s ∈ stmts, s.Sound known :=
  (mkRead_firm known v owner).bind fun read firm => .mapM_all fun a _ => sound read a firm

/-- A call on a copy of an expression, as a statement. -/
theorem Stmt.callOnCopy_sound {copy : Expr} (firm : copy.Firm known) {method : MethodRef}
    {args : List Expr} (sound : ∀ a ∈ args, a.Sound known) (onInstance : method.isStatic = false) :
    Fresh.Gives (do Stmt.mkExpr (← Expr.mkCall copy method args)) (Stmt.Sound known) :=
  (Expr.mkCall_firm firm sound onInstance).bind fun _ call _ => Stmt.sound_expr call.sound

/-! ## Replacements and single statements -/

theorem Cookie.mkEnable_sound (v : Variable) : (mkEnable v).Gives (Stmt.Sound known) := by
  refine (Variable.mkRead_firm known v none).bind fun read firm => ?_
  refine (Expr.mkBool_firm known true).bind fun value firmValue => ?_
  exact Stmt.callOnCopy_sound firm (List.forall_mem_singleton.mpr firmValue.sound) rfl

/-- What a static method of `Files` makes, as a file. -/
theorem Expr.mkToFile_firm {method : MethodRef} {args : List Expr}
    (sound : ∀ a ∈ args, a.Sound known) (named : ∀ fqn ∈ method.owner.fqn?, known fqn) :
    Fresh.Gives (do
      let made ← Expr.mkStaticCall method args
      return some (← Expr.mkCall made Jdk.pathToFile [])) fun new => ∀ e ∈ new, e.Firm known := by
  refine (Expr.mkStaticCall_firm sound named).bind fun made firm => ?_
  refine (Expr.mkCall_firm firm (fun a none => (List.not_mem_nil none).elim) rfl).bind
    fun file firm => .pure ?_
  rintro e ⟨⟩
  exact firm

/-- The directory of a call, as a path. -/
theorem TempDirectory.mkParent_firm {create dir : Expr} (sound : create.Sound known)
    (found : directory? create = some dir) (strong : dir.form.strength = 9) :
    (Expr.mkCall dir Jdk.fileToPath []).Gives (Expr.Firm known) := by
  have mem : dir ∈ create.args :=
    List.mem_of_getElem? (Option.filter_eq_some_iff.mp found).1
  exact Expr.mkCall_firm ⟨sound.arg mem, strong⟩ (fun a none => (List.not_mem_nil none).elim) rfl

theorem TempFile.replacement?_firm {create : Expr} (files : known Fqn.files)
    (sound : create.Sound known)
    (strong : ∀ dir ∈ TempDirectory.directory? create, dir.form.strength = 9) :
    (replacement? create).Gives fun new => ∀ e ∈ new, e.Firm known := by
  have named := Ty.named_known files
  unfold replacement?
  split
  next start ending rest args =>
    have soundArgs : ∀ a ∈ [start, ending], a.Sound known := by
      intro a mem
      refine sound.arg ?_
      rw [args]
      exact List.mem_append_left rest mem
    cases found : TempDirectory.directory? create with
    | none => exact Expr.mkToFile_firm soundArgs named
    | some dir =>
      refine (TempDirectory.mkParent_firm sound found (strong dir found)).bind fun parent firm => ?_
      exact Expr.mkToFile_firm (List.forall_mem_cons.mpr ⟨firm.sound, soundArgs⟩) named
  next => exact .pure fun _ none => nomatch none

theorem TempDirectory.mkDirectory_firm {create name : Expr} (files : known Fqn.files)
    (sound : create.Sound known) (strong : ∀ dir ∈ directory? create, dir.form.strength = 9)
    (soundName : name.Sound known) :
    (mkDirectory (directory? create) name).Gives fun new => ∀ e ∈ new, e.Firm known := by
  have named := Ty.named_known files
  have alone : ∀ a ∈ [name], a.Sound known := by
    intro a mem
    cases List.mem_singleton.mp mem
    exact soundName
  cases found : directory? create with
  | none => exact Expr.mkToFile_firm alone named
  | some dir =>
    refine (mkParent_firm sound found (strong dir found)).bind fun parent firm => ?_
    exact Expr.mkToFile_firm (List.forall_mem_cons.mpr ⟨firm.sound, alone⟩) named

theorem TempDirectory.replacement?_firm {create : Expr} (files : known Fqn.files)
    (sound : create.Sound known) (strong : ∀ dir ∈ directory? create, dir.form.strength = 9)
    (summands : ∀ start ending rest, create.args = start :: ending :: rest →
      isNull ending = false → 6 ≤ start.form.strength ∧ 7 ≤ ending.form.strength) :
    (replacement? create).Gives fun new => ∀ e ∈ new, e.Firm known := by
  unfold replacement?
  split
  next start ending rest args =>
    have soundStart : start.Sound known := sound.arg (by rw [args]; exact List.mem_cons_self)
    have soundEnding : ending.Sound known :=
      sound.arg (by rw [args]; exact List.mem_cons_of_mem _ List.mem_cons_self)
    show Fresh.Gives (if isNull ending then pure start >>= mkDirectory (directory? create)
      else Expr.mkAdd start ending >>= mkDirectory (directory? create)) _
    split
    next => exact (Fresh.Gives.pure soundStart).bind fun name soundName =>
        mkDirectory_firm files sound strong soundName
    next other =>
      obtain ⟨bindsStart, bindsEnding⟩ := summands start ending rest args (by simpa using other)
      exact (Expr.mkAdd_sound soundStart soundEnding bindsStart bindsEnding).bind
        fun name made => mkDirectory_firm files sound strong made.1
  next => exact .pure fun _ none => nomatch none

/-! ## Configurations of factories -/

theorem mkFieldInitializer_sound {declaration : Stmt} {stmts : List Stmt}
    (sound : ∀ s ∈ stmts, s.Sound known) :
    (mkFieldInitializer declaration stmts).Gives (Stmt.Sound known) := fun _ =>
  Stmt.sound_block (Block.sound_iff.mpr sound)

theorem XmlInput.mkDisable_sound {factory : Expr} (firm : factory.Firm known)
    (constants : known Fqn.xmlInputFactory) (property : Property) :
    (mkDisable factory property).Gives (Stmt.Sound known) := by
  refine firm.copy.bind fun copy firm => ?_
  refine (Expr.mkStaticField_firm (Ty.named_known constants)).bind fun key firmKey => ?_
  refine (Expr.mkBool_firm known false).bind fun value firmValue => ?_
  exact Stmt.callOnCopy_sound firm (List.forall_mem_cons.mpr ⟨firmKey.sound,
    List.forall_mem_singleton.mpr firmValue.sound⟩) rfl

theorem XmlInput.mkSettings_sound (f : Factory) (owner : Option Ty) (properties : List Property)
    (constants : known Fqn.xmlInputFactory) :
    (mkSettings f owner properties).Gives fun stmts => ∀ s ∈ stmts, s.Sound known :=
  Variable.mkReads_sound f.held owner fun _ property firm => mkDisable_sound firm constants property

theorem Transformer.mkRestriction_sound {factory : Expr} (firm : factory.Firm known)
    (constants : known Fqn.xmlConstants) (restriction : Restriction) :
    (mkRestriction factory restriction).Gives (Stmt.Sound known) := by
  refine (Expr.mkStaticField_firm (Ty.named_known constants)).bind fun key firmKey => ?_
  refine firm.copy.bind fun copy firm => ?_
  have args {value : Expr} (firmValue : value.Firm known) : ∀ a ∈ [key, value], a.Sound known :=
    List.forall_mem_cons.mpr ⟨firmKey.sound, List.forall_mem_singleton.mpr firmValue.sound⟩
  cases restriction with
  | secureProcessing => exact (Expr.mkBool_firm known true).bind fun value firmValue =>
      Stmt.callOnCopy_sound firm (args firmValue) rfl
  | _ => exact (Expr.mkString_firm known "").bind fun value firmValue =>
      Stmt.callOnCopy_sound firm (args firmValue) rfl

theorem Transformer.mkSettings_sound (f : Factory) (owner : Option Ty)
    (settings : List Restriction) (constants : known Fqn.xmlConstants) :
    (mkSettings f owner settings).Gives fun stmts => ∀ s ∈ stmts, s.Sound known :=
  Variable.mkReads_sound f.held owner fun _ restriction firm =>
    mkRestriction_sound firm constants restriction

namespace DocumentBuilder

theorem mkSetFeature_sound {factory feature : Expr} (firm : factory.Firm known)
    (sound : feature.Sound known) (enabled : Bool) :
    (mkSetFeature factory feature enabled).Gives (Stmt.Sound known) := by
  refine firm.copy.bind fun copy firm => ?_
  refine (Expr.mkBool_firm known enabled).bind fun value firmValue => ?_
  exact Stmt.callOnCopy_sound firm (List.forall_mem_cons.mpr ⟨sound,
    List.forall_mem_singleton.mpr firmValue.sound⟩) rfl

theorem mkClear_sound {factory : Expr} (firm : factory.Firm known) {method : MethodRef}
    (onInstance : method.isStatic = false) : (mkClear factory method).Gives (Stmt.Sound known) := by
  refine firm.copy.bind fun copy firm => ?_
  refine (Expr.mkBool_firm known false).bind fun value firmValue => ?_
  exact Stmt.callOnCopy_sound firm (List.forall_mem_singleton.mpr firmValue.sound) onInstance

theorem mkGuarded_sound {stmts : List Stmt} (sound : ∀ s ∈ stmts, s.Sound known)
    (thrown : known Fqn.parserConfigurationException) (rethrown : known Fqn.illegalStateException)
    (opening feature exception : String) :
    (mkGuarded stmts opening feature exception).Gives (Stmt.Sound known) := by
  refine (Expr.mkString_firm known opening).bind fun first firmFirst => ?_
  refine (Expr.mkIdent_firm known feature .string).bind fun name firmName => ?_
  refine (Expr.mkAdd_sound firmFirst.sound firmName.sound (by rw [firmFirst.strength]; decide)
    (by rw [firmName.strength]; decide)).bind fun start soundStart => ?_
  refine (Expr.mkString_firm known _).bind fun last firmLast => ?_
  refine (Expr.mkAdd_sound soundStart.1 firmLast.sound (by rw [soundStart.2])
    (by rw [firmLast.strength]; decide)).bind fun message soundMessage => ?_
  refine (Expr.mkIdent_firm known exception _).bind fun cause firmCause => ?_
  refine (Expr.mkCreate_firm ?_ (Ty.named_known rethrown)).bind fun error firmError next => ?_
  · exact List.forall_mem_cons.mpr ⟨soundMessage.1, List.forall_mem_singleton.mpr firmCause.sound⟩
  · have named := Ty.named_known thrown
    refine Stmt.sound_try (Block.sound_iff.mpr sound) (Stmt.sound_var ?_ named)
      (Block.sound_iff.mpr ?_) ?_
    · exact fun _ none => nomatch none
    · exact List.forall_mem_singleton.mpr (Stmt.sound_throw firmError.sound)
    · exact List.forall_mem_singleton.mpr named

theorem mkRefuseDoctype_sound {factory : Expr} (firm : factory.Firm known) (text : known Fqn.string)
    (thrown : known Fqn.parserConfigurationException) (rethrown : known Fqn.illegalStateException)
    (feature exception : String) :
    (mkRefuseDoctype factory feature exception).Gives fun stmts => ∀ s ∈ stmts, s.Sound known := by
  refine (Expr.mkString_firm known _).bind fun value firmValue => ?_
  refine (Stmt.mkDeclare_sound firmValue.sound (Ty.named_known text)).bind
    fun declaration declared => ?_
  refine (Expr.mkIdent_firm known _ _).bind fun name firmName => ?_
  refine (mkSetFeature_sound firm firmName.sound true).bind fun enable enabled => ?_
  refine (mkGuarded_sound (List.forall_mem_singleton.mpr enabled) thrown rethrown _ _ _).bind
    fun guarded sound => .pure ?_
  exact List.forall_mem_cons.mpr ⟨declared, List.forall_mem_singleton.mpr sound⟩

theorem mkSwitchOff_sound {factory : Expr} (firm : factory.Firm known) (feature name : String) :
    (mkSwitchOff factory feature name).Gives fun stmts => ∀ s ∈ stmts, s.Sound known := by
  refine (Expr.mkIdent_firm known _ _).bind fun target firmTarget => ?_
  refine (Expr.mkString_firm known _).bind fun value firmValue => ?_
  refine (Expr.mkAssign_sound firmTarget.sound firmValue.sound).bind fun assign soundAssign => ?_
  refine (Stmt.mkExpr_sound soundAssign).bind fun first soundFirst => ?_
  refine (Expr.mkIdent_firm known _ _).bind fun read firmRead => ?_
  refine (mkSetFeature_sound firm firmRead.sound false).bind fun second soundSecond => .pure ?_
  exact List.forall_mem_cons.mpr ⟨soundFirst, List.forall_mem_singleton.mpr soundSecond⟩

theorem mkSwitchedOff_sound {factory : Expr} (firm : factory.Firm known)
    (constants : known Fqn.xmlConstants) (thrown : known Fqn.parserConfigurationException)
    (rethrown : known Fqn.illegalStateException) (feature exception : String) {declaration : Stmt}
    (declared : declaration.Sound known) {features : List (List Stmt)}
    (switched : ∀ stmts ∈ features, ∀ s ∈ stmts, s.Sound known) {xinclude : List Stmt}
    (cleared : ∀ s ∈ xinclude, s.Sound known) :
    (mkSwitchedOff factory feature exception declaration features xinclude).Gives
      fun stmts => ∀ s ∈ stmts, s.Sound known := by
  refine (mkClear_sound firm rfl).bind fun expand soundExpand => ?_
  refine (Expr.mkStaticField_firm (Ty.named_known constants)).bind fun constant firmConstant => ?_
  refine (mkSetFeature_sound firm firmConstant.sound true).bind fun secure soundSecure => ?_
  refine (mkGuarded_sound ?_ thrown rethrown _ _ _).bind fun guarded sound => .pure ?_
  · intro s mem
    rcases List.mem_append.mp mem with mem | mem
    · rcases List.mem_append.mp mem with mem | mem
      · obtain ⟨stmts, inside, mem⟩ := List.mem_flatten.mp mem
        exact switched stmts inside s mem
      · exact cleared s mem
    · exact List.forall_mem_cons.mpr ⟨soundExpand, List.forall_mem_singleton.mpr soundSecure⟩ s mem
  · exact List.forall_mem_cons.mpr ⟨declared, List.forall_mem_singleton.mpr sound⟩

theorem mkDisableEntities_sound {factory : Expr} (firm : factory.Firm known)
    (text : known Fqn.string) (constants : known Fqn.xmlConstants)
    (thrown : known Fqn.parserConfigurationException) (rethrown : known Fqn.illegalStateException)
    (feature exception : String) (xincludeSet : Bool) :
    (mkDisableEntities factory feature exception xincludeSet).Gives
      fun stmts => ∀ s ∈ stmts, s.Sound known := by
  refine (Expr.mkNull_firm known).bind fun null firmNull => ?_
  refine (Stmt.mkDeclare_sound firmNull.sound (Ty.named_known text)).bind
    fun declaration declared => ?_
  refine (Fresh.Gives.mapM_all fun name _ => mkSwitchOff_sound firm feature name).bind
    fun features switched => ?_
  have rest {xinclude : List Stmt} (cleared : ∀ s ∈ xinclude, s.Sound known) :=
    mkSwitchedOff_sound firm constants thrown rethrown feature exception declared switched cleared
  show Fresh.Gives (if xincludeSet then
      pure [] >>= mkSwitchedOff factory feature exception declaration features
    else (do
      let clear ← mkClear factory Jdk.documentBuilderFactorySetXincludeAware
      let xinclude ← pure [clear]
      mkSwitchedOff factory feature exception declaration features xinclude)) _
  split
  · exact rest fun _ none => (List.not_mem_nil none).elim
  · exact (mkClear_sound firm rfl).bind fun clear sound => rest (List.forall_mem_singleton.mpr sound)

theorem mkSettings_sound (f : Factory) (owner : Option Ty) (dtdsRequired : Bool)
    (feature exception : String) (xincludeSet : Bool) (text : known Fqn.string)
    (thrown : known Fqn.parserConfigurationException) (rethrown : known Fqn.illegalStateException)
    (constants : dtdsRequired = true → known Fqn.xmlConstants) :
    (mkSettings f owner dtdsRequired feature exception xincludeSet).Gives
      fun stmts => ∀ s ∈ stmts, s.Sound known := by
  refine (Variable.mkRead_firm known f.held owner).bind fun read firm => ?_
  split
  next required => exact mkDisableEntities_sound firm text (constants required) thrown rethrown _ _ _
  next => exact mkRefuseDoctype_sound firm text thrown rethrown _ _

end DocumentBuilder

/-! ## Members for random strings -/

namespace RandomString

theorem mkGeneratorRead_firm (known : String → Prop) (owner : Ty) :
    (mkGeneratorRead owner).Gives (Expr.Firm known) := fun _ => Expr.firm_ident

theorem mkHead_sound (owner : Ty) (generator : known Fqn.secureRandom) :
    (mkHead owner).Gives fun stmts => ∀ s ∈ stmts, s.Sound known := by
  have named := Ty.named_known generator
  refine (Expr.mkCreate_firm (fun a none => (List.not_mem_nil none).elim) named).bind
    fun create firm => ?_
  refine (Stmt.mkDeclare_sound firm.sound named).bind fun field soundField => ?_
  refine (Expr.mkInt_firm known 20).bind fun twenty firmTwenty => ?_
  have plain : ∀ fqn ∈ Ty.int.fqn?, known fqn := by rintro fqn ⟨⟩
  refine (Stmt.mkDeclare_sound firmTwenty.sound plain).bind fun count soundCount => ?_
  refine (Expr.mkInt_firm known 64).bind fun size firmSize => ?_
  refine (Expr.mkArray_firm firmSize.sound).bind fun bytes firmBytes => ?_
  refine (mkGeneratorRead_firm known owner).bind fun read firmRead => ?_
  refine (Expr.mkCall_firm firmRead (List.forall_mem_singleton.mpr firmBytes.sound) rfl).bind
    fun call firmCall next => ?_
  refine List.forall_mem_cons.mpr ⟨soundField, List.forall_mem_cons.mpr ⟨soundCount,
    List.forall_mem_singleton.mpr (Stmt.sound_block (Block.sound_iff.mpr ?_))⟩⟩
  exact List.forall_mem_singleton.mpr (Stmt.sound_expr firmCall.sound)

theorem mkMethod_sound (owner : Ty) {utils : String} (named : known utils) :
    (mkMethod owner utils).Gives (Stmt.Sound known) := by
  intro next
  refine Stmt.sound_method (Block.sound_iff.mpr (List.forall_mem_singleton.mpr
    (Stmt.sound_return (Expr.mkStaticCall_firm (fun a mem => ?_) ?_ _).sound)))
  · simp only [List.mem_cons, List.not_mem_nil, or_false] at mem
    rcases mem with rfl | rfl | rfl | rfl | rfl | rfl | rfl
    · exact Expr.firm_ident.sound
    all_goals first | exact Expr.firm_literal.sound | exact Expr.firm_ident.sound
  · rintro fqn ⟨⟩
    exact named

end RandomString

/-! ## Guards -/

/-- A guard around a path that holds together, in a directory that does so where it becomes
a receiver. -/
theorem mkGuard_sound {variant : GuardVariant} {thrown : ThrownException} {tainted parent : Expr}
    (firm : tainted.Firm known) (sound : parent.Sound known)
    (strong : variant ≠ .fileInString → parent.form.strength = 9) (named : known thrown.fqn)
    (message : String) : (mkGuard variant thrown message tainted parent).Gives (Stmt.Sound known) := by
  have noArgs : ∀ a ∈ ([] : List Expr), a.Sound known := fun a none => (List.not_mem_nil none).elim
  have normalized {e : Expr} (firm : e.Firm known) :
      (GuardVariant.normalized e).Gives (Expr.Firm known) := Expr.mkCall_firm firm noArgs rfl
  have normalizedFile {e : Expr} (firm : e.Firm known) :
      (GuardVariant.normalizedFile e).Gives (Expr.Firm known) :=
    (Expr.mkCall_firm firm noArgs rfl).bind fun path firm => normalized firm
  refine firm.copy.bind fun path firmPath => ?_
  have checked : Fresh.Gives (do variant.check path (← parent.freshCopy)) (Expr.Firm known) := by
    cases variant with
    | fileInFile =>
      have firmParent : parent.Firm known := ⟨sound, strong (by decide)⟩
      refine firmParent.copy.bind fun dir firmDir => ?_
      refine (normalizedFile firmPath).bind fun left firmLeft => ?_
      exact (normalizedFile firmDir).bind fun right firmRight =>
        Expr.mkCall_firm firmLeft (List.forall_mem_singleton.mpr firmRight.sound) rfl
    | fileInString =>
      refine (Expr.freshCopy_gives sound).bind fun dir copied => ?_
      exact (normalizedFile firmPath).bind fun left firmLeft =>
        Expr.mkCall_firm firmLeft (List.forall_mem_singleton.mpr copied.1) rfl
    | pathInPath =>
      have firmParent : parent.Firm known := ⟨sound, strong (by decide)⟩
      refine firmParent.copy.bind fun dir firmDir => ?_
      refine (normalized firmPath).bind fun left firmLeft => ?_
      exact (normalized firmDir).bind fun right firmRight =>
        Expr.mkCall_firm firmLeft (List.forall_mem_singleton.mpr firmRight.sound) rfl
  show Fresh.Gives (do
    let check ← (do variant.check path (← parent.freshCopy))
    let condition ← Expr.mkNot check
    let body ← Stmt.mkBlock [← Stmt.mkThrowNew thrown.ty message]
    Stmt.mkIf condition body none) _
  refine checked.bind fun check firmCheck next => ?_
  refine Stmt.sound_if (Expr.sound_unary firmCheck.sound (by rw [firmCheck.strength]; decide))
    (Stmt.sound_block (Block.sound_iff.mpr (List.forall_mem_singleton.mpr (Stmt.sound_throw
      (Expr.firm_create (List.forall_mem_singleton.mpr Expr.firm_literal.sound) ?_).sound))))
  rintro fqn ⟨⟩
  exact named

/-! ## Paths -/

namespace PathTraversal

namespace Normalize

theorem operandsBefore_all {P : Expr → Prop} (child : ∀ e c, P e → c ∈ e.children → P c) {e : Expr}
    {after : List Expr} (h : ∀ o ∈ e :: after, P o) : ∀ o ∈ operandsBefore e after, P o := by
  fun_induction operandsBefore e after with
  | case1 after id ty left right isString ih =>
    obtain ⟨sum, others⟩ := List.forall_mem_cons.mp h
    refine ih (List.forall_mem_cons.mpr ⟨child _ _ sum List.mem_cons_self,
      List.forall_mem_cons.mpr ⟨?_, others⟩⟩)
    exact child _ _ sum (List.mem_cons_of_mem _ List.mem_cons_self)
  | case2 => exact h
  | case3 => exact h

/-- What passes from an expression to its operands passes to all that a sum adds up. -/
theorem operandsOf_all {P : Expr → Prop} (child : ∀ e c, P e → c ∈ e.children → P c) {e : Expr}
    (h : P e) : ∀ o ∈ operandsOf e, P o := by
  have inside : P e.unparen := by
    fun_induction Expr.unparen e with
    | case1 id ty inner ih => exact ih (child _ _ h List.mem_cons_self)
    | case2 e plain => exact h
  exact operandsBefore_all child (List.forall_mem_singleton.mpr inside)

/-- What passes from two operands to their sum passes to the sum of more. -/
theorem mkConcatenation?_all {P : Expr → Prop}
    (add : ∀ left right, P left → P right → (Expr.mkAdd left right).Gives P) {operands : List Expr}
    (h : ∀ o ∈ operands, P o) : (mkConcatenation? operands).Gives fun sum => ∀ e ∈ sum, P e := by
  cases operands with
  | nil => exact .pure fun _ none => nomatch none
  | cons first rest =>
    obtain ⟨start, others⟩ := List.forall_mem_cons.mp h
    have sums : (rest.foldlM Expr.mkAdd first).Gives P :=
      .foldlM (fun right mem left hleft => add left right hleft (others right mem)) start
    refine sums.bind fun sum made => .pure ?_
    rintro _ ⟨⟩
    exact made

/-- Operands that can be put together as they are: all but the first hold together as the
right operand of a sum does, and the first, if it is not alone, as the left one does. -/
structure Summands (known : String → Prop) (operands : List Expr) : Prop where
  sound : ∀ o ∈ operands, o.Sound known
  first : ∀ o rest, operands = o :: rest → rest ≠ [] → 6 ≤ o.form.strength
  later : ∀ o ∈ operands.tail, 7 ≤ o.form.strength

theorem operandsBefore_summands {e : Expr} {after : List Expr} (h : Summands known (e :: after)) :
    Summands known (operandsBefore e after) := by
  fun_induction operandsBefore e after with
  | case1 after id ty left right isString ih =>
    have sound := h.sound _ List.mem_cons_self
    have grouped := Expr.isGrouped_iff.mp (Expr.sound_iff.mp sound).1
    obtain ⟨bindsLeft, rest⟩ := List.forall₂_cons.mp grouped
    obtain ⟨bindsRight, -⟩ := List.forall₂_cons.mp rest
    refine ih ⟨fun o mem => ?_, fun o rest same _ => ?_, fun o mem => ?_⟩
    · rcases List.mem_cons.mp mem with rfl | mem
      · exact sound.child List.mem_cons_self
      · rcases List.mem_cons.mp mem with rfl | mem
        · exact sound.child (List.mem_cons_of_mem _ List.mem_cons_self)
        · exact h.sound o (List.mem_cons_of_mem _ mem)
    · cases same
      exact bindsLeft
    · rcases List.mem_cons.mp mem with rfl | mem
      · exact bindsRight
      · exact h.later o mem
  | case2 => exact h
  | case3 => exact h

theorem operandsOf_summands {e : Expr} (sound : e.Sound known) : Summands known (operandsOf e) := by
  refine operandsBefore_summands ⟨?_, fun o rest same more => ?_, fun o none => ?_⟩
  · exact List.forall_mem_singleton.mpr sound.unparen
  · cases same
    exact (more rfl).elim
  · cases none

/-- The first operands of a sum. -/
theorem Summands.take {operands : List Expr} (h : Summands known operands) (count : Nat) :
    Summands known (operands.take count) where
  sound o mem := h.sound o (List.mem_of_mem_take mem)
  first o rest same more := by
    cases operands with
    | nil =>
      rw [List.take_nil] at same
      cases same
    | cons first others =>
      cases count with
      | zero => cases same
      | succ count =>
        obtain ⟨rfl, rfl⟩ := List.cons.inj same
        refine h.first _ others rfl ?_
        rintro rfl
        exact more List.take_nil
  later o mem := by
    refine h.later o ?_
    cases operands with
    | nil =>
      rw [List.take_nil] at mem
      cases mem
    | cons first others =>
      cases count with
      | zero => cases mem
      | succ count => exact List.mem_of_mem_take mem

/-- The last operands of a sum. -/
theorem Summands.drop {operands : List Expr} (h : Summands known operands) {count : Nat}
    (some : 1 ≤ count) : Summands known (operands.drop count) := by
  have later : ∀ o ∈ operands.drop count, 7 ≤ o.form.strength := by
    obtain ⟨count, rfl⟩ := Nat.exists_eq_add_of_le some
    intro o mem
    rw [← List.drop_drop, List.drop_one] at mem
    exact h.later o (List.mem_of_mem_drop mem)
  refine ⟨fun o mem => h.sound o (List.mem_of_mem_drop mem), fun o rest same _ => ?_, fun o mem => ?_⟩
  · have first := later o (same ▸ List.mem_cons_self)
    omega
  · exact later o (List.mem_of_mem_tail mem)

theorem mkConcatenation?_sound {operands : List Expr} (h : Summands known operands) :
    (mkConcatenation? operands).Gives fun sum => ∀ e ∈ sum, e.Sound known := by
  cases operands with
  | nil => exact .pure fun _ none => nomatch none
  | cons first rest =>
    suffices sums : (rest.foldlM Expr.mkAdd first).Gives (Expr.Sound known) by
      refine sums.bind fun sum sound => .pure ?_
      rintro e ⟨⟩
      exact sound
    cases rest with
    | nil => exact .pure (h.sound first List.mem_cons_self)
    | cons second rest =>
      have sound : ∀ o ∈ second :: rest, o.Sound known ∧ 7 ≤ o.form.strength := fun o mem =>
        ⟨h.sound o (List.mem_cons_of_mem _ mem), h.later o mem⟩
      rw [List.foldlM_cons]
      refine (Expr.mkAdd_sound (h.sound first List.mem_cons_self) (sound second List.mem_cons_self).1
        (h.first first _ rfl (List.cons_ne_nil _ _)) (sound second List.mem_cons_self).2).bind
        fun sum made => ?_
      have sums : (rest.foldlM Expr.mkAdd sum).Gives fun sum => sum.Sound known ∧ sum.form.strength = 6 := by
        refine .foldlM (fun o mem sum made => ?_) made
        obtain ⟨soundRight, binds⟩ := sound o (List.mem_cons_of_mem _ mem)
        exact Expr.mkAdd_sound made.1 soundRight (Nat.le_of_eq made.2.symm) binds
      exact sums.mono fun sum made => made.1

/-- The child starts behind the first operand. -/
theorem cut?_pos {operands : List Expr} {userInput : List NodeId} {parentEnd childStart : Nat}
    (found : cut? operands userInput = some (parentEnd, childStart)) : 1 ≤ childStart := by
  unfold cut? at found
  dsimp only at found
  split at found
  · cases found
    exact Nat.le_add_left _ _
  · cases found
    exact Nat.le_add_left _ _
  · obtain ⟨i, isFirst, at_⟩ := Option.map_eq_some_iff.mp found
    cases at_
    have from_ := List.find?_some isFirst
    simp only [Bool.and_eq_true, decide_eq_true_eq] at from_
    exact from_.1

/-- Which constructor there is for a directory and a child. -/
theorem constructorFor?_cases {parent child : Ty} {constructor : MethodRef}
    (chosen : constructorFor? parent child = some constructor) : child.isString = true ∧
      (parent.isFile = true ∧ constructor = Jdk.fileOfParentAndChild ∨
        parent.isString = true ∧ constructor = Jdk.fileOfStrings) := by
  unfold constructorFor? at chosen
  split at chosen
  next => cases chosen
  next text =>
    refine ⟨by simpa using text, ?_⟩
    split at chosen
    next isFile =>
      cases chosen
      exact .inl ⟨isFile, rfl⟩
    next =>
      split at chosen
      next isText =>
        cases chosen
        exact .inr ⟨isText, rfl⟩
      next => cases chosen

theorem constructorFor?_owner {parent child : Ty} {constructor : MethodRef}
    (chosen : constructorFor? parent child = some constructor) : constructor.owner = .file := by
  obtain ⟨-, ⟨-, rfl⟩ | ⟨-, rfl⟩⟩ := constructorFor?_cases chosen <;> rfl

/-- What holds of a path that is split, from what holds of the directory and of the child
of each cut. -/
theorem splitPath?_gives {path : Expr} {userInput : List NodeId} {P Q : Nat × Nat → Expr → Prop}
    {R : Expr → Prop}
    (parents : ∀ cut ∈ cut? (operandsOf path) userInput, 2 ≤ (operandsOf path).length →
      (mkConcatenation? ((operandsOf path).take cut.1)).Gives fun sum => ∀ e ∈ sum, P cut e)
    (children : ∀ cut ∈ cut? (operandsOf path) userInput,
      (mkConcatenation? ((operandsOf path).drop cut.2)).Gives fun sum => ∀ e ∈ sum, Q cut e)
    (creates : ∀ cut ∈ cut? (operandsOf path) userInput, ∀ parent child constructor,
      P cut parent → Q cut child → constructorFor? parent.ty child.ty = some constructor →
      (Expr.mkCreate constructor [parent, child]).Gives R) :
    (splitPath? path userInput).Gives fun new => ∀ e ∈ new, R e := by
  unfold splitPath?
  dsimp only
  split
  · exact .pure fun _ none => nomatch none
  next several =>
    split
    next => exact .pure fun _ none => nomatch none
    next parentEnd childStart found =>
      refine (parents _ found (Nat.le_of_not_lt several)).bind fun parent madeParent => ?_
      refine (children _ found).bind fun child madeChild => ?_
      split
      next parent child =>
        split
        next constructor chosen =>
          refine (creates _ found parent child constructor (madeParent parent rfl)
            (madeChild child rfl) chosen).bind fun new made => .pure ?_
          rintro _ ⟨⟩
          exact made
        next => exact .pure fun _ none => nomatch none
      next => exact .pure fun _ none => nomatch none

theorem splitPath?_firm {path : Expr} (userInput : List NodeId) (file : known Fqn.file)
    (sound : path.Sound known) :
    (splitPath? path userInput).Gives fun new => ∀ e ∈ new, e.Firm known := by
  have summands := operandsOf_summands sound
  refine splitPath?_gives
    (fun cut found _ => mkConcatenation?_sound (summands.take cut.1))
    (fun cut found => mkConcatenation?_sound (summands.drop (cut?_pos found)))
    fun cut found parent child constructor soundParent soundChild chosen => ?_
  refine Expr.mkCreate_firm (List.forall_mem_cons.mpr ⟨soundParent,
    List.forall_mem_singleton.mpr soundChild⟩) ?_
  rw [constructorFor?_owner chosen]
  exact Ty.named_known file

/-- A creation with a file as its first argument names what it named before. -/
theorem withFile?_firm {sink file : Expr} (sound : sink.Sound known) (soundFile : file.Sound known) :
    (withFile? sink file).Gives fun new => ∀ e ∈ new, e.Firm known := by
  obtain ⟨id, ty, form⟩ := sink
  unfold withFile?
  dsimp only
  split
  next className first rest method =>
    refine fun next => ?_
    rintro e ⟨⟩
    refine Expr.firm_create (List.forall_mem_cons.mpr ⟨soundFile, fun a mem => ?_⟩) fun fqn named => ?_
    · exact sound.child (List.mem_cons_of_mem _ mem)
    · exact (Expr.sound_iff.mp sound).2.1 ty List.mem_cons_self fqn named
  next => exact .pure fun _ none => nomatch none

theorem normalized?_firm {e : Expr} (matcher : CallMatcher) (userInput : List NodeId)
    (file : known Fqn.file) (sound : e.Sound known) :
    (normalized? matcher userInput e).Gives fun answer => ∀ new ∈ answer, new.1.Firm known := by
  unfold normalized?
  split
  next => exact .pure fun _ none => nomatch none
  next path head =>
    have soundPath : path.Sound known := sound.arg (List.mem_of_mem_head? head)
    have finish {made : Expr} (soundFile : made.Sound known) :
        Fresh.Gives (do return (← withFile? e made).map fun sink => (sink, [Fqn.file]))
          fun answer => ∀ new ∈ answer, new.1.Firm known := by
      refine (withFile?_firm sound soundFile).bind fun sink firm => .pure fun new mem => ?_
      obtain ⟨sink, at_, rfl⟩ := Option.map_eq_some_iff.mp mem
      exact firm sink at_
    split
    · refine (splitPath?_firm userInput file soundPath).bind fun split firm => .pure fun new mem => ?_
      obtain ⟨split, at_, rfl⟩ := Option.map_eq_some_iff.mp mem
      exact firm split at_
    · split
      · refine (splitPath?_firm userInput file soundPath).bind fun answer firm => ?_
        cases answer with
        | some split => exact finish (firm split rfl).sound
        | none =>
          refine (Expr.mkCreate_firm (List.forall_mem_singleton.mpr soundPath) ?_).bind
            fun whole firm => finish firm.sound
          exact Ty.named_known file
      · exact .pure fun _ none => nomatch none

end Normalize

end PathTraversal

end JavaMend
