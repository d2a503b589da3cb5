import JavaMend.Proofs.Remedy.Made
import JavaMend.Proofs.Remedy.Written
import JavaMend.Proofs.Tree.Closed

/-!
# What remedies read

One lemma for each maker of the remedies: which locals are read in what it makes. A name that is
read is that of the variable that a fix is about, or is read in the operands, or is brought in by
the maker itself (`DocumentBuilder.mkSettings_closed`). Simple names of classes are no reads.

What passes between an expression and its operands (`Expr.Passes`) passes to what splitting a
text makes of it, as this puts operands together anew (`Normalize.normalized?_passes`).
-/

namespace JavaMend

variable {known : String → Prop}

/-! ## Reads -/

/-- All locals that are read in the tree are known. -/
def Node.ReadsFrom (known : String → Prop) (n : Node) : Prop := ∀ x ∈ n.reads, known x

/-- All locals that are read in the expression are known. -/
abbrev Expr.ReadsFrom (known : String → Prop) (e : Expr) : Prop := (Node.expr e).ReadsFrom known

/-- All locals that are read in the statement are known. -/
abbrev Stmt.ReadsFrom (known : String → Prop) (s : Stmt) : Prop := (Node.stmt s).ReadsFrom known

theorem Node.readsFrom_iff {n : Node} :
    n.ReadsFrom known ↔ (∀ x ∈ n.read?, known x) ∧ ∀ c ∈ n.children, c.ReadsFrom known := by
  constructor
  · intro h
    refine ⟨fun x here => h x ?_, fun c child x mem => h x (reads_subset_of_child child mem)⟩
    rw [reads_eq]
    exact List.mem_append_left _ (Option.mem_toList.mpr here)
  · rintro ⟨own, below⟩ x mem
    rw [reads_eq] at mem
    rcases List.mem_append.mp mem with here | inside
    · exact own x (Option.mem_toList.mp here)
    · obtain ⟨c, child, mem⟩ := List.mem_flatMap.mp inside
      exact below c child x mem

/-- A node that reads nothing itself. -/
theorem Node.readsFrom_of_children {n : Node} (silent : n.read? = none)
    (children : ∀ c ∈ n.children, c.ReadsFrom known) : n.ReadsFrom known :=
  readsFrom_iff.mpr ⟨fun x here => (Option.some_ne_none x (here.symm.trans silent)).elim, children⟩

theorem Node.ReadsFrom.child {n c : Node} (h : n.ReadsFrom known) (mem : c ∈ n.children) :
    c.ReadsFrom known :=
  (readsFrom_iff.mp h).2 c mem

theorem Node.ReadsFrom.mono {n : Node} {more : String → Prop} (h : n.ReadsFrom known)
    (imp : ∀ x, known x → more x) : n.ReadsFrom more :=
  fun x mem => imp x (h x mem)

/-- A statement reads what its children read. -/
theorem Stmt.readsFrom_iff {s : Stmt} : s.ReadsFrom known ↔ ∀ c ∈ s.children, c.ReadsFrom known :=
  Node.readsFrom_iff.trans (and_iff_right fun x none => (Option.not_mem_none x none).elim)

theorem Block.readsFrom_of_stmts {b : Block} (stmts : ∀ s ∈ b.stmts, s.ReadsFrom known) :
    (Node.block b).ReadsFrom known :=
  Node.readsFrom_of_children rfl (List.forall_mem_map.mpr stmts)

/-! ## Properties that pass to operands -/

/-- Is the expression a plain name? -/
def ExprForm.isName {ε : Type} : ExprForm ε → Bool
  | ident _ _ => true
  | _ => false

/-- What an expression has its operands have, and what all operands have the expression has,
unless it is a plain name. -/
structure Expr.Passes (P : Expr → Prop) : Prop where
  child : ∀ e c, P e → c ∈ e.children → P c
  made : ∀ id ty form, form.isName = false → (∀ c ∈ form.children, P c) → P ⟨id, ty, form⟩

namespace Expr.Passes

variable {P : Expr → Prop} {e : Expr} (passes : Passes P)
include passes

theorem arg (h : P e) {arg : Expr} (mem : arg ∈ e.args) : P arg :=
  passes.child _ _ h (Expr.mem_children_of_args mem)

theorem make {ty : Ty} {form : ExprForm Expr} (composed : form.isName = false)
    (children : ∀ c ∈ form.children, P c) : (Expr.make form ty).Gives P :=
  fun id => passes.made id ty form composed children

theorem mkCall {receiver : Expr} {method : MethodRef} {args : List Expr} (on : P receiver)
    (all : ∀ a ∈ args, P a) : (Expr.mkCall receiver method args).Gives P :=
  passes.make rfl (List.forall_mem_cons.mpr ⟨on, all⟩)

theorem mkCreate {constructor : MethodRef} {args : List Expr} (all : ∀ a ∈ args, P a) :
    (Expr.mkCreate constructor args).Gives P :=
  passes.make rfl all

theorem mkAdd {left right : Expr} (first : P left) (second : P right) :
    (Expr.mkAdd left right).Gives P :=
  passes.make rfl
    (List.forall_mem_cons.mpr ⟨first, List.forall_mem_singleton.mpr second⟩)

theorem literal {value : Literal} {ty : Ty} : (Expr.make (.literal value) ty).Gives P :=
  passes.make rfl fun _ none => (List.not_mem_nil none).elim

end Expr.Passes

namespace PathTraversal.Normalize

variable {P : Expr → Prop} {e path : Expr} (passes : Expr.Passes P)
include passes

theorem splitPath?_passes (userInput : List NodeId) (h : P path) :
    (splitPath? path userInput).Gives fun new => ∀ e ∈ new, P e := by
  have operands : ∀ o ∈ operandsOf path, P o := operandsOf_all passes.child h
  have joined {some : List Expr} (all : ∀ o ∈ some, P o) :
      (mkConcatenation? some).Gives fun sum => ∀ e ∈ sum, P e :=
    mkConcatenation?_all (fun _ _ => passes.mkAdd) all
  refine splitPath?_gives
    (fun cut _ _ => joined fun o mem => operands o (List.mem_of_mem_take mem))
    (fun cut _ => joined fun o mem => operands o (List.mem_of_mem_drop mem))
    fun cut _ parent child constructor hparent hchild _ => ?_
  exact passes.mkCreate (List.forall_mem_cons.mpr ⟨hparent, List.forall_mem_singleton.mpr hchild⟩)

theorem withFile?_passes {file : Expr} (h : P e) (hfile : P file) :
    (withFile? e file).Gives fun new => ∀ e ∈ new, P e := by
  obtain ⟨id, ty, form⟩ := e
  unfold withFile?
  dsimp only
  split
  next className first rest method =>
    refine fun next => ?_
    rintro _ ⟨⟩
    refine passes.made _ _ _ rfl
      (List.forall_mem_cons.mpr ⟨hfile, fun a mem => ?_⟩)
    exact passes.child _ _ h (List.mem_cons_of_mem _ mem)
  next => exact .pure fun new none => (Option.not_mem_none new none).elim

/-- What an expression has passes to what it becomes. -/
theorem normalized?_passes (matcher : CallMatcher) (userInput : List NodeId) (h : P e) :
    (normalized? matcher userInput e).Gives fun answer => ∀ new ∈ answer, P new.1 := by
  unfold normalized?
  split
  next => exact .pure fun new none => (Option.not_mem_none new none).elim
  next path head =>
    have hpath : P path := passes.arg h (List.mem_of_mem_head? head)
    have finish {made : Expr} (hmade : P made) :
        Fresh.Gives (do return (← withFile? e made).map fun sink => (sink, [Fqn.file]))
          fun answer => ∀ new ∈ answer, P new.1 := by
      refine (withFile?_passes passes h hmade).bind fun sink made => .pure fun new mem => ?_
      obtain ⟨sink, at_, rfl⟩ := Option.map_eq_some_iff.mp mem
      exact made sink at_
    split
    · refine (splitPath?_passes passes userInput hpath).bind fun split made => .pure fun new mem => ?_
      obtain ⟨split, at_, rfl⟩ := Option.map_eq_some_iff.mp mem
      exact made split at_
    · split
      · refine (splitPath?_passes passes userInput hpath).bind fun answer made => ?_
        cases answer with
        | some split => exact finish (made split rfl)
        | none =>
          exact (passes.mkCreate (List.forall_mem_singleton.mpr hpath)).bind fun whole made =>
            finish made
      · exact .pure fun new none => (Option.not_mem_none new none).elim

end PathTraversal.Normalize

/-! ## Expressions -/

namespace Expr

theorem passes_readsFrom (known : String → Prop) : Passes (ReadsFrom known) where
  child _ _ h mem := h.child (List.mem_map_of_mem mem)
  made id ty form other children := by
    refine Node.readsFrom_of_children ?_ (List.forall_mem_map.mpr children)
    cases form <;> first | rfl | cases other

theorem mkIdent_reads {name : String} (read : known name) (ty : Ty) :
    (mkIdent name ty).Gives (ReadsFrom known) := by
  intro id
  refine Node.readsFrom_iff.mpr ⟨fun x here => ?_, fun _ none => (List.not_mem_nil none).elim⟩
  change x ∈ (if _ then none else some name) at here
  split at here
  · cases here
  · cases here
    exact read

/-- The simple name of a class stands for the class. -/
theorem mkTypeName_reads {ty : Ty} (named : ty.simpleName?.isSome) :
    (mkTypeName ty).Gives (ReadsFrom known) := by
  intro id
  refine Node.readsFrom_of_children ?_ fun _ none => (List.not_mem_nil none).elim
  obtain ⟨name, simple⟩ := Option.isSome_iff_exists.mp named
  have isName : isTypeName ⟨id, ty, .ident (ty.simpleName?.getD "") none⟩ = true := by
    simp only [isTypeName, simple, Option.getD_some, beq_self_eq_true]
  exact if_pos isName

theorem mkStaticField_reads (known : String → Prop) {owner : Ty} (named : owner.simpleName?.isSome)
    (name : String) (ty : Ty) : (mkStaticField owner name ty).Gives (ReadsFrom known) :=
  (mkTypeName_reads named).bind fun _ reads =>
    (passes_readsFrom known).make rfl (List.forall_mem_singleton.mpr reads)

theorem mkStaticCall_reads {method : MethodRef} {args : List Expr}
    (named : method.owner.simpleName?.isSome) (all : ∀ a ∈ args, a.ReadsFrom known) :
    (mkStaticCall method args).Gives (ReadsFrom known) :=
  (mkTypeName_reads named).bind fun _ reads => (passes_readsFrom known).mkCall reads all

/-- A copy reads what the original reads. -/
theorem freshCopy_reads (e : Expr) : e.freshCopy.Gives fun copy =>
    (Node.expr copy).reads = (Node.expr e).reads := by
  rw [freshCopy_eq]
  refine (Fresh.Gives.mapM fun c hc => freshCopy_reads c).bind fun copies copied id => ?_
  have refilled := e.refilled_withChildren id copied.length_eq.symm
  have label : (Node.expr (e.withChildren id copies)).label = (Node.expr e).label :=
    congrArg (Node.Label.expr e.ty) refilled.blank
  show (Node.expr (e.withChildren id copies)).reads = _
  rw [Node.reads_eq, Node.reads_eq (.expr e), Node.read?_of_label label]
  show _ ++ ((e.withChildren id copies).form.children.map Node.expr).flatMap Node.reads =
    _ ++ (e.children.map Node.expr).flatMap Node.reads
  have each : copies.map (fun c => (Node.expr c).reads) =
      e.children.map fun c => (Node.expr c).reads := by
    rw [← List.forall₂_eq_eq_eq]
    exact List.forall₂_map_left_iff.mpr (List.forall₂_map_right_iff.mpr copied.flip)
  rw [refilled.children, List.flatMap_map, List.flatMap_map, List.flatMap_def, List.flatMap_def, each]
termination_by sizeOf e
decreasing_by exact sizeOf_lt_of_mem_children hc

theorem ReadsFrom.copy {e : Expr} (h : e.ReadsFrom known) : e.freshCopy.Gives (ReadsFrom known) :=
  (freshCopy_reads e).mono fun _ same x mem => h x (same ▸ mem)

end Expr

/-- A field is read by its class, a local by its name. -/
theorem Variable.mkRead_reads (v : Variable) {owner : Option Ty} (read : owner = none → known v.name) :
    (v.mkRead owner).Gives (Expr.ReadsFrom known) := by
  cases owner with
  | none => exact Expr.mkIdent_reads (read rfl) v.ty
  | some ty =>
    exact fun id => Node.readsFrom_of_children rfl fun _ none => (List.not_mem_nil none).elim

/-- Statements that are made one after the other for a new read of a variable. -/
theorem Variable.mkReads_reads {α : Type} (v : Variable) {owner : Option Ty} {items : List α}
    {make : Expr → α → Fresh Stmt} (named : owner = none → known v.name)
    (reads : ∀ read a, read.ReadsFrom known → (make read a).Gives (Stmt.ReadsFrom known)) :
    Fresh.Gives (do
      let read ← v.mkRead owner
      items.mapM (make read)) fun stmts => ∀ s ∈ stmts, s.ReadsFrom known :=
  (v.mkRead_reads named).bind fun read from_ => .mapM_all fun a _ => reads read a from_

/-! ## Statements -/

namespace Stmt

theorem mkExpr_reads {e : Expr} (h : e.ReadsFrom known) : (mkExpr e).Gives (ReadsFrom known) :=
  fun _ => readsFrom_iff.mpr (List.forall_mem_singleton.mpr h)

theorem mkDeclare_reads {init : Expr} (h : init.ReadsFrom known) (modifiers : List Modifier) (ty : Ty)
    (name : String) : (mkDeclare modifiers ty name (some init)).Gives (ReadsFrom known) :=
  fun _ => readsFrom_iff.mpr (List.forall_mem_singleton.mpr
    (Node.readsFrom_of_children rfl (List.forall_mem_singleton.mpr h)))

theorem mkDeclare_declares {modifiers : List Modifier} {ty : Ty} {name : String} {init : Option Expr} :
    (mkDeclare modifiers ty name init).Gives fun s => s.declaredNames = [name] :=
  fun _ => rfl

theorem readsFrom_block {id : NodeId} {b : Block} (stmts : ∀ s ∈ b.stmts, s.ReadsFrom known) :
    ReadsFrom known ⟨id, .block b⟩ :=
  readsFrom_iff.mpr (List.forall_mem_singleton.mpr (Block.readsFrom_of_stmts stmts))

/-- A call on a copy of an expression, as a statement. -/
theorem callOnCopy_reads {copy : Expr} (h : copy.ReadsFrom known) {args : List Expr}
    (all : ∀ a ∈ args, a.ReadsFrom known) (method : MethodRef) :
    Fresh.Gives (do mkExpr (← Expr.mkCall copy method args)) (ReadsFrom known) :=
  ((Expr.passes_readsFrom known).mkCall h all).bind fun _ => mkExpr_reads

end Stmt

/-! ## Replacements and single statements -/

theorem Cookie.mkEnable_reads {v : Variable} (read : known v.name) :
    (mkEnable v).Gives (Stmt.ReadsFrom known) := by
  refine (v.mkRead_reads fun _ => read).bind fun copy reads => ?_
  exact (Expr.passes_readsFrom known).literal.bind fun value silent =>
    Stmt.callOnCopy_reads reads (List.forall_mem_singleton.mpr silent) _

/-- What a static method of a class makes, as a file. -/
theorem Expr.mkToFile_reads {method : MethodRef} {args : List Expr}
    (named : method.owner.simpleName?.isSome) (all : ∀ a ∈ args, a.ReadsFrom known) :
    Fresh.Gives (do
      let made ← Expr.mkStaticCall method args
      return some (← Expr.mkCall made Jdk.pathToFile [])) fun new => ∀ e ∈ new, e.ReadsFrom known := by
  refine (mkStaticCall_reads named all).bind fun made reads => ?_
  refine ((passes_readsFrom known).mkCall reads fun a none => (List.not_mem_nil none).elim).bind
    fun file reads => .pure ?_
  rintro e ⟨⟩
  exact reads

namespace TempDirectory

variable {create : Expr}

/-- The directory of a call, as a path. -/
theorem mkParent_reads (h : create.ReadsFrom known) {dir : Expr} (found : directory? create = some dir) :
    (Expr.mkCall dir Jdk.fileToPath []).Gives (Expr.ReadsFrom known) := by
  have mem : dir ∈ create.args := List.mem_of_getElem? (Option.filter_eq_some_iff.mp found).1
  exact (Expr.passes_readsFrom known).mkCall ((Expr.passes_readsFrom known).arg h mem)
    fun a none => (List.not_mem_nil none).elim

theorem mkDirectory_reads (h : create.ReadsFrom known) {name : Expr} (text : name.ReadsFrom known) :
    (mkDirectory (directory? create) name).Gives fun new => ∀ e ∈ new, e.ReadsFrom known := by
  cases found : directory? create with
  | none => exact Expr.mkToFile_reads rfl (List.forall_mem_singleton.mpr text)
  | some dir =>
    refine (mkParent_reads h found).bind fun parent inside => ?_
    exact Expr.mkToFile_reads rfl
      (List.forall_mem_cons.mpr ⟨inside, List.forall_mem_singleton.mpr text⟩)

theorem replacement?_reads (h : create.ReadsFrom known) :
    (replacement? create).Gives fun new => ∀ e ∈ new, e.ReadsFrom known := by
  unfold replacement?
  split
  next start ending rest args =>
    have arg {a : Expr} (mem : a ∈ start :: ending :: rest) : a.ReadsFrom known :=
      (Expr.passes_readsFrom known).arg h (args ▸ mem)
    have first := arg List.mem_cons_self
    have second := arg (List.mem_cons_of_mem _ List.mem_cons_self)
    show Fresh.Gives (if isNull ending then pure start >>= mkDirectory (directory? create)
      else Expr.mkAdd start ending >>= mkDirectory (directory? create)) _
    split
    · exact (Fresh.Gives.pure first).bind fun name => mkDirectory_reads h
    · exact ((Expr.passes_readsFrom known).mkAdd first second).bind fun name => mkDirectory_reads h
  next => exact .pure fun new none => (Option.not_mem_none new none).elim

end TempDirectory

theorem TempFile.replacement?_reads {create : Expr} (h : create.ReadsFrom known) :
    (replacement? create).Gives fun new => ∀ e ∈ new, e.ReadsFrom known := by
  unfold replacement?
  split
  next start ending rest args =>
    have all : ∀ a ∈ [start, ending], a.ReadsFrom known := fun a mem =>
      (Expr.passes_readsFrom known).arg h (args ▸ List.mem_append_left rest mem)
    cases found : TempDirectory.directory? create with
    | none => exact Expr.mkToFile_reads rfl all
    | some dir =>
      refine (TempDirectory.mkParent_reads h found).bind fun parent inside => ?_
      exact Expr.mkToFile_reads rfl (List.forall_mem_cons.mpr ⟨inside, all⟩)
  next => exact .pure fun new none => (Option.not_mem_none new none).elim

/-- A guard reads what the guarded expression and the directory read. -/
theorem mkGuard_reads {tainted parent : Expr} (h : tainted.ReadsFrom known)
    (inside : parent.ReadsFrom known) (variant : GuardVariant) (thrown : ThrownException)
    (message : String) :
    (mkGuard variant thrown message tainted parent).Gives (Stmt.ReadsFrom known) := by
  have noArgs : ∀ a ∈ ([] : List Expr), a.ReadsFrom known := fun a none => (List.not_mem_nil none).elim
  have normalized {e : Expr} (h : e.ReadsFrom known) :
      (GuardVariant.normalized e).Gives (Expr.ReadsFrom known) :=
    (Expr.passes_readsFrom known).mkCall h noArgs
  have normalizedFile {e : Expr} (h : e.ReadsFrom known) :
      (GuardVariant.normalizedFile e).Gives (Expr.ReadsFrom known) :=
    ((Expr.passes_readsFrom known).mkCall h noArgs).bind fun path => normalized
  have called {on arg : Expr} (h : on.ReadsFrom known) (h' : arg.ReadsFrom known) (method : MethodRef) :
      (Expr.mkCall on method [arg]).Gives (Expr.ReadsFrom known) :=
    (Expr.passes_readsFrom known).mkCall h (List.forall_mem_singleton.mpr h')
  refine h.copy.bind fun path reads => ?_
  have checked : Fresh.Gives (do variant.check path (← parent.freshCopy)) (Expr.ReadsFrom known) := by
    refine inside.copy.bind fun dir readsDir => ?_
    cases variant with
    | fileInFile =>
      exact (normalizedFile reads).bind fun left hleft =>
        (normalizedFile readsDir).bind fun right hright => called hleft hright _
    | fileInString => exact (normalizedFile reads).bind fun left hleft => called hleft readsDir _
    | pathInPath =>
      exact (normalized reads).bind fun left hleft =>
        (normalized readsDir).bind fun right hright => called hleft hright _
  show Fresh.Gives (do
    let check ← (do variant.check path (← parent.freshCopy))
    let condition ← Expr.mkNot check
    let body ← Stmt.mkBlock [← Stmt.mkThrowNew thrown.ty message]
    Stmt.mkIf condition body none) _
  refine checked.bind fun check reads => ?_
  have negated : (Expr.mkNot check).Gives (Expr.ReadsFrom known) :=
    (Expr.passes_readsFrom known).make rfl (List.forall_mem_singleton.mpr reads)
  refine negated.bind fun condition reads next => ?_
  refine Stmt.readsFrom_iff.mpr (List.forall_mem_cons.mpr ⟨reads, List.forall_mem_singleton.mpr ?_⟩)
  refine Stmt.readsFrom_block (List.forall_mem_singleton.mpr ?_)
  refine Stmt.readsFrom_iff.mpr (List.forall_mem_singleton.mpr ?_)
  exact (Expr.passes_readsFrom known).mkCreate
    (List.forall_mem_singleton.mpr ((Expr.passes_readsFrom known).literal _)) _

/-! ## Configurations of factories -/

theorem XmlInput.mkSettings_reads (f : Factory) {owner : Option Ty} (properties : List Property)
    (named : owner = none → known f.held.name) :
    (mkSettings f owner properties).Gives fun stmts => ∀ s ∈ stmts, s.ReadsFrom known := by
  refine f.held.mkReads_reads named fun read property reads => ?_
  refine reads.copy.bind fun copy reads => ?_
  refine (Expr.mkStaticField_reads known rfl _ _).bind fun key silent => ?_
  refine (Expr.passes_readsFrom known).literal.bind fun value silent' => ?_
  exact Stmt.callOnCopy_reads reads
    (List.forall_mem_cons.mpr ⟨silent, List.forall_mem_singleton.mpr silent'⟩) _

theorem Transformer.mkSettings_reads (f : Factory) {owner : Option Ty} (settings : List Restriction)
    (named : owner = none → known f.held.name) :
    (mkSettings f owner settings).Gives fun stmts => ∀ s ∈ stmts, s.ReadsFrom known := by
  refine f.held.mkReads_reads named fun read restriction reads => ?_
  refine (Expr.mkStaticField_reads known rfl _ _).bind fun key silent => ?_
  refine reads.copy.bind fun copy reads => ?_
  have args {value : Expr} (silent' : value.ReadsFrom known) : ∀ a ∈ [key, value], a.ReadsFrom known :=
    List.forall_mem_cons.mpr ⟨silent, List.forall_mem_singleton.mpr silent'⟩
  cases restriction <;>
    exact (Expr.passes_readsFrom known).literal.bind fun value silent' =>
      Stmt.callOnCopy_reads reads (args silent') _

/-- An initializer is closed if its statements are closed in code of their own. -/
theorem mkFieldInitializer_closed {outer : List String} {declaration : Stmt} {stmts : List Stmt}
    (closed : Node.ClosedInTurn outer (.code []) (stmts.map .stmt)) :
    (mkFieldInitializer declaration stmts).Gives fun s => (Node.stmt s).Closed outer .members :=
  fun _ => Node.closed_stmt_block (Node.closed_block.mpr closed)

/-! ### The local of a document builder

The name of a feature is held by a local of its own, and the exception by the parameter of a
clause. Both are read where they are in scope. -/

namespace DocumentBuilder

variable {outer locals : List String} {factory : Expr} {feature exception : String}

theorem mkSetFeature_reads {name : Expr} (h : factory.ReadsFrom known) (text : name.ReadsFrom known)
    (enabled : Bool) : (mkSetFeature factory name enabled).Gives (Stmt.ReadsFrom known) := by
  refine h.copy.bind fun copy reads => ?_
  refine (Expr.passes_readsFrom known).literal.bind fun value silent => ?_
  exact Stmt.callOnCopy_reads reads
    (List.forall_mem_cons.mpr ⟨text, List.forall_mem_singleton.mpr silent⟩) _

theorem mkClear_reads (h : factory.ReadsFrom known) (method : MethodRef) :
    (mkClear factory method).Gives (Stmt.ReadsFrom known) := by
  refine h.copy.bind fun copy reads => ?_
  exact (Expr.passes_readsFrom known).literal.bind fun value silent =>
    Stmt.callOnCopy_reads reads (List.forall_mem_singleton.mpr silent) _

theorem mkSwitchOff_reads (h : factory.ReadsFrom known) (read : known feature) (name : String) :
    (mkSwitchOff factory feature name).Gives fun stmts => ∀ s ∈ stmts, s.ReadsFrom known := by
  refine (Expr.mkIdent_reads read _).bind fun target hears => ?_
  refine (Expr.passes_readsFrom known).literal.bind fun value silent => ?_
  have assigns : (Expr.mkAssign target value).Gives (Expr.ReadsFrom known) :=
    (Expr.passes_readsFrom known).make rfl
      (List.forall_mem_cons.mpr ⟨hears, List.forall_mem_singleton.mpr silent⟩)
  refine assigns.bind fun assign reads => ?_
  refine (Stmt.mkExpr_reads reads).bind fun first readsFirst => ?_
  refine (Expr.mkIdent_reads read _).bind fun text hears => ?_
  refine (mkSetFeature_reads h hears false).bind fun second readsSecond => .pure ?_
  exact List.forall_mem_cons.mpr ⟨readsFirst, List.forall_mem_singleton.mpr readsSecond⟩

/-- Statements in a `try` are closed there if they are without it, where the name of the feature
is in scope. -/
theorem mkGuarded_closed {stmts : List Stmt} (reads : ∀ s ∈ stmts, s.ReadsFrom (· ∈ outer ++ locals))
    (named : feature ∈ outer ++ locals) (opening : String) :
    (mkGuarded stmts opening feature exception).Gives
      fun s => (Node.stmt s).Closed outer (.code locals) := by
  let known (x : String) : Prop := x ∈ outer ++ (locals ++ [exception])
  have feature_known : known feature := by
    show feature ∈ outer ++ (locals ++ [exception])
    rw [← List.append_assoc]
    exact List.mem_append_left _ named
  have exception_known : known exception :=
    List.mem_append_right _ (List.mem_append_right _ (List.mem_singleton_self _))
  refine ((Expr.passes_readsFrom known).literal : (Expr.mkString opening).Gives _).bind
    fun first silent => ?_
  refine (Expr.mkIdent_reads feature_known _).bind fun name reads' => ?_
  refine ((Expr.passes_readsFrom known).mkAdd silent reads').bind fun start reads' => ?_
  refine ((Expr.passes_readsFrom known).literal : (Expr.mkString _).Gives _).bind
    fun last silent => ?_
  refine ((Expr.passes_readsFrom known).mkAdd reads' silent).bind fun message reads' => ?_
  refine (Expr.mkIdent_reads exception_known _).bind fun cause reads'' => ?_
  refine ((Expr.passes_readsFrom known).mkCreate (List.forall_mem_cons.mpr
    ⟨reads', List.forall_mem_singleton.mpr reads''⟩)).bind fun error rethrown next => ?_
  refine Node.closed_try (Node.closed_of_reads ?_) rfl (Node.closed_of_reads ?_)
  · exact Block.readsFrom_of_stmts reads
  · refine Block.readsFrom_of_stmts (List.forall_mem_singleton.mpr ?_)
    exact Stmt.readsFrom_iff.mpr (List.forall_mem_singleton.mpr rethrown)

/-- The local of the feature, and what is done behind its declaration. -/
theorem closedInTurn_feature {declaration guarded : Stmt}
    (silent : declaration.ReadsFrom fun _ => False) (declares : declaration.declaredNames = [feature])
    (closed : (Node.stmt guarded).Closed outer (.code (locals ++ [feature]))) :
    Node.ClosedInTurn outer (.code locals) ([declaration, guarded].map .stmt) := by
  refine Node.closedInTurn_cons.mpr ⟨Node.closed_of_reads fun x mem => (silent x mem).elim, ?_⟩
  refine Node.closedInTurn_cons.mpr ⟨?_, Node.closedInTurn_nil⟩
  show (Node.stmt guarded).Closed outer (.code (locals ++ declaration.declaredNames))
  rwa [declares]

variable (h : factory.ReadsFrom (· ∈ outer ++ locals))
include h

theorem reads_behind (feature : String) : factory.ReadsFrom (· ∈ outer ++ (locals ++ [feature])) :=
  h.mono fun x mem => by
    show x ∈ outer ++ (locals ++ [feature])
    rw [← List.append_assoc]
    exact List.mem_append_left _ mem

theorem mkRefuseDoctype_closed : (mkRefuseDoctype factory feature exception).Gives
    fun stmts => Node.ClosedInTurn outer (.code locals) (stmts.map .stmt) := by
  have named : feature ∈ outer ++ (locals ++ [feature]) :=
    List.mem_append_right _ (List.mem_append_right _ (List.mem_singleton_self _))
  refine ((Expr.passes_readsFrom fun _ => False).literal : (Expr.mkString _).Gives _).bind
    fun text silent => ?_
  refine ((Stmt.mkDeclare_reads silent [] .string feature).and Stmt.mkDeclare_declares).bind
    fun declaration declared => ?_
  refine (Expr.mkIdent_reads named _).bind fun name reads => ?_
  refine (mkSetFeature_reads (reads_behind h feature) reads true).bind fun enable reads => ?_
  exact (mkGuarded_closed (List.forall_mem_singleton.mpr reads) named _).bind fun guarded closed =>
    .pure (closedInTurn_feature declared.1 declared.2 closed)

theorem mkSwitchedOff_closed (exception : String) {declaration : Stmt}
    (silent : declaration.ReadsFrom fun _ => False) (declares : declaration.declaredNames = [feature])
    {features : List (List Stmt)}
    (switched : ∀ stmts ∈ features, ∀ s ∈ stmts,
      s.ReadsFrom (· ∈ outer ++ (locals ++ [feature]))) {xinclude : List Stmt}
    (cleared : ∀ s ∈ xinclude, s.ReadsFrom (· ∈ outer ++ (locals ++ [feature]))) :
    (mkSwitchedOff factory feature exception declaration features xinclude).Gives
      fun stmts => Node.ClosedInTurn outer (.code locals) (stmts.map .stmt) := by
  have named : feature ∈ outer ++ (locals ++ [feature]) :=
    List.mem_append_right _ (List.mem_append_right _ (List.mem_singleton_self _))
  refine (mkClear_reads (reads_behind h feature) _).bind fun expand readsExpand => ?_
  refine (Expr.mkStaticField_reads (· ∈ outer ++ (locals ++ [feature])) rfl _ _).bind
    fun constant silent' => ?_
  refine (mkSetFeature_reads (reads_behind h feature) silent' true).bind fun secure readsSecure => ?_
  refine (mkGuarded_closed ?_ named _).bind fun guarded closed =>
    .pure (closedInTurn_feature silent declares closed)
  intro s mem
  rcases List.mem_append.mp mem with mem | mem
  · rcases List.mem_append.mp mem with mem | mem
    · obtain ⟨stmts, inside, mem⟩ := List.mem_flatten.mp mem
      exact switched stmts inside s mem
    · exact cleared s mem
  · exact List.forall_mem_cons.mpr ⟨readsExpand, List.forall_mem_singleton.mpr readsSecure⟩ s mem

theorem mkDisableEntities_closed (xincludeSet : Bool) :
    (mkDisableEntities factory feature exception xincludeSet).Gives
      fun stmts => Node.ClosedInTurn outer (.code locals) (stmts.map .stmt) := by
  have named : feature ∈ outer ++ (locals ++ [feature]) :=
    List.mem_append_right _ (List.mem_append_right _ (List.mem_singleton_self _))
  refine ((Expr.passes_readsFrom fun _ => False).literal : Expr.mkNull.Gives _).bind
    fun null silent => ?_
  refine ((Stmt.mkDeclare_reads silent [] .string feature).and Stmt.mkDeclare_declares).bind
    fun declaration declared => ?_
  refine (Fresh.Gives.mapM_all fun name _ => mkSwitchOff_reads (reads_behind h feature) named name).bind
    fun features switched => ?_
  have rest {xinclude : List Stmt}
      (cleared : ∀ s ∈ xinclude, s.ReadsFrom (· ∈ outer ++ (locals ++ [feature]))) :=
    mkSwitchedOff_closed h exception declared.1 declared.2 switched cleared
  show Fresh.Gives (if xincludeSet then
      pure [] >>= mkSwitchedOff factory feature exception declaration features
    else (do
      let clear ← mkClear factory Jdk.documentBuilderFactorySetXincludeAware
      let xinclude ← pure [clear]
      mkSwitchedOff factory feature exception declaration features xinclude)) _
  split
  · exact rest fun _ none => (List.not_mem_nil none).elim
  · exact (mkClear_reads (reads_behind h feature) _).bind fun clear reads =>
      rest (List.forall_mem_singleton.mpr reads)

omit h in
theorem mkSettings_closed (f : Factory) {owner : Option Ty} (dtdsRequired : Bool)
    (xincludeSet : Bool) (named : owner = none → f.held.name ∈ outer ++ locals) :
    (mkSettings f owner dtdsRequired feature exception xincludeSet).Gives
      fun stmts => Node.ClosedInTurn outer (.code locals) (stmts.map .stmt) := by
  refine (f.held.mkRead_reads named).bind fun read reads => ?_
  split
  · exact mkDisableEntities_closed reads xincludeSet
  · exact mkRefuseDoctype_closed reads

end DocumentBuilder

/-! ## Members for random strings -/

namespace RandomString

theorem mkGeneratorRead_reads (known : String → Prop) (owner : Ty) :
    (mkGeneratorRead owner).Gives (Expr.ReadsFrom known) :=
  fun _ => Node.readsFrom_of_children rfl fun _ none => (List.not_mem_nil none).elim

/-- The new members read no locals. -/
theorem mkHead_reads (owner : Ty) :
    (mkHead owner).Gives fun stmts => ∀ s ∈ stmts, s.ReadsFrom known := by
  refine ((Expr.passes_readsFrom known).mkCreate fun a none => (List.not_mem_nil none).elim).bind
    fun create silent => ?_
  refine (Stmt.mkDeclare_reads silent _ _ _).bind fun field readsField => ?_
  refine ((Expr.passes_readsFrom known).literal : (Expr.mkInt 20).Gives _).bind
    fun twenty silent => ?_
  refine (Stmt.mkDeclare_reads silent _ _ _).bind fun count readsCount => ?_
  refine ((Expr.passes_readsFrom known).literal : (Expr.mkInt 64).Gives _).bind
    fun size silent => ?_
  have sized : (Expr.mkArray (.primitive .byte) size).Gives (Expr.ReadsFrom known) :=
    (Expr.passes_readsFrom known).make rfl (List.forall_mem_singleton.mpr silent)
  refine sized.bind fun bytes readsBytes => ?_
  refine (mkGeneratorRead_reads known owner).bind fun read reads => ?_
  refine ((Expr.passes_readsFrom known).mkCall reads
    (List.forall_mem_singleton.mpr readsBytes)).bind fun call reads next => ?_
  refine List.forall_mem_cons.mpr ⟨readsField, List.forall_mem_cons.mpr ⟨readsCount,
    List.forall_mem_singleton.mpr (Stmt.readsFrom_block (List.forall_mem_singleton.mpr ?_))⟩⟩
  exact Stmt.readsFrom_iff.mpr (List.forall_mem_singleton.mpr reads)

theorem mkMethod_reads (owner : Ty) (utils : String) :
    (mkMethod owner utils).Gives (Stmt.ReadsFrom known) := by
  intro next
  refine Stmt.readsFrom_iff.mpr (List.forall_mem_singleton.mpr (Block.readsFrom_of_stmts
    (List.forall_mem_singleton.mpr (Stmt.readsFrom_iff.mpr (List.forall_mem_singleton.mpr
      (Expr.mkStaticCall_reads rfl ?_ _))))))
  have plain {id : NodeId} {ty : Ty} {name : String} :
      Expr.ReadsFrom known ⟨id, ty, .ident name (some owner)⟩ :=
    Node.readsFrom_of_children rfl fun _ none => (List.not_mem_nil none).elim
  have literal {id : NodeId} {ty : Ty} {value : Literal} :
      Expr.ReadsFrom known ⟨id, ty, .literal value⟩ := (Expr.passes_readsFrom known).literal id
  simp only [List.forall_mem_cons]
  exact ⟨plain, literal, literal, literal, literal, literal, plain,
    fun a none => (List.not_mem_nil none).elim⟩

end RandomString

end JavaMend
