import JavaMend.Proofs.Match.Members
import JavaMend.Proofs.Tree.Lens
import JavaMend.Remedy.TempFile

/-!
# The calls of the passes for temporary files

A call that creates a temporary file gives way to `Files.createTempFile(…).toFile()` or to
`Files.createTempDirectory(…).toFile()`. `TempFile.Makes` and `TempDirectory.Makes` say what
is made of a call, whatever the ids. None of the new calls is one that gives way again, so
what relates expressions of one label whose sub-expressions are related (`Structural`)
relates what is made of calls whose arguments are related.
-/

namespace JavaMend

namespace TempDirectory

theorem createTempFile_among : createTempFile.all (·.isAmong ["createTempFile"]) = true := by
  decide +kernel

theorem delete_among : delete.all (·.isAmong ["delete", "mkdir", "mkdirs"]) = true := by
  decide +kernel

theorem mkdir_among : mkdir.all (·.isAmong ["delete", "mkdir", "mkdirs"]) = true := by
  decide +kernel

/-- A call that creates a temporary file, with the arguments that a replacement needs. -/
def isCreation (e : Expr) : Bool :=
  CallMatcher.standard.acceptsAny e createTempFile && decide (2 ≤ e.args.length)

section

variable {e : Expr}

theorem accepted_of_isCreation (creation : isCreation e = true) :
    CallMatcher.standard.acceptsAny e createTempFile = true :=
  (Bool.and_eq_true_iff.mp creation).1

theorem name_of_accepted (accepted : CallMatcher.standard.acceptsAny e createTempFile = true) :
    ∃ m, e.method? = some m ∧ m.name = "createTempFile" := by
  obtain ⟨m, found, mem⟩ := CallMatcher.name_of_acceptsAny createTempFile_among accepted
  exact ⟨m, found, List.mem_singleton.mp mem⟩

/-- Only a call has a method. -/
theorem isCreation_of_none (none_ : e.method? = none) : isCreation e = false := by
  unfold isCreation
  rw [CallMatcher.acceptsAny_of_none none_, Bool.false_and]

end

end TempDirectory

/-! ## Calls that take a place -/

namespace Expr

/-- `receiver.name(args)`, named and typed by its method, whatever its id. -/
structure IsCall (e receiver : Expr) (method : MethodRef) (args : List Expr) : Prop where
  ty : e.ty = method.result
  form : e.form = .call (some receiver) method.name args (some method)

/-- The name of the class that declares a method, whatever its id. -/
structure IsOwner (e : Expr) (method : MethodRef) : Prop where
  ty : e.ty = method.owner
  form : e.form = .ident (method.owner.simpleName?.getD "") none

/-- `left + right`, whatever its id. -/
structure IsAdd (e left right : Expr) : Prop where
  ty : e.ty = if left.ty.isString || right.ty.isString then .string else left.ty
  form : e.form = .binary .add left right

end Expr

/-- `Files.createTempFile(dir.toPath(), start, ending).toFile()` is made of the call. -/
def TempFile.Makes (create new : Expr) : Prop :=
  ∃ start ending rest owner made, create.args = start :: ending :: rest ∧
    new.IsCall made Jdk.pathToFile [] ∧
    match TempDirectory.directory? create with
    | some dir => ∃ parent, parent.IsCall dir Jdk.fileToPath [] ∧
      owner.IsOwner Jdk.filesCreateTempFileIn ∧
      made.IsCall owner Jdk.filesCreateTempFileIn [parent, start, ending]
    | none => owner.IsOwner Jdk.filesCreateTempFile ∧
      made.IsCall owner Jdk.filesCreateTempFile [start, ending]

theorem TempFile.makes_of_replacement? {create new : Expr} {next : NodeId}
    (made : (replacement? create next).1 = some new) : Makes create new ∧ next ≤ new.id := by
  unfold Makes
  unfold replacement? at made
  cases args : create.args with
  | nil => rw [args] at made; cases made
  | cons start more =>
    cases more with
    | nil => rw [args] at made; cases made
    | cons ending rest =>
      rw [args] at made
      cases found : TempDirectory.directory? create <;> rw [found] at made <;> cases made
      · exact ⟨⟨start, ending, rest, _, _, rfl, ⟨rfl, rfl⟩, ⟨rfl, rfl⟩, rfl, rfl⟩,
          Nat.le_add_right _ 2⟩
      · exact ⟨⟨start, ending, rest, _, _, rfl, ⟨rfl, rfl⟩, _, ⟨rfl, rfl⟩, ⟨rfl, rfl⟩, rfl, rfl⟩,
          Nat.le_add_right _ 3⟩

/-- A call of two arguments at least can be replaced. -/
theorem TempFile.isSome_replacement? (create : Expr) (next : NodeId) :
    (replacement? create next).1.isSome = decide (2 ≤ create.args.length) := by
  unfold replacement?
  cases create.args with
  | nil => rfl
  | cons start more =>
    cases more with
    | nil => rfl
    | cons ending rest => cases TempDirectory.directory? create <;> simp <;> rfl

namespace TempDirectory

/-- `Files.createTempDirectory(dir.toPath(), start + ending).toFile()` is made of the call. -/
def Makes (create new : Expr) : Prop :=
  ∃ start ending rest name owner made, create.args = start :: ending :: rest ∧
    (if isNull ending then name = start else name.IsAdd start ending) ∧
    new.IsCall made Jdk.pathToFile [] ∧
    match directory? create with
    | some dir => ∃ parent, parent.IsCall dir Jdk.fileToPath [] ∧
      owner.IsOwner Jdk.filesCreateTempDirectoryIn ∧
      made.IsCall owner Jdk.filesCreateTempDirectoryIn [parent, name]
    | none => owner.IsOwner Jdk.filesCreateTempDirectory ∧
      made.IsCall owner Jdk.filesCreateTempDirectory [name]

theorem makes_of_replacement? {create new : Expr} {next : NodeId}
    (made : (replacement? create next).1 = some new) : Makes create new ∧ next ≤ new.id := by
  unfold Makes
  unfold replacement? at made
  cases args : create.args with
  | nil => rw [args] at made; cases made
  | cons start more =>
    cases more with
    | nil => rw [args] at made; cases made
    | cons ending rest =>
      rw [args] at made
      cases null : isNull ending <;> cases found : directory? create <;>
        simp only [null, found, if_true, if_false, Bool.false_eq_true] at made <;> cases made
      · exact ⟨⟨start, ending, rest, _, _, _, rfl, by rw [null]; exact ⟨rfl, rfl⟩, ⟨rfl, rfl⟩,
          ⟨rfl, rfl⟩, rfl, rfl⟩, Nat.le_add_right _ 3⟩
      · exact ⟨⟨start, ending, rest, _, _, _, rfl, by rw [null]; exact ⟨rfl, rfl⟩, ⟨rfl, rfl⟩, _,
          ⟨rfl, rfl⟩, ⟨rfl, rfl⟩, rfl, rfl⟩, Nat.le_add_right _ 4⟩
      · exact ⟨⟨start, ending, rest, _, _, _, rfl, by rw [null]; exact rfl, ⟨rfl, rfl⟩, ⟨rfl, rfl⟩,
          rfl, rfl⟩, Nat.le_add_right _ 2⟩
      · exact ⟨⟨start, ending, rest, _, _, _, rfl, by rw [null]; exact rfl, ⟨rfl, rfl⟩, _, ⟨rfl, rfl⟩,
          ⟨rfl, rfl⟩, rfl, rfl⟩, Nat.le_add_right _ 3⟩

/-- A call of two arguments at least can be replaced. -/
theorem isSome_replacement? (create : Expr) (next : NodeId) :
    (replacement? create next).1.isSome = decide (2 ≤ create.args.length) := by
  unfold replacement?
  cases create.args with
  | nil => rfl
  | cons start more =>
    cases more with
    | nil => rfl
    | cons ending rest =>
      cases null : isNull ending <;> cases directory? create <;> simp [null] <;> rfl

/-! ## Related arguments -/

/-- The relation holds between expressions of one label whose sub-expressions are related,
unless they are calls that may give way. -/
def Structural (r : Expr → Expr → Prop) : Prop :=
  ∀ e e' : Expr, isCreation e = false → (Node.expr e').label = (Node.expr e).label →
    List.Forall₂ r e.children e'.children → r e e'

section

variable {r : Expr → Expr → Prop} {e e' create create' new new' : Expr}

theorem isCreation_of_method {m : MethodRef} (found : e.method? = some m)
    (other : createTempFile.any (·.accepts m) = false) : isCreation e = false := by
  unfold isCreation
  rw [CallMatcher.acceptsAny_of_method found, other, Bool.false_and]

theorem Structural.call {method : MethodRef} {receiver receiver' : Expr} {args args' : List Expr}
    (structural : Structural r) (other : createTempFile.any (·.accepts method) = false)
    (h : e.IsCall receiver method args) (h' : e'.IsCall receiver' method args')
    (receivers : r receiver receiver') (related : List.Forall₂ r args args') : r e e' := by
  refine structural e e' (isCreation_of_method (by rw [Expr.method?, h.form]) other) ?_ ?_
  · show Node.Label.expr e'.ty (e'.form.map fun _ => ()) = .expr e.ty (e.form.map fun _ => ())
    rw [h.ty, h'.ty, h.form, h'.form]
    simp [ExprForm.map, related.length_eq]
  · show List.Forall₂ r e.form.children e'.form.children
    rw [h.form, h'.form]
    exact .cons receivers related

theorem Structural.owner {method : MethodRef} (structural : Structural r) (h : e.IsOwner method)
    (h' : e'.IsOwner method) : r e e' := by
  refine structural e e' (isCreation_of_none (by rw [Expr.method?, h.form])) ?_ ?_
  · show Node.Label.expr e'.ty (e'.form.map fun _ => ()) = .expr e.ty (e.form.map fun _ => ())
    rw [h.ty, h'.ty, h.form, h'.form]
  · show List.Forall₂ r e.form.children e'.form.children
    rw [h.form, h'.form]
    exact .nil

theorem Structural.add {left right left' right' : Expr} (structural : Structural r)
    (h : e.IsAdd left right) (h' : e'.IsAdd left' right') (lefts : r left left')
    (rights : r right right') (leftTy : left'.ty = left.ty) (rightTy : right'.ty = right.ty) : r e e' := by
  refine structural e e' (isCreation_of_none (by rw [Expr.method?, h.form])) ?_ ?_
  · show Node.Label.expr e'.ty (e'.form.map fun _ => ()) = .expr e.ty (e.form.map fun _ => ())
    rw [h.ty, h'.ty, h.form, h'.form, leftTy, rightTy]
    rfl
  · show List.Forall₂ r e.form.children e'.form.children
    rw [h.form, h'.form]
    exact .cons lefts (.cons rights .nil)

/-- Arguments that are related, and `null` together. -/
def ArgsRelated (r : Expr → Expr → Prop) (create create' : Expr) : Prop :=
  List.Forall₂ (fun a a' => r a a' ∧ isNull a' = isNull a) create.args create'.args

theorem ArgsRelated.directory? (h : ArgsRelated r create create') :
    Option.Rel r (directory? create) (directory? create') := by
  unfold TempDirectory.directory?
  have third : Option.Rel (fun a a' => r a a' ∧ isNull a' = isNull a) create.args[2]? create'.args[2]? := by
    unfold ArgsRelated at h
    generalize create.args = args at h ⊢
    generalize create'.args = args' at h ⊢
    rcases h with _ | ⟨-, _ | ⟨-, _ | ⟨third, -⟩⟩⟩
    · exact .none
    · exact .none
    · exact .none
    · exact .some third
  generalize create.args[2]? = dir at third ⊢
  generalize create'.args[2]? = dir' at third ⊢
  cases third with
  | none => exact .none
  | some third =>
    rw [Option.filter_some, Option.filter_some, third.2]
    split
    · exact .some third.1
    · exact .none

end

end TempDirectory

section

open TempDirectory

variable {r : Expr → Expr → Prop} {create create' new new' : Expr}

theorem TempFile.Makes.related (structural : Structural r) (made : TempFile.Makes create new)
    (made' : TempFile.Makes create' new') (args : ArgsRelated r create create') : r new new' := by
  obtain ⟨start, ending, rest, owner, file, split, new, shape⟩ := made
  obtain ⟨start', ending', rest', owner', file', split', new', shape'⟩ := made'
  have dirs := args.directory?
  unfold ArgsRelated at args
  rw [split, split'] at args
  obtain ⟨⟨starts, -⟩, ⟨endings, -⟩, -⟩ :=
    List.forall₂_cons.mp args |>.imp_right List.forall₂_cons.mp
  refine structural.call (by decide +kernel) new new' ?_ .nil
  cases dir : directory? create <;> cases dir' : directory? create' <;>
    rw [dir, dir'] at dirs <;> rw [dir] at shape <;> rw [dir'] at shape'
  · exact structural.call (by decide +kernel) shape.2 shape'.2 (structural.owner shape.1 shape'.1)
      (.cons starts (.cons endings .nil))
  · cases dirs
  · cases dirs
  · obtain ⟨parent, path, owned, call⟩ := shape
    obtain ⟨parent', path', owned', call'⟩ := shape'
    cases dirs with
    | some dirs =>
      have parents := structural.call (by decide +kernel) path path' dirs .nil
      exact structural.call (by decide +kernel) call call' (structural.owner owned owned')
        (.cons parents (.cons starts (.cons endings .nil)))

/-- The types of the first two arguments matter for the type of their sum. -/
theorem TempDirectory.Makes.related (structural : Structural r)
    (made : TempDirectory.Makes create new) (made' : TempDirectory.Makes create' new')
    (args : ArgsRelated r create create')
    (types : (create'.args.take 2).map (·.ty) = (create.args.take 2).map (·.ty)) : r new new' := by
  obtain ⟨start, ending, rest, name, owner, file, split, named, new, shape⟩ := made
  obtain ⟨start', ending', rest', name', owner', file', split', named', new', shape'⟩ := made'
  have dirs := args.directory?
  unfold ArgsRelated at args
  rw [split, split'] at args types
  obtain ⟨⟨starts, -⟩, ⟨endings, nulls⟩, -⟩ :=
    List.forall₂_cons.mp args |>.imp_right List.forall₂_cons.mp
  obtain ⟨startTy, endingTy, -⟩ := List.cons.inj types |>.imp_right List.cons.inj
  have names : r name name' := by
    rw [nulls] at named'
    cases null : isNull ending <;> rw [null] at named named'
    · exact structural.add named named' starts endings startTy endingTy
    · cases named
      cases named'
      exact starts
  refine structural.call (by decide +kernel) new new' ?_ .nil
  cases dir : directory? create <;> cases dir' : directory? create' <;>
    rw [dir, dir'] at dirs <;> rw [dir] at shape <;> rw [dir'] at shape'
  · exact structural.call (by decide +kernel) shape.2 shape'.2 (structural.owner shape.1 shape'.1)
      (.cons names .nil)
  · cases dirs
  · cases dirs
  · obtain ⟨parent, path, owned, call⟩ := shape
    obtain ⟨parent', path', owned', call'⟩ := shape'
    cases dirs with
    | some dirs =>
      have parents := structural.call (by decide +kernel) path path' dirs .nil
      exact structural.call (by decide +kernel) call call' (structural.owner owned owned')
        (.cons parents (.cons names .nil))

end

end JavaMend
