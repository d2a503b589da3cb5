import JavaMend.Match.Shape
import JavaMend.Proofs.Match.Descriptor

/-!
# The members of a plain signature

A signature whose names have no wildcards stands for the members that go by one name in one
class and the classes below it (`Signature.accepts_exactly`). The signatures that the passes
look for are of this kind, so what a pass takes for a call of interest can be said without
patterns: which member it is resolved to.
-/

namespace JavaMend

/-! ## Names -/

theorem Ty.mem_names_of_isClass {name : String} {ty : Ty} (own : ty.isClass name = true) :
    name ∈ ty.names := by
  cases ty with
  | cls fqn supers =>
    cases eq_of_beq own
    exact List.mem_cons_self
  | _ => cases own

namespace Glob

/-- The pattern for one name. -/
def exactly (name : String) : Glob := name.toList.map .char

/-- A pattern without wildcards stands for its own text. -/
@[simp] theorem accepts_exactly {text name : String} :
    (exactly text).accepts name = true ↔ name = text := by
  unfold exactly
  rw [accepts_iff, ← String.toList_inj]
  generalize text.toList = text, name.toList = name
  constructor
  · rintro ⟨pieces, gives, rfl⟩
    induction text generalizing pieces with
    | nil =>
      cases gives
      rfl
    | cons c text ih =>
      cases gives with
      | cons first rest =>
        cases first
        rw [List.flatten_cons, ih _ rest]
        rfl
  · rintro rfl
    refine ⟨name.map ([·]), ?_, ?_⟩
    · rw [List.forall₂_map_left_iff, List.forall₂_map_right_iff]
      exact List.forall₂_same.mpr fun c _ => rfl
    · induction name with
      | nil => rfl
      | cons c name ih => rw [List.map_cons, List.flatten_cons, ← ih, List.singleton_append]

/-- The types that go by a name: those of the class, those below it, and the primitive type. -/
theorem acceptsTyOrSuper_exactly {name : String} {ty : Ty} :
    (exactly name).acceptsTyOrSuper ty = true ↔ name ∈ ty.names := by
  cases ty with
  | cls fqn supers => simp [acceptsTyOrSuper, Ty.names, @eq_comm _ name]
  | primitive kind => simp [acceptsTyOrSuper, acceptsTy, Ty.names, @eq_comm _ name]
  | null | unknown => simp [acceptsTyOrSuper, acceptsTy, Ty.names]

/-- A name that is no keyword of a primitive type is that of a class. -/
theorem acceptsTy_exactly {name : String} (reference : ∀ kind : Primitive, kind.keyword ≠ name)
    {ty : Ty} : (exactly name).acceptsTy ty = true ↔ ty.isClass name = true := by
  cases ty <;> simp [acceptsTy, Ty.isClass, Ty.fqn?, reference]

end Glob

namespace Signature

/-- The pattern for one name of members. -/
def NamePattern.exactly (name : String) : NamePattern :=
  if name = MethodRef.constructorName then .constructor else .name (.exactly name)

theorem NamePattern.accepts_exactly {name : String} {m : MethodRef} :
    NamePattern.accepts (NamePattern.exactly name) m = true ↔ m.name = name := by
  unfold NamePattern.exactly
  split
  next constructor_ =>
    rw [constructor_]
    exact beq_iff_eq
  next other =>
    rw [NamePattern.accepts, Bool.and_eq_true, Glob.accepts_exactly, Bool.not_eq_true']
    refine and_iff_right_of_imp ?_
    rintro rfl
    exact beq_false_of_ne other

/-! ## Parameters -/

@[simp] theorem acceptsArgs_anySequence (types : List Ty) :
    acceptsArgs [.anySequence] types = true := by
  rw [acceptsArgs, List.any_eq_true]
  exact ⟨[], mem_suffixes.mpr ⟨types, (List.append_nil types).symm⟩, rfl⟩

@[simp] theorem acceptsArgs_nil {types : List Ty} : acceptsArgs [] types = true ↔ types = [] :=
  List.isEmpty_iff

theorem acceptsArgs_type {glob : Glob} {types : List Ty} :
    acceptsArgs [.type glob] types = true ↔ ∃ ty, types = [ty] ∧ glob.acceptsTy ty = true := by
  cases types with
  | nil => simp [acceptsArgs]
  | cons ty types => simp [acceptsArgs, and_comm]

/-! ## Members -/

/-- The signature of the members that go by one name in one class. -/
def exactly (descriptor owner name : String) (args : List ArgPattern) : Signature :=
  { descriptor, owner := .exactly owner, name := NamePattern.exactly name, args }

/-- The members of a plain signature: those of the name that are declared in the class or
below it, for types of parameters that the arguments take. -/
theorem accepts_exactly {descriptor owner name : String} {args : List ArgPattern} {m : MethodRef} :
    (exactly descriptor owner name args).accepts m = true ↔
      m.name = name ∧ owner ∈ m.owner.names ∧ acceptsArgs args m.params = true := by
  rw [accepts, Bool.and_eq_true, Bool.and_eq_true, and_assoc]
  exact Iff.and NamePattern.accepts_exactly (Iff.and Glob.acceptsTyOrSuper_exactly Iff.rfl)

/-- Does the signature stand for members of these names? -/
def isAmong (s : Signature) (names : List String) : Bool :=
  match s.name with
  | .constructor => false
  | .name glob => names.any fun name => glob == .exactly name

theorem mem_of_isAmong {s : Signature} {names : List String} {m : MethodRef}
    (among : s.isAmong names = true) (accepted : s.accepts m = true) : m.name ∈ names := by
  obtain ⟨descriptor, owner, name, args⟩ := s
  cases name with
  | constructor => cases among
  | name glob =>
    obtain ⟨name, mem, same⟩ := List.any_eq_true.mp among
    have glob_ : glob = .exactly name := eq_of_beq same
    have named := (Bool.and_eq_true_iff.mp (Bool.and_eq_true_iff.mp accepted).1).1
    have text := Glob.accepts_exactly.mp (glob_ ▸ (Bool.and_eq_true_iff.mp named).2)
    rwa [text]

end Signature

/-! ## Calls -/

namespace CallMatcher

variable {e : Expr} {shapes : List Signature} {names : List String}

/-- The standard matcher asks what a call is resolved to, and nothing else. -/
theorem acceptsAny_congr {e e' : Expr} (same : e'.method? = e.method?) (shapes : List Signature) :
    standard.acceptsAny e' shapes = standard.acceptsAny e shapes := by
  unfold acceptsAny standard
  simp only [same]

theorem acceptsAny_of_none (unresolved : e.method? = none) :
    standard.acceptsAny e shapes = false := by
  unfold acceptsAny standard
  simp [unresolved]

theorem acceptsAny_of_method {m : MethodRef} (found : e.method? = some m) :
    standard.acceptsAny e shapes = shapes.any (·.accepts m) := by
  unfold acceptsAny standard
  simp only [found, Option.any_some]

theorem acceptsAny_standard : standard.acceptsAny e shapes = true ↔
    ∃ m, e.method? = some m ∧ ∃ s ∈ shapes, s.accepts m = true := by
  cases found : e.method? with
  | none => simp [acceptsAny_of_none found]
  | some m => simp [acceptsAny_of_method found]

/-- The name of the method of a call that is of one of some shapes. -/
theorem name_of_acceptsAny (among : shapes.all (·.isAmong names) = true)
    (accepted : standard.acceptsAny e shapes = true) :
    ∃ m, e.method? = some m ∧ m.name ∈ names := by
  obtain ⟨m, found, s, mem, accepted⟩ := acceptsAny_standard.mp accepted
  exact ⟨m, found, Signature.mem_of_isAmong (List.all_eq_true.mp among s mem) accepted⟩

end CallMatcher

end JavaMend
