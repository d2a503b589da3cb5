import JavaMend.Patch.Imports
import Mathlib.Data.List.Nodup

/-!
# Imports that clash

A unit may import at most one class of a simple name. Whether a requested class has to be
imported is decided by its qualified name alone, so the import of another class of the same
simple name is no obstacle. The imports that are added leave the simple names distinct exactly
if no class they are for shares its simple name with one that the unit imports already
(`ImportRequests.importedNames_apply_nodup_iff`).
-/

namespace JavaMend

/-- The import of one class. -/
def Import.isSingle (i : Import) : Bool := !i.isStatic && !i.isWildcard

/-- The simple names of the classes that a unit imports one by one. -/
def CompilationUnit.importedNames (unit : CompilationUnit) : List String :=
  (unit.imports.filter (·.isSingle)).map fun i => Fqn.simple i.name

namespace CompilationUnit

variable {unit other : CompilationUnit} {fqn : String}

theorem seesType_of_lang (package : Fqn.package fqn = "java.lang") : unit.seesType fqn = true := by
  unfold seesType
  rw [package]
  rfl

theorem seesType_of_import (imported : ⟨fqn, false⟩ ∈ unit.imports) : unit.seesType fqn = true := by
  unfold seesType
  refine Bool.or_eq_true_iff.mpr (.inr (List.any_eq_true.mpr ⟨_, imported, ?_⟩))
  rw [beq_self_eq_true, Bool.true_or]
  rfl

/-- A unit of the same package with more imports sees more. -/
theorem seesType_of_subset (package : other.package = unit.package) (more : unit.imports ⊆ other.imports)
    (sees : unit.seesType fqn = true) : other.seesType fqn = true := by
  unfold seesType at sees ⊢
  rw [package]
  refine Bool.or_eq_true_iff.mpr ((Bool.or_eq_true_iff.mp sees).imp_right fun imported => ?_)
  obtain ⟨i, mem, shows⟩ := List.any_eq_true.mp imported
  exact List.any_eq_true.mpr ⟨i, more mem, shows⟩

end CompilationUnit

namespace ImportRequests

variable {set : ImportRequests} {names : List String} {unit : CompilationUnit} {name : String}

theorem mem_requested_add {fqn : String} :
    name ∈ (set.add fqn).requested ↔ name ∈ set.requested ∨ name = fqn := by
  unfold add
  split
  next known =>
    have known := List.contains_iff_mem.mp known
    exact ⟨.inl, fun mem => mem.elim id fun same => same ▸ known⟩
  next => simp

/-- A class that is asked for twice is requested once. -/
theorem nodup_requested_add {fqn : String} (distinct : set.requested.Nodup) :
    (set.add fqn).requested.Nodup := by
  unfold add
  split
  next => exact distinct
  next unknown =>
    exact List.nodup_append.mpr ⟨distinct, List.nodup_singleton fqn, fun a mem b last same =>
      unknown (List.contains_iff_mem.mpr (List.mem_singleton.mp last ▸ same ▸ mem))⟩

theorem mem_requested_foldl :
    name ∈ (names.foldl add set).requested ↔ name ∈ set.requested ∨ name ∈ names := by
  induction names generalizing set with
  | nil => simp
  | cons fqn names ih => rw [List.foldl_cons, ih, mem_requested_add, List.mem_cons, or_assoc]

theorem nodup_requested_foldl (distinct : set.requested.Nodup) :
    (names.foldl add set).requested.Nodup := by
  induction names generalizing set with
  | nil => exact distinct
  | cons fqn names ih => exact ih (nodup_requested_add distinct)

/-- What a unit lacks is appended to what it imports. -/
theorem importedNames_apply (next : NodeId) :
    (set.apply unit next).1.importedNames = unit.importedNames ++
      ((set.lacking unit).filter (·.isSingle)).map fun i => Fqn.simple i.name := by
  unfold apply
  cases lacks : set.lacking unit with
  | nil => exact (List.append_nil _).symm
  | cons i rest =>
    show (((unit.imports ++ i :: rest).filter _).map _) = _
    rw [List.filter_append, List.map_append]
    rfl

/-- What is added is requested, not visible, and not static. -/
theorem mem_lacking {i : Import} : i ∈ set.lacking unit ↔
    (i.name ∈ set.requested ∧ unit.seesType i.name = false) ∧ i.isStatic = false := by
  unfold lacking
  rw [List.mem_map]
  constructor
  · rintro ⟨name, mem, rfl⟩
    obtain ⟨mem, unseen⟩ := List.mem_filter.mp mem
    exact ⟨⟨mem, Bool.not_eq_true' _ ▸ unseen⟩, rfl⟩
  · rintro ⟨⟨mem, unseen⟩, plain⟩
    exact ⟨i.name, List.mem_filter.mpr ⟨mem, (Bool.not_eq_true' _).mpr unseen⟩, plain ▸ rfl⟩

theorem imports_apply (next : NodeId) :
    (set.apply unit next).1.imports = unit.imports ++ set.lacking unit := by
  unfold apply
  cases set.lacking unit with
  | nil => exact (List.append_nil _).symm
  | cons i rest => rfl

theorem package_apply (next : NodeId) : (set.apply unit next).1.package = unit.package := by
  unfold apply
  cases set.lacking unit <;> rfl

/-- The unit then sees what it saw before and what was requested. -/
theorem seesType_apply (next : NodeId) {fqn : String}
    (sees : unit.seesType fqn = true ∨ fqn ∈ set.requested) :
    (set.apply unit next).1.seesType fqn = true := by
  by_cases seen : unit.seesType fqn = true
  · refine CompilationUnit.seesType_of_subset (package_apply next) ?_ seen
    rw [imports_apply]
    exact List.subset_append_left _ _
  · refine CompilationUnit.seesType_of_import ?_
    rw [imports_apply]
    refine List.mem_append_right _ (mem_lacking.mpr ⟨⟨sees.resolve_left seen, ?_⟩, rfl⟩)
    exact (Bool.not_eq_true _).mp seen

/-- Classes of distinct simple names are added under distinct simple names. -/
theorem nodup_lacking (distinct : set.requested.Nodup)
    (asked : ∀ a ∈ set.requested, ∀ b ∈ set.requested, Fqn.simple a = Fqn.simple b → a = b) :
    (((set.lacking unit).filter (·.isSingle)).map fun i => Fqn.simple i.name).Nodup := by
  refine List.Nodup.map_on ?_ ?_
  · intro i hi j hj same
    obtain ⟨⟨hi, -⟩, plain⟩ := mem_lacking.mp (List.mem_filter.mp hi).1
    obtain ⟨⟨hj, -⟩, plain'⟩ := mem_lacking.mp (List.mem_filter.mp hj).1
    obtain ⟨name, isStatic⟩ := i
    obtain ⟨name', isStatic'⟩ := j
    cases asked name hi name' hj same
    rw [show isStatic = isStatic' from plain.trans plain'.symm]
  · refine List.Nodup.filter _ (List.Nodup.map ?_ (List.Nodup.filter _ distinct))
    exact fun a b same => congrArg Import.name same

/-- If a unit imports classes of distinct simple names, and classes of distinct simple names are
requested, then what is imported in the end has distinct simple names exactly if no requested
class that the unit does not see shares its simple name with an imported one. -/
theorem importedNames_apply_nodup_iff (distinct : unit.importedNames.Nodup)
    (asked : ∀ a ∈ names, ∀ b ∈ names, Fqn.simple a = Fqn.simple b → a = b) (next : NodeId) :
    ((names.foldl add empty).apply unit next).1.importedNames.Nodup ↔
      ∀ name ∈ names, unit.seesType name = false → Import.isWildcard ⟨name, false⟩ = false →
        Fqn.simple name ∉ unit.importedNames := by
  have mem {name : String} : name ∈ (names.foldl add empty).requested ↔ name ∈ names :=
    mem_requested_foldl.trans (or_iff_right List.not_mem_nil)
  have requested : (names.foldl add empty).requested.Nodup := nodup_requested_foldl List.nodup_nil
  rw [importedNames_apply, List.nodup_append']
  constructor
  · rintro ⟨-, -, apart⟩ name asks unseen single imported
    refine apart imported (List.mem_map.mpr ⟨⟨name, false⟩, List.mem_filter.mpr ⟨?_, ?_⟩, rfl⟩)
    · exact mem_lacking.mpr ⟨⟨mem.mpr asks, unseen⟩, rfl⟩
    · simp [Import.isSingle, single]
  · intro apart
    refine ⟨distinct, ?_, fun simple imported new => ?_⟩
    · exact nodup_lacking requested fun a ha b hb => asked a (mem.mp ha) b (mem.mp hb)
    obtain ⟨i, hi, rfl⟩ := List.mem_map.mp new
    obtain ⟨lacks, single⟩ := List.mem_filter.mp hi
    obtain ⟨⟨asks, unseen⟩, plain⟩ := mem_lacking.mp lacks
    obtain ⟨name, isStatic⟩ := i
    cases plain
    exact apart name (mem.mp asks) unseen (by simpa [Import.isSingle] using single) imported

/-- Next to `import com.acme.File;` and `import java.nio.file.*;` the class `java.nio.file.Files`
is requested, which the unit sees, and `java.io.IOException`, which it gets. -/
theorem importedNames_apply_nodup_twoRequests :
    let unit : CompilationUnit :=
      ⟨0, none, [⟨"com.acme.File", false⟩, ⟨"java.nio.file.*", false⟩], []⟩
    let names : List String := [Fqn.files, Fqn.ioException, Fqn.files]
    unit.importedNames.Nodup ∧
      (∀ a ∈ names, ∀ b ∈ names, Fqn.simple a = Fqn.simple b → a = b) ∧
      ((names.foldl add empty).apply unit 1).1.importedNames.Nodup := by
  intro unit names
  have distinct : unit.importedNames.Nodup := by decide +kernel
  have asked : ∀ a ∈ names, ∀ b ∈ names, Fqn.simple a = Fqn.simple b → a = b := by decide +kernel
  exact ⟨distinct, asked, (importedNames_apply_nodup_iff distinct asked 1).mpr (by decide +kernel)⟩

end ImportRequests

end JavaMend
