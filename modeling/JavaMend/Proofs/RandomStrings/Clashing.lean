import JavaMend.Proofs.RandomStrings.Owned

/-!
# Members that clash

The new members have fixed names. They clash with none of a class if the class is receptive:
it has no field `SECURE_RANDOM`, a field `DEF_COUNT` only in a declaration of its own, which
gives way, and no method `generateRandomAlphanumericString()`. Nothing else about the members
of a class changes, so that the output has no clashes if and only if each class that gets
members is receptive (`RandomString.pass_noClash_iff`).
-/

namespace JavaMend

/-- The name of a method and the names of its parameters' types. -/
def Stmt.methodKey? (s : Stmt) : Option (String × List String) :=
  (Node.stmt s).method?.map fun m => (m.1.name, m.1.params.map (·.typeName))

namespace Block

/-- The names of the fields that the body of a class declares. -/
def fieldNames (b : Block) : List String := b.stmts.flatMap (·.declaredNames)

/-- The methods that the body of a class declares. -/
def methodKeys (b : Block) : List (String × List String) := b.stmts.flatMap (·.methodKey?.toList)

/-- No two fields have the same name, and no two methods the same name and types. -/
structure NoClash (b : Block) : Prop where
  fields : b.fieldNames.Nodup
  methods : b.methodKeys.Nodup

instance (b : Block) : Decidable b.NoClash :=
  decidable_of_iff (b.fieldNames.Nodup ∧ b.methodKeys.Nodup)
    ⟨fun h => ⟨h.1, h.2⟩, fun h => ⟨h.fields, h.methods⟩⟩

theorem noClash_iff {b : Block} : b.NoClash ↔ b.fieldNames.Nodup ∧ b.methodKeys.Nodup :=
  ⟨fun h => ⟨h.fields, h.methods⟩, fun h => ⟨h.1, h.2⟩⟩

end Block

namespace RandomString

/-- The class of that body has nothing that the new members would clash with, but for what
gives way to them. -/
structure Receptive (b : Block) : Prop where
  generator : generatorField ∉ b.fieldNames
  length : lengthField ∈ b.fieldNames → (loneField? b lengthField).isSome = true
  method : (methodName, []) ∉ b.methodKeys

instance (b : Block) : Decidable (Receptive b) :=
  decidable_of_iff (generatorField ∉ b.fieldNames ∧
      (lengthField ∈ b.fieldNames → (loneField? b lengthField).isSome = true) ∧
      (methodName, []) ∉ b.methodKeys)
    ⟨fun h => ⟨h.1, h.2.1, h.2.2⟩, fun h => ⟨h.generator, h.length, h.method⟩⟩

variable {mark : NodeId} {above : List Node} {b b' : Block} {s s' : Stmt} {name : String}

/-! ## What the members of a turned body declare -/

/-- What is read off the labels of statements, in a turned block. -/
theorem Turned.flatMap_stmts {β : Type} {f : Stmt → List β}
    (h : Turned mark above (.block b) (.block b'))
    (same : ∀ {s s'}, Turned mark (.block b :: above) (.stmt s) (.stmt s') → f s' = f s) :
    ∃ front back, Members mark above b front back ∧ b'.stmts.flatMap f =
      front.flatMap f ++ (b.stmts.filter (!drops above b ·)).flatMap f ++ back.flatMap f := by
  cases h with
  | around open_ => cases open_
  | @block _ _ _ front back pairs _ _ members before after stmts =>
    have kept : (pairs.map (·.2)).flatMap f = (pairs.map (·.1)).flatMap f := by
      rw [List.flatMap_map, List.flatMap_map]
      exact List.flatMap_congr fun q mem => same (stmts q mem)
    refine ⟨front, back, members, ?_⟩
    rw [after, List.flatMap_append, List.flatMap_append, kept, before]

/-- A method keeps its name and its parameters. -/
theorem Turned.methodKey? (h : Turned mark above (.stmt s) (.stmt s')) :
    s'.methodKey? = s.methodKey? := by
  have label : s'.form.blank = s.form.blank := Node.Label.stmt.inj (h.label rfl rfl)
  obtain ⟨id, form⟩ := s
  obtain ⟨id', form'⟩ := s'
  cases form with
  | method head body =>
    cases form' with
    | method head' body' =>
      cases (StmtForm.method.inj label).1
      rfl
    | _ => cases label
  | _ => cases form' <;> first | rfl | cases label

theorem methodKey?_of_names (names : s.declaredNames = [name]) : s.methodKey? = none := by
  obtain ⟨id, form⟩ := s
  cases form with
  | declare => rfl
  | _ => cases names

/-- The names of the fields that stay. -/
def keptNames (above : List Node) (b : Block) : List String :=
  (b.stmts.filter (!drops above b ·)).flatMap (·.declaredNames)

theorem keptNames_sublist : (keptNames above b).Sublist b.fieldNames :=
  List.filter_sublist.flatMap _

theorem drops_of_none (none : newOwner? above b = none) (s : Stmt) : drops above b s = false := by
  unfold drops
  rw [none]
  rfl

theorem mem_keptNames_generator (distinct : (b.stmts.map (·.id)).Nodup) :
    generatorField ∈ keptNames above b ↔ generatorField ∈ b.fieldNames := by
  refine ⟨fun mem => keptNames_sublist.subset mem, fun mem => ?_⟩
  obtain ⟨s, member, declares⟩ := List.mem_flatMap.mp mem
  refine List.mem_flatMap.mpr ⟨s, List.mem_filter.mpr ⟨member, ?_⟩, declares⟩
  by_contra dropped
  rw [Bool.not_eq_true, Bool.not_eq_false'] at dropped
  rw [names_dropped distinct member dropped] at declares
  exact absurd declares (by decide)

/-- An old length stays if it does not stand alone. -/
theorem mem_keptNames_length (fields : b.fieldNames.Nodup)
    (joins : (newOwner? above b).isSome = true) : lengthField ∈ keptNames above b ↔
      lengthField ∈ b.fieldNames ∧ loneField? b lengthField = none := by
  constructor
  · intro mem
    refine ⟨keptNames_sublist.subset mem, ?_⟩
    obtain ⟨s, kept, declares⟩ := List.mem_flatMap.mp mem
    obtain ⟨member, stays⟩ := List.mem_filter.mp kept
    cases found : loneField? b lengthField with
    | none => rfl
    | some lone =>
      have at_ := found
      rw [loneField?_eq] at at_
      have names : (lone.declaredNames == [lengthField]) = true :=
        (List.find?_eq_some_iff_append.mp at_).1
      -- Two declarations of one name would be the same.
      have same : s = lone := by
        by_contra apart
        have : Std.Symm (Function.onFun List.Disjoint fun s : Stmt => s.declaredNames) :=
          ⟨fun _ _ disjoint => disjoint.symm⟩
        have disjoint := (List.nodup_flatMap.mp fields).2.forall member
          (List.mem_of_find?_eq_some at_) apart
        have again : lengthField ∈ lone.declaredNames := by
          rw [eq_of_beq names]
          exact List.mem_cons_self
        exact disjoint declares again
      cases same
      unfold drops at stays
      rw [joins, found] at stays
      simp at stays
  · rintro ⟨mem, alone⟩
    obtain ⟨s, member, declares⟩ := List.mem_flatMap.mp mem
    refine List.mem_flatMap.mpr ⟨s, List.mem_filter.mpr ⟨member, ?_⟩, declares⟩
    unfold drops
    rw [alone]
    simp

/-! ## Clashes in a turned body -/

/-- Without new members the body declares what it did. -/
theorem Turned.noClash_of_none (h : Turned mark above (.block b) (.block b'))
    (none : newOwner? above b = none) : b'.NoClash ↔ b.NoClash := by
  have kept : b.stmts.filter (!drops above b ·) = b.stmts := by
    refine List.filter_eq_self.mpr fun s _ => ?_
    rw [drops_of_none none]
    rfl
  have alike {β : Type} {f : Stmt → List β}
      (same : ∀ {s s'}, Turned mark (.block b :: above) (.stmt s) (.stmt s') → f s' = f s) :
      b'.stmts.flatMap f = b.stmts.flatMap f := by
    obtain ⟨front, back, members, split⟩ := h.flatMap_stmts same
    unfold Members at members
    rw [none] at members
    obtain ⟨rfl, rfl⟩ := members
    rw [split, kept, List.flatMap_nil, List.nil_append, List.append_nil]
  have fields : b'.fieldNames = b.fieldNames := alike Turned.declaredNames
  have methods : b'.methodKeys = b.methodKeys :=
    alike fun turned => congrArg Option.toList turned.methodKey?
  rw [Block.noClash_iff, Block.noClash_iff, fields, methods]

/-- The new members clash with none that stay if the class is receptive. -/
theorem Turned.noClash_of_joins (h : Turned mark above (.block b) (.block b'))
    (distinct : (b.stmts.map (·.id)).Nodup) (noClash : b.NoClash)
    (joins : (newOwner? above b).isSome = true) : b'.NoClash ↔ Receptive b := by
  obtain ⟨owner, at_⟩ := Option.isSome_iff_exists.mp joins
  have fields : b'.fieldNames = [generatorField, lengthField] ++ keptNames above b := by
    obtain ⟨front, back, members, split⟩ := h.flatMap_stmts Turned.declaredNames
    unfold Members at members
    rw [at_] at members
    obtain ⟨⟨next, -, rfl⟩, next', -, rfl⟩ := members
    exact split.trans (List.append_nil _)
  have methods : b'.methodKeys = b.methodKeys ++ [(methodName, [])] := by
    obtain ⟨front, back, members, split⟩ := h.flatMap_stmts fun turned =>
      congrArg Option.toList turned.methodKey?
    unfold Members at members
    rw [at_] at members
    obtain ⟨⟨next, -, rfl⟩, next', -, rfl⟩ := members
    rw [flatMap_filter fun s mem gone => ?_] at split
    · exact split
    · rw [methodKey?_of_names (names_dropped distinct mem ((Bool.not_eq_false' _).mp gone))]
      rfl
  have rest : (keptNames above b).Nodup := keptNames_sublist.nodup noClash.fields
  rw [Block.noClash_iff, fields, methods]
  constructor
  · rintro ⟨apart, once⟩
    obtain ⟨generator, length⟩ := List.nodup_cons.mp apart
    refine ⟨fun mem => ?_, fun mem => ?_, fun mem => ?_⟩
    · exact generator (List.mem_cons_of_mem _ ((mem_keptNames_generator distinct).mpr mem))
    · rw [Option.isSome_iff_ne_none]
      exact fun none =>
        (List.nodup_cons.mp length).1 ((mem_keptNames_length noClash.fields joins).mpr ⟨mem, none⟩)
    · exact List.disjoint_of_nodup_append once mem List.mem_cons_self
  · rintro ⟨generator, length, method⟩
    constructor
    · refine List.nodup_cons.mpr ⟨fun mem => ?_, List.nodup_cons.mpr ⟨fun mem => ?_, rest⟩⟩
      · rcases List.mem_cons.mp mem with same | mem
        · exact absurd same (by decide)
        · exact generator ((mem_keptNames_generator distinct).mp mem)
      · obtain ⟨declared, none⟩ := (mem_keptNames_length noClash.fields joins).mp mem
        cases none ▸ length declared
    · refine noClash.methods.append (List.nodup_singleton _) fun key mem new => ?_
      cases List.mem_singleton.mp new
      exact method mem

/-- Of two lists that are related element by element, one has a property throughout if and only
if the other has. -/
theorem forall_mem_iff {α β : Type} {R : α → β → Prop} {P : α → Prop} {Q : β → Prop} {as : List α}
    {bs : List β} (all : List.Forall₂ R as bs) (iff : ∀ a ∈ as, ∀ b, R a b → (Q b ↔ P a)) :
    (∀ b ∈ bs, Q b) ↔ ∀ a ∈ as, P a := by
  induction all with
  | nil => exact iff_of_true (List.forall_mem_nil _) (List.forall_mem_nil _)
  | cons first _ ih =>
    rw [List.forall_mem_cons, List.forall_mem_cons, iff _ List.mem_cons_self _ first,
      ih fun a mem => iff a (List.mem_cons_of_mem _ mem)]

theorem Became.noClash_iff {root : Node} {c c' : ClassHead × Block} (h : Became mark root c c')
    (distinct : (root.subtree.map Node.id).Nodup) (noClash : c.2.NoClash) :
    c'.2.NoClash ↔ (lacksGenerator c.2 = true → Receptive c.2) := by
  obtain ⟨owner, up, isClass, genuine, last, turned⟩ := h.body
  have below := (Node.subtree_sublist_of_genuine genuine last).map Node.id
  cases lacks : lacksGenerator c.2 with
  | true =>
    rw [turned.noClash_of_joins (Node.distinct_stmts (below.nodup distinct)) noClash
      (newOwner?_isSome_of_lacks isClass lacks)]
    exact ⟨fun receptive _ => receptive, fun receptive => receptive rfl⟩
  | false =>
    have none : newOwner? (owner :: up) c.2 = none := by
      unfold newOwner?
      rw [lacks]
      rfl
    rw [turned.noClash_of_none none]
    exact iff_of_true noClash fun absurd => by cases absurd

/-- In a unit without shared nodes and without clashes, the pass brings no clash about if and
only if each class that gets members is receptive. -/
theorem pass_noClash_iff (limits : FlowLimits) {unit : CompilationUnit} {next : NodeId}
    (distinct : ((Node.unit unit).subtree.map Node.id).Nodup)
    (old : ∀ n ∈ (Node.unit unit).subtree, n.id < next)
    (noClash : ∀ c ∈ (Node.unit unit).classes, c.2.NoClash) :
    ∃ out used, pass ⟨.standard, limits, .standard⟩ unit next = (.ok out, used) ∧
      ((∀ c ∈ (Node.unit out.unit).classes, c.2.NoClash) ↔
        ∀ c ∈ (Node.unit unit).classes, lacksGenerator c.2 = true → Receptive c.2) := by
  let env : PassEnv := ⟨.standard, limits, .standard⟩
  have succeeds : (pass env).Succeeds := Remedy.pass_succeeds rfl (remedy_succeeds env) ()
  obtain ⟨out, used, ran⟩ := succeeds unit next
  obtain ⟨changed, turned, classes, -⟩ := pass_turns rfl rfl distinct old ran
  have became := turned.classes trivial rfl distinct
  rw [classes_unit classes.symm] at became
  exact ⟨out, used, ran,
    forall_mem_iff became fun c mem c' h => h.noClash_iff distinct (noClash c mem)⟩

/-- `class A { int DEF_COUNT = 8; String s = RandomStringUtils.randomAlphanumeric(DEF_COUNT); }` -/
theorem pass_noClash_iff_oldLength :
    let method := Jdk.randomStringUtilsRandomAlphanumeric Fqn.randomStringUtils
    let length : Stmt :=
      ⟨3, .declare ⟨[], "int", [⟨4, lengthField, .int, some ⟨5, .int, .literal (.int 8)⟩⟩]⟩⟩
    let draw : Expr := ⟨6, .string, .call
      (some ⟨7, .known Fqn.randomStringUtils, .ident "RandomStringUtils" none⟩)
      "randomAlphanumeric" [⟨8, .int, .ident lengthField (some (.known "A"))⟩] (some method)⟩
    let field : Stmt := ⟨9, .declare ⟨[], "String", [⟨10, "s", .string, some draw⟩]⟩⟩
    let unit : CompilationUnit :=
      ⟨0, none, [], [⟨1, ⟨[], "A", .known "A"⟩, ⟨2, false, [length, field]⟩⟩]⟩
    ∃ out used, pass ⟨.standard, ⟨64, 8⟩, .standard⟩ unit 11 = (.ok out, used) ∧
      ∀ c ∈ (Node.unit out.unit).classes, c.2.NoClash := by
  intro method length draw field unit
  have distinct : ((Node.unit unit).subtree.map Node.id).Nodup := by decide +kernel
  have old : ∀ n ∈ (Node.unit unit).subtree, n.id < 11 := by decide +kernel
  have noClash : ∀ c ∈ (Node.unit unit).classes, c.2.NoClash := by decide +kernel
  have receptive : ∀ c ∈ (Node.unit unit).classes, lacksGenerator c.2 = true → Receptive c.2 := by
    decide +kernel
  obtain ⟨out, used, ran, iff⟩ := pass_noClash_iff ⟨64, 8⟩ distinct old noClash
  exact ⟨out, used, ran, iff.mpr receptive⟩

end RandomString

end JavaMend
