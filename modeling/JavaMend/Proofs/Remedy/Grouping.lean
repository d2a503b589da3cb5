import JavaMend.Proofs.Remedy.Entries
import JavaMend.Proofs.Remedy.Guarded
import JavaMend.Proofs.Remedy.Made
import JavaMend.Proofs.Remedy.Turning
import JavaMend.Proofs.Tree.Places

/-!
# Parentheses

Where every operand of a unit binds as closely as the operator around it demands, the same is
true of what a pass makes of the unit (`CatalogEntry.run_grouped`), so that the code that is
printed means what the tree means.

What takes the place of an expression binds as closely as can be, with one exception: the
directory that `PartialPath` completes becomes a sum. It stands where an argument stood and,
as no node stands at two places, nowhere else (`PartialPath.roomy_of_distinct`).

The passes for temporary files make receivers and summands of the arguments of a call, and a
guard makes a receiver of a directory, all of them without parentheses. The expressions where
this comes out as something else than was meant are excluded (`Remediation.strains`).
-/

namespace JavaMend

/-! ## Expressions that are grouped -/

/-- All expressions in what is sound are grouped. -/
theorem Node.allExprs_of_sound {known : String → Prop} {n : Node} (sound : n.All (Node.Sound known)) :
    n.AllExprs (·.isGrouped = true) := by
  intro m mem e at_
  have grouped : m.expr?.all Expr.isGrouped = true := (sound m mem).grouped
  rw [Option.mem_def.mp at_] at grouped
  exact grouped

/-- An expression is sound if all that is in it is grouped. -/
theorem Expr.sound_of_grouped {e : Expr} (grouped : (Node.expr e).AllExprs (·.isGrouped = true)) :
    e.Sound fun _ => True := by
  obtain ⟨self, children⟩ := allExprs_iff.mp grouped
  exact sound_iff.mpr ⟨self, fun _ _ _ _ => trivial, fun c mem => sound_of_grouped (children c mem)⟩
termination_by sizeOf e
decreasing_by exact sizeOf_lt_of_mem_children mem

theorem Expr.strength_of_receiver {e receiver : Expr} (grouped : e.isGrouped = true)
    (found : e.receiver? = some receiver) : receiver.form.strength = 9 := by
  have binds := isGrouped_iff.mp grouped
  obtain ⟨id, ty, form⟩ := e
  cases form with
  | call =>
    cases found
    exact Nat.le_antisymm receiver.form.strength_le (List.forall₂_cons.mp binds).1
  | _ => cases found

theorem Expr.strength_of_label {e e' : Expr} (label : (Node.expr e').label = (Node.expr e).label) :
    e'.form.strength = e.form.strength := by
  rw [← ExprForm.strength_map (fun _ => ()), (Node.Label.expr.inj label).2, ExprForm.strength_map]

/-- Operands may give way to what binds as closely. -/
theorem survives_grouped {old : NodeId → Prop} {gone : Expr → Prop} {new : Expr}
    (strong : ∀ e, gone e → e.form.strength ≤ new.form.strength) :
    Survives old (·.isGrouped = true) gone new := by
  intro e e' label children grouped
  refine Expr.isGrouped_of_stronger grouped (Node.Label.expr.inj label).2 (children.imp ?_)
  intro c c' swaps
  cases swaps with
  | stays => exact le_rfl
  | rebuilt _ label => exact (Expr.strength_of_label label).ge
  | gives here => exact strong c here

namespace PendingFix.Turns

variable {old : NodeId → Prop} {anchor : Stmt} {tainted new : Expr} {imports : List String}
  {fix : PendingFix}

theorem replace_firm (firm : new.Firm fun _ => True) :
    Turns old (·.isGrouped = true) ⟨anchor, tainted, none, .replace new imports⟩ :=
  .of_replace (Node.allExprs_of_sound firm.sound)
    (survives_grouped fun e _ => firm.strength ▸ e.form.strength_le)

theorem write_sound (sound : ∀ s ∈ fix.kind.written, s.Sound fun _ => True)
    (tag : fix.kind.tag = .insertAfter ∨ fix.kind.tag = .insertBefore ∨ fix.kind.tag = .remove) :
    Turns old (·.isGrouped = true) fix :=
  .of_written (fun s mem => Node.allExprs_of_sound (sound s mem)) tag

end PendingFix.Turns

/-! ## Expressions that are taken apart -/

/-- Can a value of the type be the directory of a guard that calls a method on it? -/
def Ty.isDirectory (ty : Ty) : Bool := ty.isFile || ty.isPath

theorem Ty.isDirectory_of_isString {ty : Ty} (text : ty.isString = true) : ty.isDirectory = false := by
  unfold isString isClass at text
  unfold isDirectory isFile isPath isClass
  rw [eq_of_beq text]
  rfl

/-- Is the expression a directory that needs parentheses as a receiver? -/
def Expr.isLooseDirectory (e : Expr) : Bool := e.ty.isDirectory && decide (e.form.strength < 9)

theorem Expr.isLooseDirectory_of_ty {e : Expr} (other : e.ty.isDirectory = false) :
    e.isLooseDirectory = false := by
  unfold isLooseDirectory
  rw [other, Bool.false_and]

theorem Expr.isLooseDirectory_of_strong {e : Expr} (strong : e.form.strength = 9) :
    e.isLooseDirectory = false := by
  unfold isLooseDirectory
  rw [strong, decide_eq_false (Nat.lt_irrefl 9), Bool.and_false]

/-- A call that creates a temporary file in a directory that needs parentheses as a receiver. -/
def TempFile.strains (e : Expr) : Bool :=
  CallMatcher.standard.acceptsAny e TempDirectory.createTempFile &&
    e.args[2]?.any (·.form.strength < 9)

/-- A call that creates a temporary file, of which an argument needs parentheses where it is
put: the first two become summands, and the third becomes a receiver. -/
def TempDirectory.strains (e : Expr) : Bool :=
  CallMatcher.standard.acceptsAny e createTempFile &&
    (e.args.zip [6, 7, 9]).any fun (arg, least) => arg.form.strength < least

/-- A constructor of files whose first argument a guard cannot put in front of a call. -/
def PathTraversal.Guarding.strains (e : Expr) : Bool :=
  CallMatcher.standard.acceptsAny e fileWithChild && e.args.head?.any Expr.isLooseDirectory

/-- A text that begins with a directory which a guard cannot put in front of a call, or with a
directory and something that is no text. -/
def PathTraversal.Normalize.strains (e : Expr) : Bool :=
  match e.form with
  | .binary .add left right =>
    left.isLooseDirectory || left.ty.isDirectory && !right.ty.isString
  | _ => false

/-- An expression of which a guard may have to put the directory in front of a call. -/
def PathTraversal.strains (e : Expr) : Bool := Guarding.strains e || Normalize.strains e

/-- The expressions that a remediation would take apart and put together without the
parentheses that they need. -/
def Remediation.strains : Remediation → Expr → Bool
  | pathTraversal .. => PathTraversal.strains
  | secureTempFile => TempFile.strains
  | tempDirectory => TempDirectory.strains
  | _ => fun _ => false

/-! ## The regime -/

/-- The regime under which expressions are grouped, if none of them is `bad`. -/
abbrev Regime.grouping (bad : Expr → Bool) (hidden : Expr → Bool) (tree : Multiset Node)
    (mark : NodeId) : Regime :=
  .turning (fun _ => True) (fun _ => False) (fun e => e.isGrouped = true ∧ bad e = false)
    (·.isGrouped = true) hidden tree mark

section

variable {bad hidden : Expr → Bool} {tree : Multiset Node} {mark : NodeId} {path : List Node}
  {fix : PendingFix} {env : PassEnv}

theorem Regime.grouping_lawful (drawn : Drawn 0 mark tree) :
    (grouping bad hidden tree mark).Lawful :=
  turning_lawful drawn (fun _ _ _ _ => trivial) (fun _ _ h => h.1)
    (fun _ => survives_grouped fun _ none => none.elim) fun _ none => none.elim

theorem Regime.fitsNear_grouping (turns : fix.Turns (fun _ => False) (·.isGrouped = true)) :
    (grouping bad hidden tree mark).FitsNear path fix :=
  fun _ _ _ _ _ _ _ => turns

theorem Factory.fits_grouping {f : Factory} {owner : Option Ty} {last : Option Stmt}
    {stmts : List Stmt} (sound : ∀ s ∈ stmts, s.Sound fun _ => True) :
    f.Fits (.grouping bad hidden tree mark) path owner last stmts := by
  cases owner with
  | some _ =>
    exact fun next _ _ => .write_sound
      (List.forall_mem_singleton.mpr (mkFieldInitializer_sound sound next)) (.inl rfl)
  | none => exact fun _ _ => .write_sound sound (.inl rfl)

/-- What is known of the expressions of a statement. -/
theorem Node.AllExprs.sound {P : Expr → Prop} {n : Node} {e : Expr}
    (all : n.AllExprs fun e => e.isGrouped = true ∧ P e) (mem : .expr e ∈ n.subtree) :
    (e.Sound fun _ => True) ∧ P e := by
  refine ⟨Expr.sound_of_grouped ((all.below mem).imp fun _ _ h => h.1), ?_⟩
  exact (all.mem mem).2

/-! ## Temporary files -/

theorem TempFile.strong_of_strains {e dir : Expr}
    (accepted : CallMatcher.standard.acceptsAny e TempDirectory.createTempFile = true)
    (loose : strains e = false) (found : TempDirectory.directory? e = some dir) :
    dir.form.strength = 9 := by
  have third : e.args[2]? = some dir := (Option.filter_eq_some_iff.mp found).1
  unfold strains at loose
  rw [accepted, third, Bool.true_and, Option.any_some, decide_eq_false_iff_not] at loose
  exact Nat.le_antisymm dir.form.strength_le (Nat.le_of_not_lt loose)

theorem TempDirectory.strong_of_strains {e : Expr}
    (accepted : CallMatcher.standard.acceptsAny e createTempFile = true) (loose : strains e = false) :
    (∀ dir ∈ directory? e, dir.form.strength = 9) ∧
      ∀ start ending rest, e.args = start :: ending :: rest → isNull ending = false →
        6 ≤ start.form.strength ∧ 7 ≤ ending.form.strength := by
  unfold strains at loose
  rw [accepted, Bool.true_and] at loose
  constructor
  · intro dir found
    have third : e.args[2]? = some dir := (Option.filter_eq_some_iff.mp found).1
    have mem : (dir, 9) ∈ e.args.zip [6, 7, 9] := by
      refine List.mem_iff_getElem?.mpr ⟨2, ?_⟩
      rw [List.getElem?_zip_eq_some]
      exact ⟨third, rfl⟩
    have binds : ¬ dir.form.strength < 9 := by simpa using List.any_eq_false.mp loose _ mem
    exact Nat.le_antisymm dir.form.strength_le (Nat.le_of_not_lt binds)
  · intro start ending rest args _
    rw [args] at loose
    simp at loose
    exact ⟨loose.1, loose.2.1⟩

theorem TempFile.notes_grouping (matcher : env.matcher = .standard) :
    (Regime.grouping strains (fun _ => false) tree mark).Notes (TempFile.remedy env) := by
  refine TempFile.notes (fun _ => rfl) fun e above anchor next new stands accepted found made => ?_
  refine Regime.fitsNear_turning stands found fun _ all mem => .replace_firm ?_
  obtain ⟨sound, loose⟩ := all.sound mem
  rw [matcher] at accepted
  have firm := replacement?_firm trivial sound fun dir => strong_of_strains accepted loose
  exact firm next new made

theorem TempDirectory.notes_grouping (matcher : env.matcher = .standard) :
    (Regime.grouping strains (fun _ => false) tree mark).Notes (TempDirectory.remedy env) := by
  refine TempDirectory.notes (fun _ => rfl) (fun b above site next new stands mem made _ all => ?_)
    fun _ _ _ _ _ _ _ => .write_sound (fun s none => (List.not_mem_nil none).elim) (.inr (.inr rfl))
  refine .replace_firm ?_
  have among := siteAmong_of_mem mem
  obtain ⟨sound, loose⟩ := all.sound among.create
  obtain ⟨strong, summands⟩ := strong_of_strains (matcher ▸ among.accepted) loose
  exact replacement?_firm trivial sound strong summands next new made

end

namespace PathTraversal

/-! ## Paths that are completed -/

/-- What is called on something, or is a name of it in parentheses, binds as closely as can
be. -/
theorem strength_of_unparen {e : Expr} {m : MethodRef} (found : e.unparen.method? = some m) :
    e.form.strength = 9 := by
  obtain ⟨id, ty, form⟩ := e
  cases form <;> first | rfl | cases found

namespace PartialPath

/-- The expression is a directory that is to be completed somewhere in the block. -/
def Completes (block : Block) (directory : Expr) : Prop :=
  ∃ e, .expr e ∈ (Node.block block).subtree ∧ directory? .standard e = some directory

theorem Completes.method {block : Block} {directory : Expr} (h : Completes block directory) :
    ∃ m, directory.unparen.method? = some m := by
  obtain ⟨e, -, found⟩ := h
  obtain ⟨m, method, -⟩ := CallMatcher.acceptsAny_standard.mp (directory?_eq_some.mp found).2.2
  exact ⟨m, method⟩

/-- Every operand binds as closely as the expression demands, and a directory that is to be
completed may become a sum. -/
def Roomy (block : Block) (e : Expr) : Prop :=
  List.Forall₂ (fun least operand =>
    least ≤ operand.form.strength ∧ (Completes block operand → least ≤ 6)) e.form.bounds e.children

theorem Roomy.isGrouped {block : Block} {e : Expr} (h : Roomy block e) : e.isGrouped = true :=
  Expr.isGrouped_iff.mpr (h.imp fun _ _ binds => binds.1)

/-- Where no node stands at two places, a directory that is to be completed is an argument. -/
theorem roomy_of_distinct {block : Block} {e : Expr}
    (distinct : ((Node.block block).subtree.map Node.id).Nodup)
    (mem : .expr e ∈ (Node.block block).subtree) (grouped : e.isGrouped = true) : Roomy block e := by
  have binds := Expr.isGrouped_iff.mp grouped
  unfold Roomy
  rw [List.forall₂_iff_zip] at binds ⊢
  refine ⟨binds.1, fun {least operand} pair => ⟨binds.2 pair, ?_⟩⟩
  rintro ⟨caller, inside, found⟩
  have head := (directory?_eq_some.mp found).2.1
  have arg := directory_mem_args found
  have child : Node.expr operand ∈ (Node.expr e).children :=
    List.mem_map_of_mem (List.of_mem_zip pair).2
  have own := ((Node.subtree_sublist_of_mem mem).map Node.id).nodup distinct
  cases Node.eq_of_child distinct inside mem (List.mem_map_of_mem (Expr.mem_children_of_args arg)) child
  obtain ⟨id, ty, form⟩ := e
  have argument {args : List Expr}
      (pair : (least, operand) ∈ (List.replicate args.length 0).zip args) : least ≤ 6 := by
    rw [List.eq_of_mem_replicate (List.of_mem_zip pair).1]
    exact Nat.zero_le 6
  cases form with
  | call receiver name args method =>
    cases receiver with
    | none => exact argument pair
    | some receiver =>
      rcases List.mem_cons.mp pair with here | pair
      · -- The receiver is no argument.
        cases here
        have split : (Node.expr ⟨id, ty, .call (some operand) name args method⟩).children =
            [] ++ .expr operand :: args.map .expr := rfl
        have beside := (Node.distinct_of_split split own).2 (.expr operand)
        exact (beside (List.mem_map_of_mem arg) _ Node.mem_subtree_self _ Node.mem_subtree_self rfl).elim
      · exact argument pair
  | create name args method => exact argument pair
  | _ => cases head

/-- The ids of a block. -/
def Holds (block : Block) (id : NodeId) : Prop := ∃ n ∈ (Node.block block).subtree, n.id = id

/-- A directory that is to be completed may give way to a sum. -/
theorem survives_roomy {block : Block} {gone : Expr → Prop} {new : Expr}
    (gives : ∀ e, gone e → Completes block e ∧ 6 ≤ new.form.strength ∧ ¬ Completes block new) :
    Survives (Holds block) (Roomy block) gone new := by
  intro e e' label children roomy
  have bounds : e'.form.bounds = e.form.bounds := by
    rw [← ExprForm.bounds_map (fun _ => ()), (Node.Label.expr.inj label).2, ExprForm.bounds_map]
  unfold Roomy
  rw [bounds]
  refine forall₂_trans roomy children ?_
  rintro least c c' ⟨binds, room⟩ swaps
  cases swaps with
  | stays => exact ⟨binds, room⟩
  | rebuilt late label =>
    rw [Expr.strength_of_label label]
    refine ⟨binds, fun ⟨caller, inside, found⟩ => (late ⟨.expr c', ?_, rfl⟩).elim⟩
    have arg := directory_mem_args found
    have child : Node.expr c' ∈ (Node.expr caller).children :=
      List.mem_map_of_mem (Expr.mem_children_of_args arg)
    exact Node.subtree_trans inside (Node.mem_subtree_of_child child Node.mem_subtree_self)
  | gives here =>
    obtain ⟨completes, strong, other⟩ := gives c here
    exact ⟨(room completes).trans strong, fun again => (other again).elim⟩

/-- The regime under which a block is completed. -/
abbrev completing (block : Block) (hidden : Expr → Bool) (tree : Multiset Node) (mark : NodeId) :
    Regime :=
  .turning (· ∈ (Node.block block).subtree) (Holds block) (·.isGrouped = true) (Roomy block) hidden
    tree mark

variable {block : Block} {hidden : Expr → Bool} {mark : NodeId} {env : PassEnv}

theorem completing_lawful (drawn : Drawn 0 mark ((Node.block block).parts fun _ => false)) :
    (completing block hidden ((Node.block block).parts fun _ => false) mark).Lawful := by
  obtain ⟨distinct, old⟩ := drawn.subtree
  refine Regime.turning_lawful drawn (fun n c inside child => ?_) (fun e => roomy_of_distinct distinct)
    (fun new => survives_roomy fun e none => none.elim) ?_
  · exact Node.subtree_trans inside (Node.mem_subtree_of_child child Node.mem_subtree_self)
  · rintro id ⟨n, mem, rfl⟩
    exact old n mem

theorem notes_completing (matcher : env.matcher = .standard)
    (drawn : Drawn 0 mark ((Node.block block).parts fun _ => false)) :
    (completing block (fun _ => false) ((Node.block block).parts fun _ => false) mark).Notes
      (remedy env) := by
  refine PartialPath.notes (fun _ => rfl) fun e above directory anchor next stands found anchored => ?_
  rw [matcher] at found
  refine Regime.fitsNear_turning stands anchored fun inside all mem => ?_
  have completes : Completes block directory := ⟨e, Node.subtree_trans inside mem, found⟩
  have child : Node.expr directory ∈ (Node.expr e).children :=
    List.mem_map_of_mem (Expr.mem_children_of_args (directory_mem_args found))
  have below : Node.expr directory ∈ (Node.stmt anchor).subtree :=
    Node.subtree_trans mem (Node.mem_subtree_of_child child Node.mem_subtree_self)
  have roomy : (Node.expr directory).AllExprs (Roomy block) := by
    refine (all.below below).imp fun e inner grouped => roomy_of_distinct drawn.subtree.1 ?_ grouped
    exact Node.subtree_trans inside (Node.subtree_trans below inner)
  have other {e : Expr} (none_ : e.unparen.method? = none) : ¬ Completes block e := by
    intro completes
    obtain ⟨m, found⟩ := completes.method
    cases none_.symm.trans found
  obtain ⟨m, found⟩ := completes.method
  refine .of_replace ?_ (survives_roomy ?_)
  · -- The directory is the left operand of the sum, and stays as it is.
    have strong := strength_of_unparen found
    refine Expr.allExprs_iff.mpr ⟨?_, List.forall_mem_cons.mpr ⟨roomy, List.forall_mem_singleton.mpr
      (Expr.allExprs_iff.mpr ⟨?_, List.forall_mem_singleton.mpr (Expr.allExprs_iff.mpr ⟨.nil, ?_⟩)⟩)⟩⟩
    · refine .cons ⟨?_, fun _ => le_rfl⟩ (.cons ⟨?_, fun again => (other rfl again).elim⟩ .nil)
      · exact strong ▸ (by decide : 6 ≤ 9)
      · exact (by decide : 7 ≤ 9)
    · exact .cons ⟨le_rfl, fun again => (other rfl again).elim⟩ .nil
    · exact fun c none => (List.not_mem_nil none).elim
  · rintro _ rfl
    exact ⟨completes, le_rfl, other rfl⟩

end PartialPath

/-! ## Texts that are split -/

theorem Guarding.strains_of_noCall {e : Expr} (noCall : e.method? = none) : strains e = false := by
  unfold strains
  rw [CallMatcher.acceptsAny_of_none noCall, Bool.false_and]

theorem Guarding.strains_of_head {e : Expr} (head : ∀ a ∈ e.args.head?, a.isLooseDirectory = false) :
    strains e = false := by
  unfold strains
  cases first : e.args.head? with
  | none => exact Bool.and_false _
  | some a => rw [Option.any_some, head a first, Bool.and_false]

/-- A guard needs no parentheses for any directory below the node. -/
abbrev Guarding.Tame (n : Node) : Prop := n.AllExprs (strains · = false)

/-- A path that is put together from such expressions is split into such expressions. -/
theorem tame_of_strains {n : Node} (all : n.AllExprs (strains · = false)) : Guarding.Tame n :=
  all.imp fun _ _ loose => (Bool.or_eq_false_iff.mp loose).1

namespace Normalize

/-- A text that begins with a directory begins with one that holds together, and goes on with a
text. -/
structure Begins (operands : List Expr) : Prop where
  sound : ∀ o ∈ operands, (Node.expr o).AllExprs (PathTraversal.strains · = false)
  strong : ∀ o rest, operands = o :: rest → rest ≠ [] → o.isLooseDirectory = false
  second : ∀ o o' rest, operands = o :: o' :: rest → o.ty.isDirectory = true →
    o'.ty.isString = true

theorem operandsBefore_begins {e : Expr} {after : List Expr} (h : Begins (e :: after)) :
    Begins (operandsBefore e after) := by
  fun_induction operandsBefore e after with
  | case1 after id ty left right isString ih =>
    obtain ⟨self, children⟩ := Expr.allExprs_iff.mp (h.sound _ List.mem_cons_self)
    obtain ⟨-, loose⟩ := Bool.or_eq_false_iff.mp self
    obtain ⟨loose, other⟩ := Bool.or_eq_false_iff.mp loose
    refine ih ⟨fun o mem => ?_, fun o rest same _ => ?_, fun o o' rest same directory => ?_⟩
    · rcases List.mem_cons.mp mem with rfl | mem
      · exact children _ List.mem_cons_self
      · rcases List.mem_cons.mp mem with rfl | mem
        · exact children _ (List.mem_cons_of_mem _ List.mem_cons_self)
        · exact h.sound o (List.mem_cons_of_mem _ mem)
    · cases same
      exact loose
    · cases same
      rw [directory, Bool.true_and, Bool.not_eq_false'] at other
      exact other
  | case2 => exact h
  | case3 => exact h

theorem operandsOf_begins {e : Expr} (all : (Node.expr e).AllExprs (PathTraversal.strains · = false)) :
    Begins (operandsOf e) := by
  refine operandsBefore_begins ⟨?_, fun o rest same more => ?_, fun o o' rest same => nomatch same⟩
  · exact List.forall_mem_singleton.mpr (all.below (TempDirectory.mem_subtree_unparen e))
  · cases same
    exact (more rfl).elim

/-- A sum of texts is no directory. -/
theorem isDirectory_mkAdd {left right : Expr} {next : NodeId}
    (text : left.ty.isDirectory = true → right.ty.isString = true) :
    (Expr.mkAdd left right next).1.ty.isDirectory = false := by
  show (if left.ty.isString || right.ty.isString then Ty.string else left.ty).isDirectory = false
  split
  next => rfl
  next neither =>
    rw [Bool.or_eq_true, not_or] at neither
    exact Bool.eq_false_iff.mpr fun directory => neither.2 (text directory)

/-- What the path begins with holds together, or is a text. -/
theorem Begins.take {operands : List Expr} (h : Begins operands) (several : 2 ≤ operands.length)
    (count : Nat) : (mkConcatenation? (operands.take count)).Gives
      fun sum => ∀ e ∈ sum, e.isLooseDirectory = false := by
  match operands, count with
  | first :: second :: rest, 0 => exact .pure fun _ none => nomatch none
  | first :: second :: rest, 1 =>
    refine .pure ?_
    rintro _ ⟨⟩
    exact h.strong first _ rfl (List.cons_ne_nil _ _)
  | first :: second :: rest, count + 2 =>
    have sums : ((second :: rest.take count).foldlM Expr.mkAdd first).Gives
        fun sum => sum.ty.isDirectory = false := by
      rw [List.foldlM_cons]
      refine Fresh.Gives.bind (fun next => isDirectory_mkAdd (h.second first second rest rfl))
        fun sum none => .foldlM (fun o _ sum none next => isDirectory_mkAdd fun directory => ?_) none
      cases none.symm.trans directory
    refine sums.bind fun sum none => .pure ?_
    rintro _ ⟨⟩
    exact Expr.isLooseDirectory_of_ty none

variable {matcher : CallMatcher} {userInput : List NodeId}

theorem mkConcatenation?_tame {operands : List Expr}
    (all : ∀ o ∈ operands, Guarding.Tame (.expr o)) :
    (mkConcatenation? operands).Gives fun sum => ∀ e ∈ sum, Guarding.Tame (.expr e) := by
  cases operands with
  | nil => exact .pure fun _ none => nomatch none
  | cons first rest =>
    have sums : (rest.foldlM Expr.mkAdd first).Gives fun sum => Guarding.Tame (.expr sum) := by
      refine .foldlM (fun o mem sum made next => ?_) (all first List.mem_cons_self)
      refine Expr.allExprs_iff.mpr ⟨Guarding.strains_of_noCall rfl, ?_⟩
      exact List.forall_mem_cons.mpr ⟨made, List.forall_mem_singleton.mpr
        (all o (List.mem_cons_of_mem _ mem))⟩
    refine sums.bind fun sum made => .pure ?_
    rintro _ ⟨⟩
    exact made

/-- A path that is split begins with a directory that a guard can put in front of a call. -/
theorem splitPath?_tame {path : Expr}
    (all : (Node.expr path).AllExprs (PathTraversal.strains · = false)) :
    (splitPath? path userInput).Gives fun new => ∀ e ∈ new, Guarding.Tame (.expr e) := by
  have begins := operandsOf_begins all
  have tame : ∀ o ∈ operandsOf path, Guarding.Tame (.expr o) :=
    fun o mem => tame_of_strains (begins.sound o mem)
  have parents (count : Nat) (several : 2 ≤ (operandsOf path).length) :
      (mkConcatenation? ((operandsOf path).take count)).Gives fun sum =>
        ∀ e ∈ sum, e.isLooseDirectory = false ∧ Guarding.Tame (.expr e) :=
    ((begins.take several count).and (mkConcatenation?_tame
      fun o mem => tame o (List.mem_of_mem_take mem))).mono
        fun _ made e mem => ⟨made.1 e mem, made.2 e mem⟩
  refine splitPath?_gives (fun cut _ => parents cut.1)
    (fun cut _ => mkConcatenation?_tame fun o mem => tame o (List.mem_of_mem_drop mem))
    fun cut _ parent child constructor madeParent tameChild chosen next => ?_
  refine Expr.allExprs_iff.mpr ⟨Guarding.strains_of_head ?_, ?_⟩
  · rintro _ ⟨⟩
    exact madeParent.1
  · exact List.forall_mem_cons.mpr ⟨madeParent.2, List.forall_mem_singleton.mpr tameChild⟩

theorem withFile?_tame {sink file : Expr} (all : Guarding.Tame (.expr sink))
    (tame : Guarding.Tame (.expr file)) (strong : file.form.strength = 9) :
    (withFile? sink file).Gives fun new => ∀ e ∈ new, Guarding.Tame (.expr e) := by
  obtain ⟨id, ty, form⟩ := sink
  unfold withFile?
  dsimp only
  split
  next className first rest method =>
    refine fun next => ?_
    rintro _ ⟨⟩
    refine Expr.allExprs_iff.mpr ⟨Guarding.strains_of_head ?_, List.forall_mem_cons.mpr ⟨tame, ?_⟩⟩
    · rintro _ ⟨⟩
      exact Expr.isLooseDirectory_of_strong strong
    · exact fun o mem => (Expr.allExprs_iff.mp all).2 o (List.mem_cons_of_mem _ mem)
  next => exact .pure fun _ none => nomatch none

theorem normalized?_tame {e : Expr} (sound : e.Sound fun _ => True)
    (all : (Node.expr e).AllExprs (PathTraversal.strains · = false)) :
    (normalized? matcher userInput e).Gives
      fun answer => ∀ new ∈ answer, Guarding.Tame (.expr new.1) := by
  unfold normalized?
  split
  next => exact .pure fun _ none => nomatch none
  next path head =>
    have arg := List.mem_of_mem_head? head
    have below := (Expr.allExprs_iff.mp all).2 path (Expr.mem_children_of_args arg)
    have splits : (splitPath? path userInput).Gives fun new =>
        (∀ e ∈ new, e.Firm fun _ => True) ∧ ∀ e ∈ new, Guarding.Tame (.expr e) :=
      (splitPath?_firm userInput trivial (sound.arg arg)).and (splitPath?_tame below)
    have finish {made : Expr} (strong : made.form.strength = 9)
        (tameMade : Guarding.Tame (.expr made)) :
        Fresh.Gives (do return (← withFile? e made).map fun sink => (sink, [Fqn.file]))
          fun answer => ∀ new ∈ answer, Guarding.Tame (.expr new.1) := by
      refine (withFile?_tame (tame_of_strains all) tameMade strong).bind fun sink made =>
        .pure fun new mem => ?_
      obtain ⟨sink, at_, rfl⟩ := Option.map_eq_some_iff.mp mem
      exact made sink at_
    split
    · refine splits.bind fun split made => .pure fun new mem => ?_
      obtain ⟨split, at_, rfl⟩ := Option.map_eq_some_iff.mp mem
      exact made.2 split at_
    · split
      next reads =>
        refine splits.bind fun answer made => ?_
        cases answer with
        | some split => exact finish (made.1 split rfl).strength (made.2 split rfl)
        | none =>
          have text : path.ty.isString = true := by
            simp only [Bool.and_eq_true] at reads
            exact reads.1.2
          have makes : (Expr.mkCreate Jdk.fileOfString [path]).Gives
              fun whole => whole.form.strength = 9 ∧ Guarding.Tame (.expr whole) := by
            refine fun next => ⟨rfl, Expr.allExprs_iff.mpr ⟨Guarding.strains_of_head ?_,
              List.forall_mem_singleton.mpr (tame_of_strains below)⟩⟩
            rintro _ ⟨⟩
            exact Expr.isLooseDirectory_of_ty (Ty.isDirectory_of_isString text)
          exact makes.bind fun whole made => finish made.1 made.2
      next => exact .pure fun _ none => nomatch none

/-- What is sound and tame stays so if it gives way to what binds as closely as can be. -/
theorem survives_tame {old : NodeId → Prop} {gone : Expr → Prop} {new : Expr}
    (strong : ∀ e, gone e → new.form.strength = 9) :
    Survives old (fun e => e.isGrouped = true ∧ Guarding.strains e = false) gone new := by
  rintro e e' label children ⟨grouped, tame⟩
  refine ⟨survives_grouped (fun e here => strong e here ▸ e.form.strength_le) e e' label children
    grouped, ?_⟩
  obtain ⟨method, args⟩ :=
    Expr.args_related (ExprForm.related_iff.mpr ⟨(Node.Label.expr.inj label).2, children⟩)
  have loose {c c' : Expr} (swaps : Expr.Swaps old gone new c c')
      (held : c.isLooseDirectory = false) : c'.isLooseDirectory = false := by
    cases swaps with
    | stays => exact held
    | rebuilt _ label =>
      unfold Expr.isLooseDirectory at held ⊢
      rwa [(Node.Label.expr.inj label).1, Expr.strength_of_label label]
    | gives here => exact Expr.isLooseDirectory_of_strong (strong c here)
  unfold Guarding.strains at tame ⊢
  rw [CallMatcher.acceptsAny_congr method, Bool.and_eq_false_iff]
  refine (Bool.and_eq_false_iff.mp tame).imp_right fun held => ?_
  generalize e.args = operands, e'.args = operands' at args held ⊢
  cases args with
  | nil => rfl
  | cons swaps rest => exact loose swaps held

/-- The regime under which texts are split. -/
abbrev splitting (hidden : Expr → Bool) (tree : Multiset Node) (mark : NodeId) : Regime :=
  .turning (fun _ => True) (fun _ => False)
    (fun e => e.isGrouped = true ∧ PathTraversal.strains e = false)
    (fun e => e.isGrouped = true ∧ Guarding.strains e = false) hidden tree mark

variable {hidden : Expr → Bool} {tree : Multiset Node} {mark : NodeId} {env : PassEnv}

theorem splitting_lawful (drawn : Drawn 0 mark tree) : (splitting hidden tree mark).Lawful :=
  Regime.turning_lawful drawn (fun _ _ _ _ => trivial)
    (fun _ _ h => ⟨h.1, (Bool.or_eq_false_iff.mp h.2).1⟩)
    (fun _ => survives_tame fun _ none => none.elim) fun _ none => none.elim

theorem notes_splitting :
    (splitting (fun _ => false) tree mark).Notes (Normalize.remedy env userInput) := by
  refine Normalize.notes (fun _ => rfl) fun e above anchor next new imports stands found made => ?_
  refine Regime.fitsNear_turning stands found fun _ all mem => ?_
  have sound := (all.sound mem).1
  have firm : new.Firm fun _ => True :=
    normalized?_firm env.matcher userInput trivial sound next (new, imports) made
  have tame : Guarding.Tame (.expr new) :=
    normalized?_tame sound ((all.below mem).imp fun _ _ h => h.2) next (new, imports) made
  exact .of_replace ((Node.allExprs_of_sound firm.sound).and tame) (survives_tame fun _ _ => firm.strength)

end Normalize

/-! ## Guards -/

namespace Guarding

variable {hidden : Expr → Bool} {tree : Multiset Node} {mark : NodeId} {env : PassEnv}

/-- A guard that calls a method on its directory has one that can be called on. -/
theorem strong_of_parentAndChild? {e parent child : Expr} {ty : Ty} {variant : GuardVariant}
    (found : parentAndChild? .standard e = some (parent, child)) (grouped : e.isGrouped = true)
    (tame : strains e = false) (selected : GuardVariant.select? ty parent.ty = some variant)
    (calls : variant ≠ .fileInString) : parent.form.strength = 9 := by
  have directory : parent.ty.isDirectory = true := by
    unfold GuardVariant.select? at selected
    unfold Ty.isDirectory
    split at selected
    next both => rw [(Bool.and_eq_true_iff.mp both).2, Bool.true_or]
    next =>
      split at selected
      next =>
        cases selected
        exact (calls rfl).elim
      next =>
        split at selected
        next both => rw [(Bool.and_eq_true_iff.mp both).2, Bool.or_true]
        next => cases selected
  unfold parentAndChild? at found
  split at found
  next accepted =>
    split at found
    next args =>
      cases found
      have loose : parent.isLooseDirectory = false := by
        unfold strains at tame
        rwa [accepted, args, Bool.true_and] at tame
      unfold Expr.isLooseDirectory at loose
      rw [directory, Bool.true_and, decide_eq_false_iff_not] at loose
      exact Nat.le_antisymm parent.form.strength_le (Nat.le_of_not_lt loose)
    next => cases found
  next =>
    split at found
    next =>
      obtain ⟨receiver, isReceiver, found⟩ := Option.bind_eq_some_iff.mp found
      obtain ⟨arg, -, found⟩ := Option.bind_eq_some_iff.mp found
      cases found
      exact Expr.strength_of_receiver grouped isReceiver
    next => cases found

theorem notes_grouping {settings : PathSettings} {children : List NodeId}
    (matcher : env.matcher = .standard) :
    (Regime.grouping strains (newRead mark) tree mark).Notes (Guarding.remedy env settings children) := by
  refine Guarding.notes newRead_covers
    fun e above anchor parent child next tainted directory kind stands found construction _ made => ?_
  refine Regime.fitsNear_turning stands found fun _ all mem => ?_
  obtain ⟨sound, tame⟩ := all.sound mem
  have grouped : (Node.expr e).AllExprs (·.isGrouped = true) := Node.allExprs_of_sound sound
  rw [matcher] at construction
  rcases fixFor?_cases made with ⟨v, variant, -, rfl, rfl, selected, rfl⟩ | ⟨-, rfl, rfl, ending, rfl⟩
  · constructor
    case written => exact fun s none => (List.not_mem_nil none).elim
    case replaces => exact fun _ _ kind => nomatch kind
    case extracts => exact fun tag => nomatch tag
    case guards =>
      rintro variant message parent thrown next' kind directory
      cases kind
      cases directory
      have guard : (mkGuard variant thrown settings.guardMessage (v.mkRead none next).1 parent).Gives
          (Stmt.Sound fun _ => True) :=
        mkGuard_sound (Variable.mkRead_firm _ v none next)
          (sound.child (mem_of_parentAndChild? construction))
          (strong_of_parentAndChild? construction (grouped.mem Node.mem_subtree_self) tame selected)
          trivial _
      exact Node.allExprs_of_sound (guard next')
  · constructor
    case written => exact fun s none => (List.not_mem_nil none).elim
    case replaces => exact fun _ _ kind => nomatch kind
    case guards => exact fun _ _ _ _ _ kind => nomatch kind
    case extracts =>
      refine fun _ => ⟨grouped, fun _ none => none, fun name next => ⟨rfl, ?_⟩⟩
      exact survives_grouped fun e _ => e.form.strength_le

end Guarding

/-! ## The whole -/

theorem treats_grouping {env : PassEnv} {settings : PathSettings} {hidden : Expr → Bool}
    {tree : Multiset Node} {mark : NodeId} (matcher : env.matcher = .standard) :
    Treats (.grouping strains hidden tree mark)
      (fun block => PartialPath.completing block hidden tree mark)
      (.grouping Guarding.strains hidden tree mark) (Normalize.splitting hidden tree mark) env
      settings where
  lawful_complete _ _ drawn := PartialPath.completing_lawful drawn
  lawful_split _ _ _ drawn := Normalize.splitting_lawful drawn
  lawful _ _ _ drawn := Regime.grouping_lawful drawn
  completes _ _ drawn := PartialPath.notes_completing matcher drawn
  splits _ _ _ := Normalize.notes_splitting
  guards _ _ _ _ := Guarding.notes_grouping matcher
  completed block above out _ became _ all := by
    have roomy := became Node.mem_subtree_self (all.imp fun _ _ h => h.1)
    exact roomy.imp fun _ _ => PartialPath.Roomy.isGrouped
  guarded _ _ _ _ _ _ _ first second _ all := second trivial (first trivial all)

end PathTraversal

section

variable {hidden : Expr → Bool} {tree : Multiset Node} {mark : NodeId} {env : PassEnv}

theorem Remediation.supports_grouping {r : Remediation} (matcher : env.matcher = .standard)
    (id : String) :
    (Regime.grouping r.strains (r.repeats mark) tree mark).Supports
      (fun block => PathTraversal.PartialPath.completing block (r.repeats mark) tree mark)
      (.grouping PathTraversal.Guarding.strains (r.repeats mark) tree mark)
      (PathTraversal.Normalize.splitting (r.repeats mark) tree mark) env id r := by
  cases r with
  | pathTraversal => exact ⟨rfl, fun _ => PathTraversal.treats_grouping matcher⟩
  | cookieSecure =>
    refine Cookie.notes (fun _ => rfl) (fun e above v anchor next stands new initialized found => ?_)
      fun e above arg anchor next stands found => ?_
    · exact Regime.fitsNear_grouping (.write_sound
        (List.forall_mem_singleton.mpr (Cookie.mkEnable_sound v next)) (.inl rfl))
    · exact Regime.fitsNear_grouping (.replace_firm (Expr.mkBool_firm _ true next))
  | secureRandom =>
    refine Random.notes (fun _ => rfl) fun e above anchor next stands found => ?_
    exact Regime.fitsNear_grouping (.replace_firm
      (Expr.mkCreate_firm (fun a none => (List.not_mem_nil none).elim) (fun _ _ => trivial) next))
  | secureRandomSeed =>
    exact Seed.notes fun stmt b above call stands seeds _ _ =>
      .write_sound (fun s none => (List.not_mem_nil none).elim) (.inr (.inr rfl))
  | xmlInputFactory =>
    exact fun _ => XmlInput.notes fun _ _ _ _ _ next _ _ _ =>
      Factory.fits_grouping (XmlInput.mkSettings_sound _ _ _ trivial next)
  | documentBuilderFactory =>
    exact fun _ => DocumentBuilder.notes fun _ _ _ _ _ _ _ next _ _ _ =>
      Factory.fits_grouping (DocumentBuilder.mkSettings_sound _ _ _ _ _ _ trivial trivial trivial
        (fun _ => trivial) next)
  | transformerFactory =>
    exact Transformer.notes fun _ _ _ _ _ next _ _ _ =>
      Factory.fits_grouping (Transformer.mkSettings_sound _ _ _ trivial next)
  | secureTempFile => exact TempFile.notes_grouping matcher
  | tempDirectory => exact TempDirectory.notes_grouping matcher
  | randomStringUtils =>
    refine RandomString.notes (fun _ => rfl) (fun e above method anchor next stands found => ?_) ?_ ?_
      fun _ _ _ _ _ _ _ _ =>
        .write_sound (fun s none => (List.not_mem_nil none).elim) (.inr (.inr rfl))
    · exact Regime.fitsNear_grouping (.replace_firm 
        (Expr.mkLocalCall_firm (fun a none => (List.not_mem_nil none).elim) next))
    · exact fun b above owner anchor call next owns _ _ =>
        .write_sound (RandomString.mkHead_sound owner trivial next) (.inr (.inl rfl))
    · exact fun b above owner anchor call utils next owns _ _ =>
        .write_sound (List.forall_mem_singleton.mpr (RandomString.mkMethod_sound owner trivial next))
          (.inl rfl)
  | privilegedCode => exact Privileged.notes id

end

/-- Every pass of the built-in catalog succeeds, and where every operand of a unit binds as
closely as the operator around it demands, it does so in what the pass makes of the unit, unless
the pass takes an expression apart that it cannot put together without parentheses. -/
theorem CatalogEntry.run_grouped [GlobCompiler] {entry : CatalogEntry}
    (builtin : entry ∈ Catalog.builtin.entries)
    {settings : RemediationSettings} (valid : settings.validate = .ok ()) (limits : FlowLimits)
    {unit : CompilationUnit} {next : NodeId} (distinct : ((Node.unit unit).subtree.map Node.id).Nodup)
    (old : ∀ n ∈ (Node.unit unit).subtree, n.id < next)
    (grouped : (Node.unit unit).AllExprs (·.isGrouped = true))
    (plain : (Node.unit unit).AllExprs (entry.remediation.strains · = false)) :
    ∃ out used, entry.run settings ⟨.standard, limits, .standard⟩ unit next = (.ok out, used) ∧
      (Node.unit out.unit).AllExprs (·.isGrouped = true) := by
  have drawn := Drawn.of_distinct distinct old
  have matcher : PassEnv.matcher ⟨.standard, limits, .standard⟩ = .standard := rfl
  obtain ⟨out, used, ran, -, changed, became, classes⟩ := run_mends rfl
    (Regime.grouping_lawful drawn) rfl builtin valid (Remediation.supports_grouping matcher entry.id)
  have all : (Node.unit changed).AllExprs (·.isGrouped = true) := became trivial (grouped.and plain)
  refine ⟨out, used, ran, Node.allExprs_of_children rfl fun c mem => ?_⟩
  refine Node.All.child all (?_ : c ∈ (Node.unit changed).children)
  have same : (Node.unit out.unit).children = (Node.unit changed).children := by
    show out.unit.classes.map Node.cls = changed.classes.map Node.cls
    rw [classes]
  exact same ▸ mem

section

attribute [local instance] GlobCompiler.standard

/-- A temporary file in a directory that is cast, with parentheses around the cast:
`void m(Object d) { File f = File.createTempFile("a", "b", ((File) d)); }` -/
theorem run_grouped_cast :
    let text (id : NodeId) (value : String) : Expr := ⟨id, .string, .literal (.string value)⟩
    let cast : Expr := ⟨11, .file, .cast "File" ⟨12, .object, .ident "d" none⟩⟩
    let create : Expr :=
      ⟨6, .file, .call (some ⟨7, .file, .ident "File" none⟩) "createTempFile"
        [text 8 "a", text 9 "b", ⟨10, .file, .parens cast⟩] (some Jdk.fileCreateTempFileIn)⟩
    let declare : Stmt := ⟨4, .declare ⟨[], "File", [⟨5, "f", .file, some create⟩]⟩⟩
    let method : Stmt :=
      ⟨2, .method ⟨[], some "void", "m", [⟨"Object", "d", .object⟩], []⟩ (some ⟨3, false, [declare]⟩)⟩
    let unit : CompilationUnit := ⟨0, none, [], [⟨1, ⟨[], "A", .known "A"⟩, ⟨13, false, [method]⟩⟩]⟩
    (Node.unit unit).AllExprs (·.isGrouped = true) ∧ ∀ entry ∈ Catalog.builtin.get? "secure-temp-file",
      (Node.unit unit).AllExprs (entry.remediation.strains · = false) ∧ ∃ out used,
        entry.run (.ofPreset .balanced) ⟨.standard, ⟨64, 8⟩, .standard⟩ unit 14 = (.ok out, used) ∧
          (Node.unit out.unit).AllExprs (·.isGrouped = true) := by
  intro text cast create declare method unit
  have distinct : ((Node.unit unit).subtree.map Node.id).Nodup := by decide +kernel
  have old : ∀ n ∈ (Node.unit unit).subtree, n.id < 14 := by decide +kernel
  have grouped : (Node.unit unit).AllExprs (·.isGrouped = true) := by decide +kernel
  refine ⟨grouped, fun entry found => ?_⟩
  obtain ⟨builtin, files⟩ : entry ∈ Catalog.builtin.entries ∧
      entry.remediation = .secureTempFile := by
    cases found
    exact ⟨by decide +kernel, rfl⟩
  have plain : (Node.unit unit).AllExprs (entry.remediation.strains · = false) := by
    rw [files]
    decide +kernel
  exact ⟨plain, CatalogEntry.run_grouped builtin
    (by decide +kernel : (RemediationSettings.ofPreset .balanced).validate = .ok ()) ⟨64, 8⟩ distinct old
    grouped plain⟩

end

end JavaMend
