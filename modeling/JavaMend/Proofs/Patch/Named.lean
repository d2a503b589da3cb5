import JavaMend.Proofs.Patch.Applied
import JavaMend.Proofs.Tree.Sound

/-!
# Names that are known

`Node.mentions` are the classes that a tree names, and a tree `NamesOnly` known ones if all of
them are known. What fixes make of trees names no others: an expression that is put in the
place of another one adds the classes that it names itself and, if it is the name of a type,
that one, since before a static member it would name it (`Expr.Placeable`).
-/

namespace JavaMend

variable {known other : String → Prop}

/-! ## Trees -/

namespace Node

/-- The classes that are named anywhere in a tree. -/
def mentions (n : Node) : List String := n.subtree.flatMap named

/-- All classes that the tree names are known. -/
def NamesOnly (known : String → Prop) (n : Node) : Prop := n.All fun m => ∀ fqn ∈ m.named, known fqn

variable {n c out : Node} {news : List Node}

theorem namesOnly_iff_mentions : n.NamesOnly known ↔ ∀ fqn ∈ n.mentions, known fqn := by
  unfold NamesOnly All mentions
  simp only [List.mem_flatMap, forall_exists_index, and_imp]
  exact ⟨fun h fqn m below named => h m below fqn named, fun h m below fqn => h fqn m below⟩

theorem namesOnly_iff :
    n.NamesOnly known ↔ (∀ fqn ∈ n.named, known fqn) ∧ ∀ c ∈ n.children, c.NamesOnly known :=
  all_iff

theorem NamesOnly.mono (h : n.NamesOnly known) (more : ∀ fqn, known fqn → other fqn) :
    n.NamesOnly other :=
  h.imp fun _ names fqn mem => more fqn (names fqn mem)

theorem NamesOnly.child (h : n.NamesOnly known) (mem : c ∈ n.children) : c.NamesOnly known :=
  All.child h mem

theorem NamesOnly.below (h : n.NamesOnly known) {m : Node} (mem : m ∈ n.subtree) :
    m.NamesOnly known :=
  fun k inside => h k (subtree_trans mem inside)

/-- What is sound where classes are known names no others. -/
theorem All.namesOnly (h : n.All (Sound known)) : n.NamesOnly known := h.imp fun _ => Sound.named

/-- Put in the place of the first node, the second names no class that is not known, where the
first did not name it. -/
def Qualifies (known : String → Prop) (c c' : Node) : Prop :=
  ∀ e', c' = expr e' → e'.isTypeName = true →
    (∃ e, c = expr e ∧ e.isTypeName = true ∧ e'.ty = e.ty) ∨ ∀ fqn ∈ e'.ty.fqn?, known fqn

/-- A node of the same label is the name of a type if the other one is. -/
theorem qualifies_of_label (label : out.label = n.label) : Qualifies known n out := by
  rintro e' rfl isName
  cases n with
  | expr e =>
    obtain ⟨ty, blank⟩ := Label.expr.inj label
    exact .inl ⟨e, rfl, (Expr.isTypeName_of_blank ty blank).symm.trans isName, ty⟩
  | _ => cases label

/-- A node with children is no name of a type. -/
theorem qualifies_of_children (c : Node) (compound : out.children ≠ []) : Qualifies known c out := by
  rintro ⟨id, ty, form⟩ rfl isName
  cases form with
  | ident name owner => exact (compound rfl).elim
  | _ => cases isName

/-- A node around other children names what it named, and what these qualify. -/
theorem named_of_children (label : out.label = n.label)
    (children : List.Forall₂ (Qualifies known) n.children out.children) :
    ∀ fqn ∈ out.named, fqn ∈ n.named ∨ known fqn := by
  intro fqn mem
  cases n with
  | expr e =>
    cases out with
    | expr e' =>
      obtain ⟨ty, blank⟩ := Label.expr.inj label
      obtain ⟨named, mem, at_⟩ := List.mem_filterMap.mp mem
      have operands : List.Forall₂ (fun c c' : Expr => Qualifies known (expr c) (expr c'))
          e.children e'.children :=
        List.forall₂_map_left_iff.mp (List.forall₂_map_right_iff.mp children)
      have added := Expr.namedTypes_of_children (fun ty => ∀ fqn ∈ ty.fqn?, known fqn) ty blank
        (operands.imp fun c c' qualifies isName => (qualifies c' rfl isName).imp_left
          fun ⟨_, same, wasName, ty⟩ => by cases same; exact ⟨wasName, ty⟩) named mem
      exact added.imp (fun mem => List.mem_filterMap.mpr ⟨named, mem, at_⟩) fun known => known fqn at_
    | _ => cases label
  | var v =>
    cases out with
    | var v' =>
      obtain ⟨-, ty⟩ := Label.var.inj label
      refine .inl ?_
      change fqn ∈ v'.ty.fqn?.toList at mem
      rwa [ty] at mem
    | _ => cases label
  | stmt s =>
    cases out with
    | stmt s' =>
      obtain ⟨id, form⟩ := s
      obtain ⟨id', form'⟩ := s'
      have blank := Label.stmt.inj label
      cases form' with
      | tryCatch resources' body' catches' finish' =>
        cases form <;> simp only [StmtForm.blank, reduceCtorEq] at blank
        next resources body catches finish =>
          injection blank with _ _ clauses
          have forget (clauses : List (CatchClause Variable Block)) :
              (clauses.flatMap fun clause => clause.types.filterMap Ty.fqn?) =
                (clauses.map (·.map (fun _ => ()) fun _ => ())).flatMap
                  fun clause => clause.types.filterMap Ty.fqn? := by
            rw [List.flatMap_map]
            rfl
          have mem : fqn ∈ catches'.flatMap fun clause => clause.types.filterMap Ty.fqn? := mem
          rw [forget, clauses, ← forget] at mem
          exact .inl mem
      | _ => cases mem
    | _ => cases label
  | _ => cases out <;> first | cases label | cases mem

/-- A tree that is rebuilt around children that name known classes only. -/
theorem NamesOnly.refilled (h : ∀ fqn ∈ n.named, known fqn) (refilled : n.Refilled out news)
    (children : List.Forall₂ (fun c c' => Qualifies known c c' ∧ c'.NamesOnly known) n.children news) :
    out.NamesOnly known := by
  rw [← refilled.children] at children
  refine namesOnly_iff.mpr ⟨fun fqn mem => ?_, fun c mem => ?_⟩
  · exact (named_of_children refilled.label (children.imp fun _ _ h => h.1) fqn mem).elim (h fqn)
      fun known => known
  · obtain ⟨c', -, -, names⟩ := exists_of_forall₂ children mem
    exact names

end Node

/-- All classes that the expression names are known. -/
abbrev Expr.NamesOnly (known : String → Prop) (e : Expr) : Prop := (Node.expr e).NamesOnly known

/-- All classes that the statement names are known. -/
abbrev Stmt.NamesOnly (known : String → Prop) (s : Stmt) : Prop := (Node.stmt s).NamesOnly known

/-- Wherever the expression is put, all classes that are named by it are known. -/
structure Expr.Placeable (known : String → Prop) (e : Expr) : Prop where
  names : e.NamesOnly known
  qualifier : e.isTypeName = true → ∀ fqn ∈ e.ty.fqn?, known fqn

theorem Expr.Placeable.mono {e : Expr} (h : e.Placeable known) (more : ∀ fqn, known fqn → other fqn) :
    e.Placeable other :=
  ⟨h.names.mono more, fun isName fqn mem => more fqn (h.qualifier isName fqn mem)⟩

theorem Expr.Firm.placeable {e : Expr} (h : e.Firm known) (compound : e.isTypeName = false) :
    e.Placeable known :=
  ⟨h.sound.namesOnly, fun isName => Bool.noConfusion (compound.symm.trans isName)⟩

/-! ## Makers -/

namespace Expr

variable {id : NodeId} {ty : Ty} {e c : Expr}

theorem namesOnly_iff : e.NamesOnly known ↔
    (∀ ty ∈ e.namedTypes, ∀ fqn ∈ ty.fqn?, known fqn) ∧ ∀ c ∈ e.children, c.NamesOnly known := by
  rw [NamesOnly, Node.namesOnly_iff]
  refine and_congr ⟨fun h ty mem fqn at_ => ?_, fun h fqn mem => ?_⟩ ⟨fun h c mem => ?_, fun h c mem => ?_⟩
  · exact h fqn (List.mem_filterMap.mpr ⟨ty, mem, at_⟩)
  · obtain ⟨ty, mem, at_⟩ := List.mem_filterMap.mp mem
    exact h ty mem fqn at_
  · exact h _ (List.mem_map_of_mem mem)
  · obtain ⟨operand, inside, rfl⟩ := List.mem_map.mp mem
    exact h operand inside

theorem NamesOnly.operand (h : e.NamesOnly known) (mem : c ∈ e.children) : c.NamesOnly known :=
  (namesOnly_iff.mp h).2 c mem

theorem NamesOnly.arg (h : e.NamesOnly known) (mem : c ∈ e.args) : c.NamesOnly known :=
  h.operand (mem_children_of_args mem)

theorem NamesOnly.receiver (h : e.NamesOnly known) (mem : c ∈ e.receiver?) : c.NamesOnly known := by
  obtain ⟨id, ty, form⟩ := e
  cases form with
  | call receiver name args method =>
    exact h.operand (List.mem_append_left _ (Option.mem_toList.mpr mem))
  | _ => cases mem

/-- A call on an object names what the object and the arguments name. -/
theorem mkCall_placeable {receiver : Expr} {method : MethodRef} {args : List Expr}
    (on : receiver.NamesOnly known) (all : ∀ a ∈ args, a.NamesOnly known)
    (onInstance : method.isStatic = false) : (mkCall receiver method args).Gives (Placeable known) := by
  intro next
  refine ⟨namesOnly_iff.mpr ⟨fun ty mem => ?_, List.forall_mem_cons.mpr ⟨on, all⟩⟩, fun no => nomatch no⟩
  change ty ∈ (if method.isStatic && receiver.isTypeName then [receiver.ty] else []) at mem
  rw [onInstance] at mem
  cases mem

theorem mkStaticCall_placeable {method : MethodRef} {args : List Expr}
    (all : ∀ a ∈ args, a.NamesOnly known) (owner : ∀ fqn ∈ method.owner.fqn?, known fqn) :
    (mkStaticCall method args).Gives (Placeable known) := by
  intro next
  refine ⟨namesOnly_iff.mpr ⟨fun ty mem => ?_, List.forall_mem_cons.mpr ⟨firm_ident.sound.namesOnly, all⟩⟩,
    fun no => nomatch no⟩
  change ty ∈ (if _ then [method.owner] else []) at mem
  split at mem
  · cases List.mem_singleton.mp mem
    exact owner
  · cases mem

theorem mkCreate_placeable {constructor : MethodRef} {args : List Expr}
    (all : ∀ a ∈ args, a.NamesOnly known) (owner : ∀ fqn ∈ constructor.owner.fqn?, known fqn) :
    (mkCreate constructor args).Gives (Placeable known) := by
  intro next
  refine ⟨namesOnly_iff.mpr ⟨fun ty mem => ?_, all⟩, fun no => nomatch no⟩
  cases List.mem_singleton.mp mem
  exact owner

theorem mkAdd_placeable {left right : Expr} (first : left.NamesOnly known)
    (second : right.NamesOnly known) : (mkAdd left right).Gives (Placeable known) := by
  intro next
  refine ⟨namesOnly_iff.mpr ⟨fun ty none => (List.not_mem_nil none).elim, ?_⟩, fun no => nomatch no⟩
  exact List.forall_mem_cons.mpr ⟨first, List.forall_mem_singleton.mpr second⟩

theorem mkNot_namesOnly {operand : Expr} (names : operand.NamesOnly known) :
    (mkNot operand).Gives (NamesOnly known) := fun _ =>
  namesOnly_iff.mpr ⟨fun _ none => (List.not_mem_nil none).elim, List.forall_mem_singleton.mpr names⟩

/-- A new read of a local, which could be the name of a type by chance. -/
theorem mkIdent_placeable {ty : Ty} (named : ∀ fqn ∈ ty.fqn?, known fqn) (name : String) :
    (mkIdent name ty).Gives (Placeable known) := fun _ => ⟨firm_ident.sound.namesOnly, fun _ => named⟩

/-- A copy names what the original names. -/
theorem freshCopy_namesOnly {e : Expr} (h : e.NamesOnly known) : e.freshCopy.Gives fun copy =>
    copy.NamesOnly known ∧ copy.ty = e.ty ∧ copy.form.map (fun _ => ()) = e.form.map fun _ => () := by
  rw [freshCopy_eq]
  refine (Fresh.Gives.mapM fun c hc => freshCopy_namesOnly (h.operand hc)).bind fun copies copied id => ?_
  have refilled := e.refilled_withChildren id copied.length_eq.symm
  have refilledNode : (Node.expr e).Refilled (.expr (e.withChildren id copies))
      ((e.withChildren id copies).children.map Node.expr) :=
    ⟨rfl, congrArg (Node.Label.expr e.ty) refilled.blank⟩
  refine ⟨.refilled (Node.namesOnly_iff.mp h).1 refilledNode ?_, rfl, refilled.blank⟩
  show List.Forall₂ _ (e.children.map Node.expr) ((e.withChildren id copies).form.children.map Node.expr)
  rw [refilled.children]
  refine List.forall₂_map_left_iff.mpr (List.forall₂_map_right_iff.mpr (copied.imp fun c c' h => ⟨?_, h.1⟩))
  rintro _ ⟨⟩ isName
  exact .inl ⟨c, rfl, (isTypeName_of_blank h.2.1 h.2.2).symm.trans isName, h.2.1⟩
termination_by sizeOf e
decreasing_by exact sizeOf_lt_of_mem_children hc

end Expr

theorem Block.namesOnly_iff {b : Block} :
    (Node.block b).NamesOnly known ↔ ∀ s ∈ b.stmts, s.NamesOnly known := by
  rw [Node.namesOnly_iff]
  refine ⟨fun h s mem => h.2 _ (List.mem_map_of_mem mem), fun h => ⟨fun _ none => ?_, fun c mem => ?_⟩⟩
  · exact (List.not_mem_nil none).elim
  · obtain ⟨s, inside, rfl⟩ := List.mem_map.mp mem
    exact h s inside

theorem Stmt.mkDeclare_namesOnly {modifiers : List Modifier} {ty : Ty} {init : Expr}
    (value : init.NamesOnly known) (named : ∀ fqn ∈ ty.fqn?, known fqn) (name : String) :
    (mkDeclare modifiers ty name (some init)).Gives (NamesOnly known) := by
  refine fun next => Node.namesOnly_iff.mpr ⟨fun _ none => (List.not_mem_nil none).elim,
    List.forall_mem_singleton.mpr (Node.namesOnly_iff.mpr ⟨fun fqn mem => ?_, ?_⟩)⟩
  · exact named fqn (Option.mem_toList.mp mem)
  · exact List.forall_mem_singleton.mpr value

/-- A guard names what its operands name, and what it throws. -/
theorem mkGuard_namesOnly {variant : GuardVariant} {thrown : ThrownException} {tainted parent : Expr}
    (path : tainted.NamesOnly known) (directory : parent.NamesOnly known) (named : known thrown.fqn)
    (message : String) : (mkGuard variant thrown message tainted parent).Gives (Stmt.NamesOnly known) := by
  have noArgs : ∀ a ∈ ([] : List Expr), a.NamesOnly known := fun a none => (List.not_mem_nil none).elim
  have normalized {e : Expr} (h : e.NamesOnly known) :
      (GuardVariant.normalized e).Gives (Expr.Placeable known) := Expr.mkCall_placeable h noArgs rfl
  have normalizedFile {e : Expr} (h : e.NamesOnly known) :
      (GuardVariant.normalizedFile e).Gives (Expr.Placeable known) :=
    (Expr.mkCall_placeable h noArgs rfl).bind fun path h => normalized h.names
  have check {t p : Expr} (ht : t.NamesOnly known) (hp : p.NamesOnly known) :
      (variant.check t p).Gives (Expr.Placeable known) := by
    cases variant with
    | fileInFile =>
      refine (normalizedFile ht).bind fun left first => (normalizedFile hp).bind fun right second => ?_
      exact Expr.mkCall_placeable first.names (List.forall_mem_singleton.mpr second.names) rfl
    | fileInString =>
      refine (normalizedFile ht).bind fun left first => ?_
      exact Expr.mkCall_placeable first.names (List.forall_mem_singleton.mpr hp) rfl
    | pathInPath =>
      refine (normalized ht).bind fun left first => (normalized hp).bind fun right second => ?_
      exact Expr.mkCall_placeable first.names (List.forall_mem_singleton.mpr second.names) rfl
  refine (Expr.freshCopy_namesOnly path).bind fun t ht => ?_
  refine (Expr.freshCopy_namesOnly directory).bind fun p hp => ?_
  refine (check ht.1 hp.1).bind fun holds names => ?_
  refine (Expr.mkNot_namesOnly names.names).bind fun condition fails next => ?_
  have thrown : Stmt.Sound known (Stmt.mkThrowNew thrown.ty message next).1 := by
    refine Stmt.sound_throw (Expr.firm_create (List.forall_mem_singleton.mpr Expr.firm_literal.sound)
      ?_).sound
    rintro fqn ⟨⟩
    exact named
  refine Node.namesOnly_iff.mpr ⟨fun fqn none => (List.not_mem_nil none).elim, ?_⟩
  refine List.forall_mem_cons.mpr ⟨fails, List.forall_mem_singleton.mpr ?_⟩
  exact (Stmt.sound_block (Block.sound_iff.mpr (List.forall_mem_singleton.mpr thrown))).namesOnly

/-- The template of a guard asks for the exception that is thrown, if it needs an import. -/
theorem guardTemplate_imports {variant : GuardVariant} {thrown : ThrownException} {message : String}
    {template : Template} (h : guardTemplate variant thrown message = .ok template) :
    template.imports = if thrown.needsImport then [thrown.fqn] else [] := by
  unfold guardTemplate Template.parse at h
  cases params : Template.readParams (guardText variant thrown message) with
  | error e =>
    rw [params] at h
    cases h
  | ok params' =>
    rw [params] at h
    cases h
    rfl

/-! ## Replaced expressions -/

namespace Node

variable {n out : Node} {target new : Expr} {next used : NodeId}

/-- A node in which an expression was replaced. -/
theorem replaceExpr?_namesOnly (placeable : new.Placeable known) (h : n.NamesOnly known)
    (replaced : n.replaceExpr? target new next = (some out, used)) :
    out.NamesOnly known ∧ ∀ c, Qualifies known c out := by
  induction n using Node.inductionOn generalizing next used out with
  | step n ih =>
    rcases replaceExpr?_cases replaced with ⟨-, rfl, -⟩ | ⟨-, c, hc, start, id, rebuilt, -, inner, rfl, -⟩
    · refine ⟨placeable.names, fun c => ?_⟩
      rintro _ ⟨⟩ isName
      exact .inr (placeable.qualifier isName)
    · obtain ⟨names, qualifies⟩ := ih c hc (h.child hc) inner
      obtain ⟨front, found, back, split, -, refilled⟩ :=
        replaceChild_refilled id hc (replaceExpr?_sameSort inner)
      have same (nodes : List Node) (inside : ∀ m ∈ nodes, m ∈ n.children) :
          List.Forall₂ (fun c c' => Qualifies known c c' ∧ c'.NamesOnly known) nodes nodes :=
        List.forall₂_same.mpr fun m mem => ⟨qualifies_of_label rfl, h.child (inside m mem)⟩
      refine ⟨.refilled (namesOnly_iff.mp h).1 refilled ?_, ?_⟩
      · rw [split]
        refine List.rel_append (same front fun m mem => ?_) (.cons ⟨qualifies found, names⟩
          (same back fun m mem => ?_))
        · rw [split]
          exact List.mem_append_left _ mem
        · rw [split]
          exact List.mem_append_right _ (List.mem_cons_of_mem _ mem)
      · refine fun c => qualifies_of_children c ?_
        rw [refilled.children]
        exact List.append_ne_nil_of_right_ne_nil _ (List.cons_ne_nil _ _)

/-- If the first tree names known classes only, so does the second, also in its place. -/
def Renames (known : String → Prop) (c c' : Node) : Prop :=
  c.NamesOnly known → Qualifies known c c' ∧ c'.NamesOnly known

theorem renames_refilled {m m' : Node} {news : List Node} (refilled : m.Refilled m' news)
    (children : List.Forall₂ (Renames known) m.children news) : Renames known m m' := by
  refine fun names => ⟨qualifies_of_label refilled.label,
    .refilled (namesOnly_iff.mp names).1 refilled ?_⟩
  rw [List.forall₂_iff_zip] at children ⊢
  exact ⟨children.1, fun mem => children.2 mem (names.child (List.of_mem_zip mem).1)⟩

/-- A node in which alike expressions were replaced. -/
theorem replaceAlike?_renames (placeable : new.Placeable known)
    (replaced : n.replaceAlike? target new next = (some out, used)) : Renames known n out := by
  refine replaceAlike?_keeps (fun m names => ⟨qualifies_of_label rfl, names⟩)
    (fun _ _ _ => renames_refilled) (fun e _ names => ⟨?_, placeable.names⟩) replaced
  rintro _ ⟨⟩ isName
  exact .inr (placeable.qualifier isName)

end Node

namespace Stmt

variable {stmt changed : Stmt} {target new : Expr} {next used : NodeId}

theorem replaceExpr?_namesOnly (placeable : new.Placeable known) (h : stmt.NamesOnly known)
    (replaced : stmt.replaceExpr? target new next = (some changed, used)) : changed.NamesOnly known :=
  (Node.replaceExpr?_namesOnly placeable h (replaceExpr?_node replaced)).1

theorem replaceAlike?_namesOnly (placeable : new.Placeable known) (h : stmt.NamesOnly known)
    (replaced : stmt.replaceAlike? target new next = (some changed, used)) : changed.NamesOnly known :=
  (Node.replaceAlike?_renames placeable (replaceAlike?_node replaced) h).2

end Stmt

end JavaMend
