import JavaMend.Proofs.Tree.Fresh

/-!
# Sound trees

What a node has to be like for the tree to be code that means what the tree means:

- An operand that binds less closely than the operator around it is put in parentheses, since
  the printer adds none (`Expr.isGrouped`).
- The classes that are named are known (`Node.named`), so that imports can make them visible.
- In what is written into a tree there are no classes.

All three are read off a node and the labels of its children, so a copy is as sound as the
original. Makers that are sound are made of sound makers (`Fresh.Gives`).
-/

namespace JavaMend

/-- Each element of the second list is related to one of the first. -/
theorem exists_of_forall₂ {α β : Type} {R : α → β → Prop} {as : List α} {bs : List β}
    (all : List.Forall₂ R as bs) {b : β} (mem : b ∈ bs) : ∃ a ∈ as, R a b := by
  induction all with
  | nil => cases mem
  | cons related _ ih =>
    rcases List.mem_cons.mp mem with rfl | mem
    · exact ⟨_, List.mem_cons_self, related⟩
    · obtain ⟨a, inside, related⟩ := ih mem
      exact ⟨a, List.mem_cons_of_mem _ inside, related⟩

/-- Lists that are related element by element to one between them. -/
theorem forall₂_trans {α β γ : Type} {R : α → β → Prop} {S : β → γ → Prop} {T : α → γ → Prop}
    {as : List α} {bs : List β} {cs : List γ} (first : List.Forall₂ R as bs)
    (second : List.Forall₂ S bs cs) (trans : ∀ a b c, R a b → S b c → T a c) :
    List.Forall₂ T as cs := by
  induction first generalizing cs with
  | nil =>
    cases second
    exact .nil
  | cons here _ ih =>
    obtain ⟨c, rest, there, others, rfl⟩ := List.forall₂_cons_left_iff.mp second
    exact .cons (trans _ _ _ here there) (ih others)

/-! ## Properties of all nodes of a tree -/

/-- Every node of the tree has the property. -/
def Node.All (P : Node → Prop) (n : Node) : Prop := ∀ m ∈ n.subtree, P m

instance {P : Node → Prop} [DecidablePred P] (n : Node) : Decidable (n.All P) :=
  inferInstanceAs (Decidable (∀ m ∈ n.subtree, P m))

section

variable {P Q : Node → Prop} {n : Node}

theorem Node.all_iff : n.All P ↔ P n ∧ ∀ c ∈ n.children, c.All P := by
  unfold All
  rw [Node.subtree_eq n]
  simp only [List.forall_mem_cons, List.mem_flatMap, forall_exists_index, and_imp]
  exact and_congr_right fun _ => ⟨fun h c hc m hm => h m c hc hm, fun h m c hc hm => h c hc m hm⟩

theorem Node.All.self (h : n.All P) : P n := (Node.all_iff.mp h).1

theorem Node.All.child (h : n.All P) {c : Node} (mem : c ∈ n.children) : c.All P :=
  (Node.all_iff.mp h).2 c mem

theorem Node.All.imp (h : n.All P) (imp : ∀ m, P m → Q m) : n.All Q := fun m hm => imp m (h m hm)

end

/-! ## Grouping -/

/-- How closely the operator binds, among the binary ones. -/
def BinaryOp.precedence : BinaryOp → Nat
  | .or => 2
  | .and => 3
  | .eq | .ne => 4
  | .lt | .le | .gt | .ge => 5
  | .add | .sub => 6
  | .mul | .div | .rem => 7

namespace ExprForm

variable {ε : Type}

/-- How closely an expression of the form holds together without parentheses. -/
def strength : ExprForm ε → Nat
  | assign .. => 0
  | ternary .. => 1
  | binary op _ _ => op.precedence
  | unary .. | cast .. => 8
  | _ => 9

/-- How closely each operand has to hold together, in the order of `children`. -/
def bounds : ExprForm ε → List Nat
  | ident _ _ | literal _ => []
  | field _ _ => [9]
  | call receiver _ args _ => List.replicate receiver.toList.length 9 ++ List.replicate args.length 0
  | create _ args _ => List.replicate args.length 0
  | array _ _ | parens _ => [0]
  | binary op _ _ => [op.precedence, op.precedence + 1]
  | unary _ _ | cast _ _ => [8]
  | assign _ _ _ => [0, 0]
  | ternary _ _ _ => [0, 0, 0]

theorem strength_le (form : ExprForm ε) : form.strength ≤ 9 := by
  cases form with
  | binary op => cases op <;> simp [strength, BinaryOp.precedence]
  | _ => simp [strength]

theorem strength_map {δ : Type} (f : ε → δ) (form : ExprForm ε) :
    (form.map f).strength = form.strength := by
  cases form <;> rfl

theorem bounds_map {δ : Type} (f : ε → δ) (form : ExprForm ε) :
    (form.map f).bounds = form.bounds := by
  cases form with
  | call receiver name args method => cases receiver <;> simp [map, bounds]
  | create name args method => simp [map, bounds]
  | _ => rfl

theorem length_bounds (form : ExprForm ε) : form.bounds.length = form.children.length := by
  cases form with
  | call receiver name args method => cases receiver <;> simp [bounds, children]
  | create name args method => simp [bounds, children]
  | _ => rfl

end ExprForm

/-- Does every operand hold together as closely as the expression demands? -/
def Expr.isGrouped (e : Expr) : Bool :=
  (e.form.bounds.zip e.children).all fun (least, operand) => least ≤ operand.form.strength

theorem Expr.isGrouped_iff {e : Expr} : e.isGrouped = true ↔
    List.Forall₂ (fun least operand => least ≤ operand.form.strength) e.form.bounds e.children := by
  unfold isGrouped
  rw [List.forall₂_iff_zip, List.all_eq_true]
  constructor
  · exact fun h => ⟨e.form.length_bounds, fun mem => of_decide_eq_true (h _ mem)⟩
  · exact fun h p mem => decide_eq_true (h.2 mem)

/-! ## Names of classes -/

/-- Is the expression the simple name of its type, as before a static member? -/
def Expr.isTypeName (e : Expr) : Bool :=
  match e.form with
  | .ident name none => e.ty.simpleName? == some name
  | _ => false

/-- The types that an expression names itself: what it creates, and the qualifier of a static
call or of a field. -/
def Expr.namedTypes (e : Expr) : List Ty :=
  match e.form with
  | .create .. => [e.ty]
  | .call (some receiver) _ _ (some method) =>
    if method.isStatic && receiver.isTypeName then [receiver.ty] else []
  | .field target _ => if target.isTypeName then [target.ty] else []
  | _ => []

namespace Node

/-- The classes that a node names itself: those of an expression, the declared type of a
variable, and the types that a `try` catches. -/
def named : Node → List String
  | expr e => e.namedTypes.filterMap Ty.fqn?
  | var v => v.ty.fqn?.toList
  | stmt ⟨_, .tryCatch _ _ catches _⟩ => catches.flatMap fun clause => clause.types.filterMap Ty.fqn?
  | _ => []

/-- Is the node no expression, or a grouped one? -/
def isGrouped (n : Node) : Bool := n.expr?.all Expr.isGrouped

/-- The node may be part of what is written into a tree, if the classes that it names are
known. -/
structure Sound (known : String → Prop) (n : Node) : Prop where
  noClass : n.class? = none
  grouped : n.isGrouped = true
  named : ∀ fqn ∈ n.named, known fqn

end Node

/-- Every node of the expression is sound. -/
def Expr.Sound (known : String → Prop) (e : Expr) : Prop := (Node.expr e).All (Node.Sound known)

/-- Every node of the statement is sound. -/
def Stmt.Sound (known : String → Prop) (s : Stmt) : Prop := (Node.stmt s).All (Node.Sound known)

/-- Every node of the block is sound. -/
def Block.Sound (known : String → Prop) (b : Block) : Prop := (Node.block b).All (Node.Sound known)

/-- A sound expression that needs no parentheses anywhere. -/
structure Expr.Firm (known : String → Prop) (e : Expr) : Prop where
  sound : e.Sound known
  strength : e.form.strength = 9

section

variable {known : String → Prop}

/-- A class that is known may be named. -/
theorem Ty.named_known {fqn : String} (h : known fqn) : ∀ name ∈ (Ty.known fqn).fqn?, known name := by
  rintro name ⟨⟩
  exact h

theorem Expr.sound_of_children {e : Expr} (grouped : e.isGrouped = true)
    (named : ∀ ty ∈ e.namedTypes, ∀ fqn ∈ ty.fqn?, known fqn)
    (children : ∀ c ∈ e.children, c.Sound known) : e.Sound known := by
  unfold Sound
  rw [Node.all_iff]
  refine ⟨⟨rfl, grouped, fun fqn mem => ?_⟩, fun c hc => ?_⟩
  · obtain ⟨ty, mem, at_⟩ := List.mem_filterMap.mp mem
    exact named ty mem fqn at_
  · obtain ⟨e', he', rfl⟩ := List.mem_map.mp hc
    exact children e' he'

theorem Expr.sound_iff {e : Expr} : e.Sound known ↔
    e.isGrouped = true ∧ (∀ ty ∈ e.namedTypes, ∀ fqn ∈ ty.fqn?, known fqn) ∧
      ∀ c ∈ e.children, c.Sound known := by
  refine ⟨fun sound => ?_, fun ⟨grouped, named, children⟩ => sound_of_children grouped named children⟩
  unfold Sound at sound
  rw [Node.all_iff] at sound
  obtain ⟨⟨-, grouped, named⟩, children⟩ := sound
  refine ⟨grouped, fun ty mem fqn at_ => named fqn ?_, fun c hc => children _ ?_⟩
  · exact List.mem_filterMap.mpr ⟨ty, mem, at_⟩
  · exact List.mem_map_of_mem hc

theorem Block.sound_iff {b : Block} : b.Sound known ↔ ∀ s ∈ b.stmts, s.Sound known := by
  unfold Block.Sound
  rw [Node.all_iff]
  constructor
  · rintro ⟨-, children⟩ s mem
    exact children _ (List.mem_map_of_mem mem)
  · intro stmts
    refine ⟨⟨rfl, rfl, fun fqn none => (List.not_mem_nil none).elim⟩, fun c hc => ?_⟩
    obtain ⟨s, mem, rfl⟩ := List.mem_map.mp hc
    exact stmts s mem

/-- Operands that hold together more closely do not hurt. -/
theorem Expr.isGrouped_of_stronger {e e' : Expr} (grouped : e.isGrouped = true)
    (blank : e'.form.map (fun _ => ()) = e.form.map fun _ => ())
    (children : List.Forall₂ (fun c c' : Expr => c.form.strength ≤ c'.form.strength) e.children
      e'.children) : e'.isGrouped = true := by
  rw [isGrouped_iff] at grouped ⊢
  have bounds : e'.form.bounds = e.form.bounds := by
    rw [← ExprForm.bounds_map (fun _ => ()), blank, ExprForm.bounds_map]
  rw [bounds]
  exact forall₂_trans grouped children fun _ _ _ => Nat.le_trans

/-- Operands add only the names of types for which they are used as qualifiers. -/
theorem Expr.namedTypes_of_children {e e' : Expr} (added : Ty → Prop) (same : e'.ty = e.ty)
    (blank : e'.form.map (fun _ => ()) = e.form.map fun _ => ())
    (children : List.Forall₂ (fun c c' : Expr => c'.isTypeName = true →
      c.isTypeName = true ∧ c'.ty = c.ty ∨ added c'.ty) e.children e'.children) :
    ∀ ty ∈ e'.namedTypes, ty ∈ e.namedTypes ∨ added ty := by
  obtain ⟨id, ty, form⟩ := e
  obtain ⟨id', _, form'⟩ := e'
  cases same
  intro named mem
  cases form' with
  | create name args method =>
    cases form <;> simp [ExprForm.map] at blank
    exact .inl mem
  | call receiver' name' args' method' =>
    cases form <;> simp [ExprForm.map] at blank
    next receiver name args method =>
      obtain ⟨receivers, rfl, -, rfl⟩ := blank
      cases receiver' <;> cases receiver <;> cases method' <;> cases receivers <;>
        first | cases mem | skip
      next receiver' receiver method' =>
        obtain ⟨kept, -⟩ := List.forall₂_cons.mp children
        unfold namedTypes at mem ⊢
        dsimp only at mem ⊢
        split at mem
        next isName =>
          rw [Bool.and_eq_true] at isName
          cases List.mem_singleton.mp mem
          rcases kept isName.2 with ⟨wasName, ty⟩ | new
          · left
            rw [isName.1, wasName, ty]
            exact List.mem_singleton_self _
          · exact .inr new
        next => cases mem
  | field target' name' =>
    cases form <;> simp [ExprForm.map] at blank
    next target name =>
      obtain ⟨kept, -⟩ := List.forall₂_cons.mp children
      unfold namedTypes at mem ⊢
      dsimp only at mem ⊢
      split at mem
      next isName =>
        cases List.mem_singleton.mp mem
        rcases kept isName with ⟨wasName, ty⟩ | new
        · left
          rw [wasName, ty]
          exact List.mem_singleton_self _
        · exact .inr new
      next => cases mem
  | _ => cases mem

end

/-! ## Makers -/

namespace Fresh

variable {α β : Type} {P : α → Prop}

/-- Whatever the supply, what is made has the property. -/
def Gives (make : Fresh α) (P : α → Prop) : Prop := ∀ next, P (make next).1

theorem Gives.pure {a : α} (h : P a) : Gives (Pure.pure a : Fresh α) P := fun _ => h

theorem Gives.bind {make : Fresh α} {next : α → Fresh β} {Q : β → Prop} (h : Gives make P)
    (hnext : ∀ a, P a → Gives (next a) Q) : Gives (make >>= next) Q := fun supply =>
  hnext _ (h supply) _

/-- Makers that are run one after the other, each from what the one before made. -/
theorem Gives.foldlM {f : β → α → Fresh β} {Q : β → Prop} {items : List α}
    (h : ∀ a ∈ items, ∀ b, Q b → Gives (f b a) Q) {b : β} (start : Q b) :
    Gives (items.foldlM f b) Q := by
  induction items generalizing b with
  | nil => exact .pure start
  | cons a items ih =>
    rw [List.foldlM_cons]
    exact (h a List.mem_cons_self b start).bind fun b' made =>
      ih (fun a mem => h a (List.mem_cons_of_mem _ mem)) made

theorem Gives.mono {make : Fresh α} {Q : α → Prop} (h : Gives make P) (imp : ∀ a, P a → Q a) :
    Gives make Q := fun next => imp _ (h next)

theorem Gives.and {make : Fresh α} {Q : α → Prop} (h : Gives make P) (other : Gives make Q) :
    Gives make fun a => P a ∧ Q a := fun next => ⟨h next, other next⟩

theorem Gives.mapM {f : α → Fresh β} {R : α → β → Prop} {items : List α}
    (h : ∀ a ∈ items, Gives (f a) (R a)) : Gives (items.mapM f) (List.Forall₂ R items) := by
  induction items with
  | nil => exact .pure .nil
  | cons a items ih =>
    rw [List.mapM_cons]
    refine (h a List.mem_cons_self).bind fun b first => ?_
    refine (ih fun a mem => h a (List.mem_cons_of_mem _ mem)).bind fun bs rest => ?_
    exact .pure (.cons first rest)

theorem Gives.mapM_all {f : α → Fresh β} {Q : β → Prop} {items : List α}
    (h : ∀ a ∈ items, Gives (f a) Q) : Gives (items.mapM f) fun bs => ∀ b ∈ bs, Q b := by
  induction items with
  | nil => exact .pure fun _ none => (List.not_mem_nil none).elim
  | cons a items ih =>
    rw [List.mapM_cons]
    refine (h a List.mem_cons_self).bind fun b first => ?_
    refine (ih fun a mem => h a (List.mem_cons_of_mem _ mem)).bind fun bs rest => ?_
    exact .pure (List.forall_mem_cons.mpr ⟨first, rest⟩)

end Fresh

section

variable {known : String → Prop} {id : NodeId} {ty : Ty}

namespace Expr

/-- Arguments need no parentheses. -/
theorem all_args {args : List Expr} :
    ((List.replicate args.length 0).zip args).all
      (fun (least, operand) => decide (least ≤ operand.form.strength)) = true := by
  rw [List.all_eq_true]
  rintro ⟨least, operand⟩ mem
  rw [List.eq_of_mem_replicate (List.of_mem_zip mem).1]
  exact decide_eq_true (Nat.zero_le _)

theorem isGrouped_call {receiver : Option Expr} {name : String} {args : List Expr}
    {method : Option MethodRef} (strong : ∀ r ∈ receiver, r.form.strength = 9) :
    isGrouped ⟨id, ty, .call receiver name args method⟩ = true := by
  unfold isGrouped
  cases receiver with
  | none => exact all_args
  | some r =>
    show (decide (9 ≤ r.form.strength) && _) = true
    rw [strong r rfl]
    exact all_args

theorem isGrouped_create {name : String} {args : List Expr} {method : Option MethodRef} :
    isGrouped ⟨id, ty, .create name args method⟩ = true := all_args

theorem firm_ident {name : String} {owner : Option Ty} : Firm known ⟨id, ty, .ident name owner⟩ := by
  refine ⟨sound_of_children rfl ?_ ?_, rfl⟩ <;> (intro _ none; cases none)

theorem firm_literal {value : Literal} : Firm known ⟨id, ty, .literal value⟩ := by
  refine ⟨sound_of_children rfl ?_ ?_, rfl⟩ <;> (intro _ none; cases none)

theorem firm_call {receiver : Option Expr} {name : String} {args : List Expr} {method : Option MethodRef}
    (firm : ∀ r ∈ receiver, r.Firm known) (sound : ∀ a ∈ args, a.Sound known)
    (named : ∀ r ∈ receiver, ∀ m ∈ method, m.isStatic = true → r.isTypeName = true →
      ∀ fqn ∈ r.ty.fqn?, known fqn) :
    Firm known ⟨id, ty, .call receiver name args method⟩ := by
  refine ⟨sound_of_children (isGrouped_call fun r mem => (firm r mem).strength) ?_ ?_, rfl⟩
  · intro ty' mem
    cases receiver <;> cases method <;> first | cases mem | skip
    next r m =>
      unfold namedTypes at mem
      dsimp only at mem
      split at mem
      next isName =>
        rw [Bool.and_eq_true] at isName
        cases List.mem_singleton.mp mem
        exact named r rfl m rfl isName.1 isName.2
      next => cases mem
  · intro c mem
    rcases List.mem_append.mp mem with mem | mem
    · exact (firm c (Option.mem_toList.mp mem)).sound
    · exact sound c mem

theorem firm_create {name : String} {args : List Expr} {method : Option MethodRef}
    (sound : ∀ a ∈ args, a.Sound known) (named : ∀ fqn ∈ ty.fqn?, known fqn) :
    Firm known ⟨id, ty, .create name args method⟩ := by
  refine ⟨sound_of_children isGrouped_create ?_ sound, rfl⟩
  intro ty' mem
  cases List.mem_singleton.mp mem
  exact named

theorem firm_field {target : Expr} {name : String} (firm : target.Firm known)
    (named : target.isTypeName = true → ∀ fqn ∈ target.ty.fqn?, known fqn) :
    Firm known ⟨id, ty, .field target name⟩ := by
  refine ⟨sound_of_children ?_ ?_ ?_, rfl⟩
  · unfold isGrouped
    show (decide (9 ≤ target.form.strength) && true) = true
    rw [firm.strength]
    rfl
  · intro ty' mem
    unfold namedTypes at mem
    dsimp only at mem
    split at mem
    next isName =>
      cases List.mem_singleton.mp mem
      exact named isName
    next => cases mem
  · intro c mem
    cases List.mem_singleton.mp mem
    exact firm.sound

theorem firm_array {element : String} {size : Expr} (sound : size.Sound known) :
    Firm known ⟨id, ty, .array element size⟩ := by
  refine ⟨sound_of_children rfl ?_ ?_, rfl⟩
  · intro _ none
    cases none
  · intro c mem
    cases List.mem_singleton.mp mem
    exact sound

theorem sound_binary {op : BinaryOp} {left right : Expr} (soundLeft : left.Sound known)
    (soundRight : right.Sound known) (bindsLeft : op.precedence ≤ left.form.strength)
    (bindsRight : op.precedence < right.form.strength) :
    Sound known ⟨id, ty, .binary op left right⟩ := by
  refine sound_of_children ?_ ?_ ?_
  · unfold isGrouped
    show (decide (op.precedence ≤ left.form.strength) &&
      (decide (op.precedence + 1 ≤ right.form.strength) && true)) = true
    rw [decide_eq_true bindsLeft, decide_eq_true (Nat.succ_le_of_lt bindsRight)]
    rfl
  · intro _ none
    cases none
  · intro c mem
    rcases List.mem_cons.mp mem with rfl | mem
    · exact soundLeft
    · cases List.mem_singleton.mp mem
      exact soundRight

theorem sound_unary {op : UnaryOp} {operand : Expr} (sound : operand.Sound known)
    (binds : 8 ≤ operand.form.strength) : Sound known ⟨id, ty, .unary op operand⟩ := by
  refine sound_of_children ?_ ?_ ?_
  · unfold isGrouped
    show (decide (8 ≤ operand.form.strength) && true) = true
    rw [decide_eq_true binds]
    rfl
  · intro _ none
    cases none
  · intro c mem
    cases List.mem_singleton.mp mem
    exact sound

theorem sound_assign {op : Option BinaryOp} {target value : Expr} (soundTarget : target.Sound known)
    (soundValue : value.Sound known) : Sound known ⟨id, ty, .assign op target value⟩ := by
  refine sound_of_children rfl ?_ ?_
  · intro _ none
    cases none
  · intro c mem
    rcases List.mem_cons.mp mem with rfl | mem
    · exact soundTarget
    · cases List.mem_singleton.mp mem
      exact soundValue

theorem isTypeName_of_blank {c c' : Expr} (ty : c'.ty = c.ty)
    (blank : c'.form.map (fun _ => ()) = c.form.map fun _ => ()) : c'.isTypeName = c.isTypeName := by
  obtain ⟨_, _, form⟩ := c
  obtain ⟨_, _, form'⟩ := c'
  cases ty
  cases form <;> cases form' <;> simp [ExprForm.map] at blank <;> simp [isTypeName, blank]

/-- A copy is as sound as the original. -/
theorem freshCopy_gives {e : Expr} (sound : e.Sound known) : e.freshCopy.Gives fun copy =>
    copy.Sound known ∧ copy.ty = e.ty ∧ copy.form.map (fun _ => ()) = e.form.map fun _ => () := by
  rw [freshCopy_eq]
  obtain ⟨grouped, named, children⟩ := sound_iff.mp sound
  refine (Fresh.Gives.mapM fun c hc => freshCopy_gives (children c hc)).bind fun copies copied => ?_
  intro id
  have refilled := e.refilled_withChildren id copied.length_eq.symm
  have strength {c c' : Expr} (blank : c'.form.map (fun _ => ()) = c.form.map fun _ => ()) :
      c'.form.strength = c.form.strength := by
    rw [← ExprForm.strength_map (fun _ => ()), blank, ExprForm.strength_map]
  have operands : List.Forall₂ (fun c c' : Expr => c'.Sound known ∧ c'.ty = c.ty ∧
      c'.form.map (fun _ => ()) = c.form.map fun _ => ()) e.children
      (e.withChildren id copies).children := by
    show List.Forall₂ _ _ (e.withChildren id copies).form.children
    rw [refilled.children]
    exact copied
  have same : (e.withChildren id copies).ty = e.ty := rfl
  show (e.withChildren id copies).Sound known ∧ _
  refine ⟨sound_of_children ?_ (fun ty mem => named ty ?_) fun c mem => ?_, rfl, refilled.blank⟩
  · exact isGrouped_of_stronger grouped refilled.blank
      (operands.imp fun c c' h => Nat.le_of_eq (strength h.2.2).symm)
  · refine (namedTypes_of_children (fun _ => False) same refilled.blank
      (operands.imp fun c c' h isName => ?_) ty mem).resolve_right not_false
    exact .inl ⟨(isTypeName_of_blank h.2.1 h.2.2).symm.trans isName, h.2.1⟩
  · obtain ⟨c', -, copied⟩ := exists_of_forall₂ operands mem
    exact copied.1
termination_by sizeOf e
decreasing_by exact sizeOf_lt_of_mem_children hc

theorem Firm.copy {e : Expr} (firm : e.Firm known) : e.freshCopy.Gives (Firm known) := by
  refine (freshCopy_gives firm.sound).mono ?_
  rintro copy ⟨sound, -, blank⟩
  refine ⟨sound, ?_⟩
  rw [← ExprForm.strength_map (fun _ => ()), blank, ExprForm.strength_map, firm.strength]

section

variable (known)

theorem mkIdent_firm (name : String) (ty : Ty) : (mkIdent name ty).Gives (Firm known) :=
  fun _ => firm_ident

theorem mkString_firm (value : String) : (mkString value).Gives (Firm known) := fun _ => firm_literal

theorem mkInt_firm (value : Int) : (mkInt value).Gives (Firm known) := fun _ => firm_literal

theorem mkBool_firm (value : Bool) : (mkBool value).Gives (Firm known) := fun _ => firm_literal

theorem mkNull_firm : mkNull.Gives (Firm known) := fun _ => firm_literal

end

theorem mkCall_firm {receiver : Expr} {method : MethodRef} {args : List Expr}
    (firm : receiver.Firm known) (sound : ∀ a ∈ args, a.Sound known)
    (onInstance : method.isStatic = false) : (mkCall receiver method args).Gives (Firm known) := by
  intro next
  refine firm_call (fun r mem => ?_) sound fun r _ m mem isStatic => ?_
  · cases mem
    exact firm
  · cases mem
    rw [onInstance] at isStatic
    cases isStatic

theorem mkStaticCall_firm {method : MethodRef} {args : List Expr}
    (sound : ∀ a ∈ args, a.Sound known) (named : ∀ fqn ∈ method.owner.fqn?, known fqn) :
    (mkStaticCall method args).Gives (Firm known) := by
  intro next
  refine firm_call (fun r mem => ?_) sound fun r mem _ _ _ _ => ?_
  · cases mem
    exact firm_ident
  · cases mem
    exact named

theorem mkLocalCall_firm {method : MethodRef} {args : List Expr} (sound : ∀ a ∈ args, a.Sound known) :
    (mkLocalCall method args).Gives (Firm known) := fun _ =>
  firm_call (fun _ none => nomatch none) sound fun _ none => nomatch none

theorem mkStaticField_firm {owner : Ty} {name : String} (named : ∀ fqn ∈ owner.fqn?, known fqn) :
    (mkStaticField owner name ty).Gives (Firm known) := fun _ => firm_field firm_ident fun _ => named

theorem mkCreate_firm {constructor : MethodRef} {args : List Expr}
    (sound : ∀ a ∈ args, a.Sound known) (named : ∀ fqn ∈ constructor.owner.fqn?, known fqn) :
    (mkCreate constructor args).Gives (Firm known) := fun _ => firm_create sound named

theorem mkArray_firm {element : Ty} {size : Expr} (sound : size.Sound known) :
    (mkArray element size).Gives (Firm known) := fun _ => firm_array sound

theorem mkAssign_sound {target value : Expr} (soundTarget : target.Sound known)
    (soundValue : value.Sound known) : (mkAssign target value).Gives (Sound known) :=
  fun _ => sound_assign soundTarget soundValue

/-- A sum whose operands hold together. -/
theorem mkAdd_sound {left right : Expr} (soundLeft : left.Sound known) (soundRight : right.Sound known)
    (bindsLeft : 6 ≤ left.form.strength) (bindsRight : 7 ≤ right.form.strength) :
    (mkAdd left right).Gives fun sum => sum.Sound known ∧ sum.form.strength = 6 := fun _ =>
  ⟨sound_binary soundLeft soundRight bindsLeft bindsRight, rfl⟩

end Expr

namespace Stmt

/-- A statement that names nothing itself and is no class is as sound as its children. -/
theorem sound_of_children {form : StmtForm Expr Variable Stmt Block}
    (noClass : (Node.stmt ⟨id, form⟩).class? = none) (named : (Node.stmt ⟨id, form⟩).named = [])
    (children : ∀ c ∈ (Node.stmt ⟨id, form⟩).children, c.All (Node.Sound known)) :
    Sound known ⟨id, form⟩ := by
  refine Node.all_iff.mpr ⟨⟨noClass, rfl, fun fqn mem => ?_⟩, children⟩
  rw [named] at mem
  cases mem

theorem sound_expr {e : Expr} (sound : e.Sound known) : Sound known ⟨id, .expr e⟩ := by
  refine sound_of_children rfl rfl fun c mem => ?_
  cases List.mem_singleton.mp mem
  exact sound

theorem mkExpr_sound {e : Expr} (sound : e.Sound known) : (mkExpr e).Gives (Sound known) :=
  fun _ => sound_expr sound

theorem sound_throw {e : Expr} (sound : e.Sound known) : Sound known ⟨id, .throwStmt e⟩ := by
  refine sound_of_children rfl rfl fun c mem => ?_
  cases List.mem_singleton.mp mem
  exact sound

theorem sound_return {e : Expr} (sound : e.Sound known) : Sound known ⟨id, .returnStmt (some e)⟩ := by
  refine sound_of_children rfl rfl fun c mem => ?_
  cases List.mem_singleton.mp mem
  exact sound

theorem sound_block {b : Block} (sound : b.Sound known) : Sound known ⟨id, .block b⟩ := by
  refine sound_of_children rfl rfl fun c mem => ?_
  cases List.mem_singleton.mp mem
  exact sound

theorem sound_method {head : MethodHead} {b : Block} (sound : b.Sound known) :
    Sound known ⟨id, .method head (some b)⟩ := by
  refine sound_of_children rfl rfl fun c mem => ?_
  cases List.mem_singleton.mp mem
  exact sound

theorem sound_if {condition : Expr} {onTrue : Stmt} (sound : condition.Sound known)
    (branch : onTrue.Sound known) : Sound known ⟨id, .ifElse condition onTrue none⟩ := by
  refine sound_of_children rfl rfl fun c mem => ?_
  rcases List.mem_cons.mp mem with rfl | mem
  · exact sound
  · cases List.mem_singleton.mp mem
    exact branch

theorem sound_var {v : Variable} (init : ∀ e ∈ v.init, e.Sound known)
    (named : ∀ fqn ∈ v.ty.fqn?, known fqn) : (Node.var v).All (Node.Sound known) := by
  refine Node.all_iff.mpr ⟨⟨rfl, rfl, fun fqn mem => named fqn (Option.mem_toList.mp mem)⟩, ?_⟩
  intro c mem
  obtain ⟨e, he, rfl⟩ := List.mem_map.mp mem
  exact init e (Option.mem_toList.mp he)

theorem mkDeclare_sound {modifiers : List Modifier} {name : String} {init : Expr}
    (sound : init.Sound known) (named : ∀ fqn ∈ ty.fqn?, known fqn) :
    (mkDeclare modifiers ty name (some init)).Gives (Sound known) := by
  intro next
  refine sound_of_children rfl rfl fun c mem => ?_
  cases List.mem_singleton.mp mem
  refine sound_var (fun e mem => ?_) named
  cases mem
  exact sound

/-- A `try` with one clause. -/
theorem sound_try {body : Block} {clause : CatchClause Variable Block} (soundBody : body.Sound known)
    (parameter : (Node.var clause.parameter).All (Node.Sound known)) (handler : clause.body.Sound known)
    (named : ∀ ty ∈ clause.types, ∀ fqn ∈ ty.fqn?, known fqn) :
    Sound known ⟨id, .tryCatch [] body [clause] none⟩ := by
  refine Node.all_iff.mpr ⟨⟨rfl, rfl, fun fqn mem => ?_⟩, fun c mem => ?_⟩
  · obtain ⟨clause', at_, mem⟩ := List.mem_flatMap.mp mem
    cases List.mem_singleton.mp at_
    obtain ⟨ty, mem, at_⟩ := List.mem_filterMap.mp mem
    exact named ty mem fqn at_
  · simp only [Node.children, Stmt.children, List.flatMap_nil, List.nil_append,
      List.flatMap_singleton, CatchClause.children, Option.toList, List.map_nil, List.append_nil,
      List.cons_append, List.mem_cons, List.not_mem_nil, or_false] at mem
    rcases mem with rfl | rfl | rfl
    · exact soundBody
    · exact parameter
    · exact handler

end Stmt

end

end JavaMend
