import JavaMend.Proofs.RandomStrings.Turned

/-!
# Halfway through a block

The visit turns a tree block by block. Before it leaves a block, what the nodes in it have
become is `RandomString.Swept`: inner blocks are turned, and nothing else has changed. The
calls that stand in no inner block wait for the end of the visit of the block. They are the
same before and after (`RandomString.Swept.outermost_iff`), and when they have given way all
is turned (`RandomString.Swept.turned`).
-/

namespace JavaMend

namespace RandomString

/-- `out` is `n` after the visit of all the blocks in it: these are turned, and the calls
outside of them still stand as they did. -/
inductive Swept (mark : NodeId) : List Node → Node → Node → Prop where
  | expr {above : List Node} (e : Expr) : Swept mark above (.expr e) (.expr e)
  | around {above : List Node} {n out : Node} (open_ : n.block? = none) (plain : n.expr? = none)
      (label : out.label = n.label)
      (new : out = n ∨ mark ≤ out.id ∧ turning.Acts (turning.place above) n)
      (length : n.children.length = out.children.length)
      (children : ∀ c c', (c, c') ∈ n.children.zip out.children → Swept mark (n :: above) c c') :
      Swept mark above n out
  | block {above : List Node} {b out : Block} (turned : Turned mark above (.block b) (.block out)) :
      Swept mark above (.block b) (.block out)

variable {mark : NodeId} {above : List Node} {n n' out : Node} {p : Option (ClassHead × Block)}
  {e : Expr} {waits : NodeId → Prop} {acted : Prop}

/-! ## Calls outside of inner blocks -/

/-- What gives way outside of all blocks gives way for the sake of one and the same class. -/
theorem outermost_iff : turning.Outermost e p n ↔ n = .expr e ∧ turning.gives p e = true ∨
    turning.isGiven p n = false ∧ n.block? = none ∧ n.class? = none ∧
      ∃ c ∈ n.children, turning.Outermost e p c := by
  constructor
  · intro h
    cases h with
    | here gives => exact .inl ⟨rfl, gives⟩
    | @under _ _ c other open_ mem inner =>
      have noClass : n.class? = none := by
        cases isClass : n.class? with
        | none => rfl
        | some owner =>
          obtain ⟨head, body⟩ := owner
          rw [Node.children_of_class isClass] at mem
          cases List.mem_singleton.mp mem
          cases inner with
          | under _ open_ => cases open_
      rw [inside_of_noClass noClass] at inner
      exact .inr ⟨other, open_, noClass, c, mem, inner⟩
  · rintro (⟨rfl, gives⟩ | ⟨other, open_, noClass, c, mem, inner⟩)
    · exact .here gives
    · exact .under other open_ mem (by rwa [inside_of_noClass noClass])

/-- Nothing gives way outside of all blocks in a block. -/
theorem not_outermost_block {b : Block} : ¬ turning.Outermost e p (.block b) := by
  rw [outermost_iff]
  rintro (⟨at_, -⟩ | ⟨-, open_, -⟩)
  · cases at_
  · cases open_

theorem expr?_of_label (label : out.label = n.label) (plain : n.expr? = none) : out.expr? = none := by
  cases n <;> cases out <;> first | rfl | cases label | cases plain

theorem block?_of_label (label : out.label = n.label) (open_ : n.block? = none) : out.block? = none := by
  cases n <;> cases out <;> first | rfl | cases label | cases open_

theorem isGiven_of_plain (plain : n.expr? = none) : turning.isGiven p n = false := by
  unfold Rewriting.isGiven
  rw [plain]
  rfl

namespace Swept

theorem sameSort (h : Swept mark above n n') : Node.SameSort n n' := by
  cases h with
  | expr => rfl
  | around _ _ label => exact Node.sameSort_of_label label.symm
  | block => rfl

theorem new (h : Swept mark above n n') :
    n' = n ∨ mark ≤ n'.id ∧ turning.Acts (turning.place above) n := by
  cases h with
  | expr => exact .inl rfl
  | around _ _ _ new => exact new
  | block turned => exact turned.new

/-- What became of a child. -/
theorem exists_pair {as bs : List Node} (length : as.length = bs.length) {b : Node} (mem : b ∈ bs) :
    ∃ a, (a, b) ∈ as.zip bs := by
  obtain ⟨i, hi, rfl⟩ := List.mem_iff_getElem.mp mem
  exact ⟨as[i], List.mem_iff_getElem.mpr ⟨i, by simpa using ⟨length ▸ hi, hi⟩, by simp⟩⟩

/-- The calls outside of inner blocks are the same ones. -/
theorem outermost_iff (h : Swept mark above n n') :
    turning.Outermost e p n' ↔ turning.Outermost e p n := by
  induction h with
  | expr => exact Iff.rfl
  | @around above n n' open_ plain label _ length children ih =>
    have plain' := expr?_of_label label plain
    have notSelf {m : Node} (plain : m.expr? = none) : ¬ (m = .expr e ∧ turning.gives p e = true) := by
      rintro ⟨rfl, -⟩
      cases plain
    rw [RandomString.outermost_iff, RandomString.outermost_iff (n := n), or_iff_right (notSelf plain'),
      or_iff_right (notSelf plain)]
    constructor
    · rintro ⟨-, -, noClass, c', mem, inner⟩
      obtain ⟨c, pair⟩ := exists_pair length mem
      exact ⟨isGiven_of_plain plain, open_, class?_eq_none_of_label label.symm noClass, c,
        (List.of_mem_zip pair).1, (ih c c' pair).mp inner⟩
    · rintro ⟨-, -, noClass, c, mem, inner⟩
      obtain ⟨c', pair⟩ : ∃ c', (c, c') ∈ n.children.zip n'.children := by
        obtain ⟨i, hi, rfl⟩ := List.mem_iff_getElem.mp mem
        exact ⟨n'.children[i], List.mem_iff_getElem.mpr ⟨i, by simpa using ⟨hi, length ▸ hi⟩, by simp⟩⟩
      exact ⟨isGiven_of_plain plain', block?_of_label label open_, class?_eq_none_of_label label noClass,
        c', (List.of_mem_zip pair).2, (ih c c' pair).mpr inner⟩
  | block => exact iff_of_false not_outermost_block not_outermost_block

/-- The body of a class is turned, and nothing gives way in it any more. -/
theorem body {head head' : ClassHead} {b : Block} {c' : Node} (h : Swept mark (n :: above) (.block b) c')
    (isClass : n.class? = some (head, b)) (isClass' : ∃ b', c' = .block b' ∧ n'.class? = some (head', b')) :
    Turned mark (n :: above) (.block b) c' ∧ ¬ turning.Acts (turning.inside p n') c' := by
  obtain ⟨b', rfl, isClass'⟩ := isClass'
  cases h with
  | around open_ => cases open_
  | block turned =>
    refine ⟨turned, ?_⟩
    rw [inside_of_class isClass']
    refine turned.not_acts ?_ ?_
    · show Lags (turning.inside (turning.place above) n) _
      rw [inside_of_class isClass]
      exact turned.lags
    · rintro _ ⟨⟩ some _ ⟨⟩
      exact turned.done (.inr some)

/-- The children of a class and of what became of it. -/
theorem class_cases {head : ClassHead} {b : Block} (label : n'.label = n.label)
    (isClass : n.class? = some (head, b)) {c c' : Node} (pair : (c, c') ∈ n.children.zip n'.children) :
    c = .block b ∧ ∃ b', c' = .block b' ∧ n'.class? = some (head, b') := by
  obtain ⟨b', isClass'⟩ := Node.class?_of_label label isClass
  rw [Node.children_of_class isClass, Node.children_of_class isClass'] at pair
  cases List.mem_singleton.mp pair
  exact ⟨rfl, b', rfl, isClass'⟩

/-- What gives way in a swept node gave way in the node. -/
theorem acts (h : Swept mark above n n')
    (noBody : ∀ parent up, above = parent :: up → parent.class? = none)
    (acts : turning.Acts (turning.place above) n') : turning.Acts (turning.place above) n := by
  induction h with
  | expr => exact acts
  | @around above n n' _ plain label _ length children ih =>
    cases acts with
    | here given => cases (isGiven_of_plain (expr?_of_label label plain)).symm.trans given
    | @under _ _ c' mem inner =>
      rw [kept_eq] at mem
      obtain ⟨c, pair⟩ := exists_pair length mem
      refine acts_of_child (List.of_mem_zip pair).1 ?_
      cases isClass : n.class? with
      | none =>
        rw [inside_of_noClass (class?_eq_none_of_label label isClass)] at inner
        have place : turning.place (n :: above) = turning.place above := inside_of_noClass isClass
        refine ih c c' pair ?_ (place.symm ▸ inner)
        rintro _ _ ⟨⟩
        exact isClass
      | some owner =>
        obtain ⟨rfl, at_⟩ := class_cases label isClass pair
        exact (((children _ _ pair).body isClass at_).2 inner).elim
  | block turned => exact (turned.rests noBody acts).elim

theorem underway_expr {waits : NodeId → Prop} (e : Expr)
    (noted : ∀ e', turning.Outermost e' p (.expr e) → waits e'.id) :
    turning.Underway mark acted waits p (.expr e) (.expr e) := by
  cases gives : turning.gives p e with
  | true => exact .waiting gives (noted e (.here gives))
  | false =>
    refine .around gives rfl (.inl rfl) ?_
    rw [kept_eq]
    refine List.forall₂_same.mpr fun c mem => ?_
    obtain ⟨sub, below, rfl⟩ := List.mem_map.mp mem
    rw [inside_of_noClass rfl]
    refine underway_expr sub fun e' inner => ⟨rfl, noted e' ?_⟩
    exact RandomString.outermost_iff.mpr (.inr ⟨gives, rfl, rfl, _, mem, inner⟩)
termination_by sizeOf e
decreasing_by exact Expr.sizeOf_lt_of_mem_children below

/-- If all the calls outside of inner blocks wait, the swept node is underway. -/
theorem underway (h : Swept mark above n n')
    (noBody : ∀ parent up, above = parent :: up → parent.class? = none)
    (noted : ∀ e, turning.Outermost e (turning.place above) n → waits e.id) :
    turning.Underway mark acted waits (turning.place above) n' n' := by
  induction h generalizing waits with
  | expr e => exact underway_expr e noted
  | @around above n n' open_ plain label _ length children ih =>
    refine .around (isGiven_of_plain (expr?_of_label label plain)) rfl (.inl rfl) ?_
    rw [kept_eq]
    refine List.forall₂_same.mpr fun c' mem => ?_
    obtain ⟨c, pair⟩ := exists_pair length mem
    cases isClass : n.class? with
    | none =>
      rw [inside_of_noClass (class?_eq_none_of_label label isClass)]
      have place : turning.place (n :: above) = turning.place above := inside_of_noClass isClass
      rw [← place]
      refine ih c c' pair ?_ fun e inner => ⟨block?_of_label label open_, noted e ?_⟩
      · rintro _ _ ⟨⟩
        exact isClass
      · rw [place] at inner
        exact RandomString.outermost_iff.mpr
          (.inr ⟨isGiven_of_plain plain, open_, isClass, c, (List.of_mem_zip pair).1, inner⟩)
    | some owner =>
      obtain ⟨rfl, at_⟩ := class_cases label isClass pair
      exact .self_of_not_acts (fun _ _ => rfl) ((children _ _ pair).body isClass at_).2
  | block turned => exact .self_of_not_acts (fun _ _ => rfl) (turned.rests noBody)

theorem turned_expr {above : List Node} {waits : NodeId → Prop} {e : Expr} {out : Node}
    (done : turning.Underway mark acted waits (turning.place above) (.expr e) out)
    (nothing : ∀ id, ¬ waits id) : Turned mark above (.expr e) out := by
  cases done with
  | waiting _ noted => exact (nothing _ noted).elim
  | given gives made _ late => exact .given gives made late
  | rebuilt other label new length children =>
    rw [kept_eq] at length children
    refine .around rfl other label new length fun c c' pair => ?_
    obtain ⟨sub, below, rfl⟩ := List.mem_map.mp (List.of_mem_zip pair).1
    exact turned_expr (children _ _ pair) fun id noted => nothing id noted.2
termination_by sizeOf e
decreasing_by exact Expr.sizeOf_lt_of_mem_children below

/-- When the calls outside of inner blocks have given way, the node is turned. -/
theorem turned (h : Swept mark above n n')
    (noBody : ∀ parent up, above = parent :: up → parent.class? = none)
    (done : turning.Underway mark acted waits (turning.place above) n' out)
    (nothing : ∀ id, ¬ waits id) : Turned mark above n out := by
  induction h generalizing out waits with
  | expr e => exact turned_expr done nothing
  | @around above n n' open_ plain label new length children ih =>
    cases done with
    | waiting => cases expr?_of_label label plain
    | given => cases expr?_of_label label plain
    | rebuilt _ label' new' length' children' =>
      rw [kept_eq] at length' children'
      refine .around open_ (isGiven_of_plain plain) (label'.trans label) ?_ (length.trans length') ?_
      · rcases new' with rfl | ⟨late, acts⟩
        · exact new
        · exact .inr ⟨late, (Swept.around open_ plain label new length children).acts noBody acts⟩
      · intro c c'' pair
        obtain ⟨i, hi, at_⟩ := List.mem_iff_getElem.mp pair
        rw [List.length_zip] at hi
        have hi₁ : i < n.children.length := lt_of_lt_of_le hi (Nat.min_le_left _ _)
        have hi₂ : i < n'.children.length := length ▸ hi₁
        have hi₃ : i < out.children.length := lt_of_lt_of_le hi (Nat.min_le_right _ _)
        rw [List.getElem_zip] at at_
        cases at_
        have pair₁ : (n.children[i], n'.children[i]) ∈ n.children.zip n'.children :=
          List.mem_iff_getElem.mpr ⟨i, by simpa using ⟨hi₁, hi₂⟩, by simp⟩
        have pair₂ : (n'.children[i], out.children[i]) ∈ n'.children.zip out.children :=
          List.mem_iff_getElem.mpr ⟨i, by simpa using ⟨hi₂, hi₃⟩, by simp⟩
        have underway := children' _ _ pair₂
        cases isClass : n.class? with
        | none =>
          rw [inside_of_noClass (class?_eq_none_of_label label isClass)] at underway
          have place : turning.place (n :: above) = turning.place above := inside_of_noClass isClass
          rw [← place] at underway
          refine ih _ _ pair₁ ?_ underway fun id noted => nothing id noted.2
          rintro _ _ ⟨⟩
          exact isClass
        | some owner =>
          obtain ⟨first, at_⟩ := class_cases label isClass pair₁
          have swept := children _ _ pair₁
          rw [first] at swept ⊢
          obtain ⟨turned, rests⟩ := swept.body isClass at_
          rw [underway.eq_of_not_acts rests]
          exact turned
  | block turned =>
    rw [done.eq_of_not_acts (turned.rests noBody)]
    exact turned

end Swept

end RandomString

end JavaMend
