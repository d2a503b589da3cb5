import JavaMend.Proofs.RandomStrings.Visiting
import JavaMend.Proofs.Remedy.Entries
import JavaMend.Proofs.Remedy.Success

/-!
# One class at a time

The pass makes no class and drops none: the classes of the output are those of the input, in
the same order, with the same heads and with bodies that were turned (`Turned.classes`).

What is evaluated in a class, nested classes left out, are its own expressions
(`Node.ownExprs`). Those of a turned node were made of those of the node, one by one
(`Turned.own`), but for the body of a class that gets members. Such a body draws once, in its
new method (`Turned.equipped`). So every class of the output has all that its new calls refer
to, and a second run has nothing left to do (`pass_selfContained`).
-/

namespace JavaMend

namespace Node

variable {n c root : Node} {e : Expr} {above : List Node} {head : ClassHead} {body : Block}

/-! ## Classes and what is their own -/

/-- The classes in a node, from the outside in and from left to right. -/
def classes (n : Node) : List (ClassHead × Block) := n.subtree.filterMap Node.class?

/-- The expressions in a node, but for those in the classes that are declared in it. -/
def ownExprs (n : Node) : List Expr :=
  n.expr?.toList ++
    n.children.attach.flatMap fun ⟨c, _⟩ => if c.class?.isSome then [] else c.ownExprs
termination_by sizeOf n
decreasing_by exact sizeOf_lt_of_mem_children ‹_›

theorem classes_eq (n : Node) : n.classes = n.class?.toList ++ n.children.flatMap classes := by
  unfold classes
  rw [subtree_eq, List.filterMap_cons, List.filterMap_flatMap]
  cases n.class? <;> rfl

theorem ownExprs_eq (n : Node) : n.ownExprs =
    n.expr?.toList ++ n.children.flatMap fun c => if c.class?.isSome then [] else c.ownExprs := by
  rw [ownExprs]
  simp

theorem mem_ownExprs : e ∈ n.ownExprs ↔ n = .expr e ∨
    ∃ c ∈ n.children, c.class? = none ∧ e ∈ c.ownExprs := by
  have here : e ∈ n.expr?.toList ↔ n = .expr e := by
    cases n with
    | expr e' => simp [expr?, eq_comm]
    | _ => simp [expr?]
  rw [ownExprs_eq, List.mem_append, here, List.mem_flatMap]
  refine or_congr_right (exists_congr fun c => and_congr_right fun _ => ?_)
  cases c.class? <;> simp

theorem mem_ownExprs_self : e ∈ (Node.expr e).ownExprs := mem_ownExprs.mpr (.inl rfl)

theorem classes_eq_nil (noClass : n.All fun m => m.class? = none) : n.classes = [] :=
  List.filterMap_eq_nil_iff.mpr noClass

/-- There are no classes in a declaration of variables. -/
theorem noClass_declaration {s : Stmt} {name : String} (names : s.declaredNames = [name]) :
    (Node.stmt s).All fun m => m.class? = none := by
  obtain ⟨id, form⟩ := s
  cases form with
  | declare decl =>
    refine all_iff.mpr ⟨rfl, fun c mem => ?_⟩
    obtain ⟨v, -, rfl⟩ := List.mem_map.mp mem
    refine all_iff.mpr ⟨rfl, fun c mem => ?_⟩
    obtain ⟨e, -, rfl⟩ := List.mem_map.mp mem
    exact noClass_expr e
  | _ => cases names

end Node

namespace RandomString

variable {mark : NodeId} {above : List Node} {n out root : Node} {e : Expr} {b b' : Block}
  {head : ClassHead} {body : Block} {p : Option (ClassHead × Block)}

/-! ## Paths -/

/-- There is a path to an own expression, through no other class. -/
theorem exists_path (mem : e ∈ n.ownExprs) (genuine : Path.GenuineList (n :: above))
    (noClass : n.class? = none) :
    ∃ up, Path.GenuineList (.expr e :: up) ∧ (Node.expr e :: up).getLast? = (n :: above).getLast? ∧
      turning.place up = turning.place above := by
  induction n using Node.inductionOn generalizing above with
  | step n ih =>
    rcases Node.mem_ownExprs.mp mem with rfl | ⟨c, child, noClass', below⟩
    · exact ⟨above, genuine, rfl, rfl⟩
    · have genuine' : Path.GenuineList (c :: n :: above) := ⟨child, genuine⟩
      obtain ⟨up, genuine', last, place⟩ := ih c child below genuine' noClass'
      exact ⟨up, genuine', last.trans List.getLast?_cons_cons,
        place.trans (inside_of_noClass noClass)⟩

/-- An expression is one of the own expressions of the nearest class around it. -/
theorem mem_own_of_path (genuine : Path.GenuineList (n :: above))
    (last : (n :: above).getLast? = some root) (noClass : n.class? = none)
    (mem : e ∈ n.ownExprs) (place : turning.place above = some (head, body)) :
    e ∈ (Node.block body).ownExprs ∧ (head, body) ∈ root.classes := by
  induction above generalizing n with
  | nil => cases place
  | cons parent up ih =>
    rw [List.getLast?_cons_cons] at last
    cases isClass : parent.class? with
    | none =>
      have own := Node.mem_ownExprs.mpr (.inr ⟨n, genuine.1, noClass, mem⟩)
      refine ih genuine.2 last isClass own ?_
      rw [← place]
      exact (inside_of_noClass isClass).symm
    | some c =>
      have here : turning.place (parent :: up) = some c := inside_of_class isClass
      cases here.symm.trans place
      have child := genuine.1
      rw [Node.children_of_class isClass] at child
      cases List.mem_singleton.mp child
      refine ⟨mem, List.mem_filterMap.mpr ⟨parent, ?_, isClass⟩⟩
      exact (Node.subtree_sublist_of_genuine genuine.2 last).subset Node.mem_subtree_self

/-! ## Own expressions of a turned node -/

theorem Turned.class?_eq_none (h : Turned mark above n out) (noClass : out.class? = none) :
    n.class? = none := by
  cases h with
  | given => rfl
  | around _ _ label => exact class?_eq_none_of_label label.symm noClass
  | block => rfl

/-- The expression was made of `old`, one of the own expressions of the node, at the end of a
path through no class. -/
structure Origin (mark : NodeId) (above : List Node) (n : Node) (e old : Expr) (up : List Node) :
    Prop where
  own : old ∈ n.ownExprs
  genuine : Path.GenuineList (.expr old :: up)
  last : (Node.expr old :: up).getLast? = (n :: above).getLast?
  place : turning.place up = turning.place above
  turned : Turned mark up (.expr old) (.expr e)

theorem Origin.outward {c : Node} {old : Expr} {up : List Node}
    (h : Origin mark (n :: above) c e old up) (child : c ∈ n.children)
    (noClass : n.class? = none) (noClass' : c.class? = none) :
    Origin mark above n e old up where
  own := Node.mem_ownExprs.mpr (.inr ⟨c, child, noClass', h.own⟩)
  genuine := h.genuine
  last := h.last.trans List.getLast?_cons_cons
  place := h.place.trans (inside_of_noClass noClass)
  turned := h.turned

/-- An own expression of a turned node was made of one of the node, unless the node is the body
of a class that gets members. -/
theorem Turned.own (h : Turned mark above n out) (genuine : Path.GenuineList (n :: above))
    (noClass : out.class? = none) (mem : e ∈ out.ownExprs) :
    (∃ b, n = .block b ∧ (newOwner? above b).isSome = true) ∨
      ∃ old up, Origin mark above n e old up := by
  induction h with
  | @given above e₀ new gives made late =>
    rcases Node.mem_ownExprs.mp mem with at_ | ⟨c, child, -⟩
    · cases at_
      exact .inr ⟨e₀, above, Node.mem_ownExprs_self, genuine, rfl, rfl, .given gives made late⟩
    · rw [children_of_makes made] at child
      cases child
  | @around above n out open_ other label new length children ih =>
    have plain := class?_eq_none_of_label label.symm noClass
    rcases Node.mem_ownExprs.mp mem with rfl | ⟨c', child, noClass', inside⟩
    · cases n with
      | expr e₀ =>
        exact .inr ⟨e₀, above, Node.mem_ownExprs_self, genuine, rfl, rfl,
          .around open_ other label new length children⟩
      | _ => cases label
    · obtain ⟨c, pair⟩ := Swept.exists_pair length child
      have mem' := (List.of_mem_zip pair).1
      rcases ih c c' pair ⟨mem', genuine⟩ noClass' inside with ⟨b, rfl, some⟩ | ⟨old, up, origin⟩
      · rw [newOwner?_of_noClass fun _ _ at_ => by cases at_; exact plain] at some
        cases some
      · exact .inr ⟨old, up,
          origin.outward mem' plain ((children c c' pair).class?_eq_none noClass')⟩
  | @block above b out front back pairs _ _ members before after stmts ih =>
    cases joins : newOwner? above b with
    | some => exact .inl ⟨b, rfl, joins ▸ rfl⟩
    | none =>
      unfold Members at members
      rw [joins] at members
      obtain ⟨rfl, rfl⟩ := members
      rw [List.nil_append, List.append_nil] at after
      rcases Node.mem_ownExprs.mp mem with at_ | ⟨c', child, noClass', inside⟩
      · cases at_
      · obtain ⟨s', mem', rfl⟩ := List.mem_map.mp child
        rw [after] at mem'
        obtain ⟨q, hq, rfl⟩ := List.mem_map.mp mem'
        have child' : Node.stmt q.1 ∈ (Node.block b).children :=
          List.mem_map_of_mem (List.mem_of_mem_filter (before ▸ List.mem_map_of_mem hq))
        rcases ih q hq ⟨child', genuine⟩ noClass' inside with ⟨b', at_, -⟩ | ⟨old, up, origin⟩
        · cases at_
        · exact .inr ⟨old, up,
            origin.outward child' rfl ((stmts q hq).class?_eq_none noClass')⟩

/-! ## Classes of a turned node -/

/-- The class of the tree became the other one. -/
structure Became (mark : NodeId) (root : Node) (c c' : ClassHead × Block) : Prop where
  head : c'.1 = c.1
  body : ∃ owner up, owner.class? = some c ∧ Path.GenuineList (.block c.2 :: owner :: up) ∧
    (Node.block c.2 :: owner :: up).getLast? = some root ∧
    Turned mark (owner :: up) (.block c.2) (.block c'.2)

theorem flatMap_filter {α β : Type} {f : α → List β} {keep : α → Bool} {as : List α}
    (nothing : ∀ a ∈ as, keep a = false → f a = []) :
    (as.filter keep).flatMap f = as.flatMap f := by
  induction as with
  | nil => rfl
  | cons a as ih =>
    have rest := ih fun b mem => nothing b (List.mem_cons_of_mem _ mem)
    cases kept : keep a with
    | true => rw [List.filter_cons_of_pos kept, List.flatMap_cons, List.flatMap_cons, rest]
    | false =>
      rw [List.filter_cons_of_neg (by simp [kept]), List.flatMap_cons, rest,
        nothing a List.mem_cons_self kept, List.nil_append]

/-- What is dropped is the declaration of the old length. -/
theorem names_dropped {s : Stmt} (distinct : (b.stmts.map (·.id)).Nodup) (mem : s ∈ b.stmts)
    (dropped : drops above b s = true) : s.declaredNames = [lengthField] := by
  unfold drops at dropped
  obtain ⟨lone, found, same⟩ := (Option.any_eq_true _ _).mp (Bool.and_eq_true_iff.mp dropped).2
  rw [loneField?_eq] at found
  cases List.inj_on_of_nodup_map distinct (List.mem_of_find?_eq_some found) mem (eq_of_beq same)
  have names : (s.declaredNames == [lengthField]) = true :=
    (List.find?_eq_some_iff_append.mp found).1
  exact eq_of_beq names

/-- The classes of a turned node are those of the node. -/
theorem Turned.classes (h : Turned mark above n out) (genuine : Path.GenuineList (n :: above))
    (last : (n :: above).getLast? = some root) (distinct : (root.subtree.map Node.id).Nodup) :
    List.Forall₂ (Became mark root) n.classes out.classes := by
  induction h with
  | @given above e new =>
    rw [Node.classes_eq_nil (Node.noClass_expr e), Node.classes_eq_nil (Node.noClass_expr new)]
    exact .nil
  | @around above n out _ _ label _ length children ih =>
    rw [Node.classes_eq, Node.classes_eq]
    have pairs : List.Forall₂ (fun c c' => (c, c') ∈ n.children.zip out.children) n.children
        out.children := List.forall₂_iff_zip.mpr ⟨length, id⟩
    refine List.rel_append ?_ (List.rel_flatMap pairs fun c c' pair => ?_)
    · cases isClass : n.class? with
      | none =>
        rw [class?_eq_none_of_label label isClass]
        exact .nil
      | some c =>
        obtain ⟨b', isClass'⟩ := Node.class?_of_label label (isClass : n.class? = some (c.1, c.2))
        rw [isClass']
        refine .cons ⟨rfl, n, above, isClass, ?_⟩ .nil
        have child : Node.block c.2 ∈ n.children := by
          rw [Node.children_of_class isClass]
          exact List.mem_cons_self
        refine ⟨⟨child, genuine⟩, List.getLast?_cons_cons.trans last, children _ _ ?_⟩
        rw [Node.children_of_class isClass, Node.children_of_class isClass']
        exact List.mem_cons_self
    · exact ih c c' pair ⟨(List.of_mem_zip pair).1, genuine⟩ (List.getLast?_cons_cons.trans last)
  | @block above b out front back pairs _ _ members before after stmts ih =>
    have below := (Node.subtree_sublist_of_genuine genuine last).map Node.id
    have ids : (b.stmts.map (·.id)).Nodup := Node.distinct_stmts (below.nodup distinct)
    have kept : (Node.block b).classes = pairs.flatMap fun q => (Node.stmt q.1).classes := by
      have stays : (b.stmts.filter (!drops above b ·)).flatMap (fun s => (Node.stmt s).classes) =
          b.stmts.flatMap fun s => (Node.stmt s).classes :=
        flatMap_filter fun s mem gone =>
          Node.classes_eq_nil (Node.noClass_declaration
            (names_dropped ids mem ((Bool.not_eq_false' _).mp gone)))
      rw [← before, List.flatMap_map] at stays
      rw [stays, Node.classes_eq]
      exact List.flatMap_map ..
    have made : (Node.block out).classes = pairs.flatMap fun q => (Node.stmt q.2).classes := by
      have none (s : Stmt) (mem : s ∈ front ++ back) : (Node.stmt s).classes = [] :=
        Node.classes_eq_nil (members.noClass mem)
      rw [Node.classes_eq]
      show (out.stmts.map Node.stmt).flatMap Node.classes = _
      rw [after, List.flatMap_map, List.flatMap_append, List.flatMap_append, List.flatMap_map,
        List.flatMap_eq_nil_iff.mpr fun s mem => none s (List.mem_append_left _ mem),
        List.flatMap_eq_nil_iff.mpr fun s mem => none s (List.mem_append_right _ mem),
        List.nil_append, List.append_nil]
    rw [kept, made]
    have each : List.Forall₂ (fun q q' => q = q' ∧ q ∈ pairs) pairs pairs :=
      List.forall₂_same.mpr fun q mem => ⟨rfl, mem⟩
    refine List.rel_flatMap each ?_
    rintro q _ ⟨rfl, mem⟩
    have child : Node.stmt q.1 ∈ (Node.block b).children :=
      List.mem_map_of_mem (List.mem_of_mem_filter (before ▸ List.mem_map_of_mem mem))
    exact ih q mem ⟨child, genuine⟩ (List.getLast?_cons_cons.trans last)

/-! ## New members -/

/-- The calls that draw among the own expressions of a node. -/
def ownDraws (n : Node) : List Expr := n.ownExprs.filter draws

theorem mem_ownDraws : e ∈ ownDraws n ↔ e ∈ n.ownExprs ∧ draws e = true := List.mem_filter

theorem ownDraws_expr (e : Expr) : ownDraws (.expr e) =
    (if draws e then [e] else []) ++ e.children.flatMap fun c => ownDraws (.expr c) := by
  unfold ownDraws
  rw [Node.ownExprs_eq, List.filter_append, List.filter_flatMap]
  refine congrArg₂ _ ?_ (List.flatMap_map ..)
  show [e].filter draws = _
  rw [List.filter_singleton]
  cases draws e <;> rfl

theorem ownDraws_eq_nil (quiet : draws e = false)
    (below : ∀ c ∈ e.children, ownDraws (.expr c) = []) : ownDraws (.expr e) = [] := by
  rw [ownDraws_expr, quiet, List.flatMap_eq_nil_iff.mpr below]
  rfl

/-- What draws in a node with one child draws in the child. -/
theorem ownDraws_only {c : Node} (plain : n.expr? = none) (children : n.children = [c])
    (noClass : c.class? = none) : ownDraws n = ownDraws c := by
  unfold ownDraws
  rw [Node.ownExprs_eq, plain, children, List.flatMap_singleton, noClass]
  rfl

/-- An expression that calls nothing does not draw. -/
theorem draws_of_noMethod (noMethod : e.method? = none) : draws e = false :=
  CallMatcher.acceptsAny_of_none noMethod

theorem ownDraws_leaf (leaf : e.children = []) (noMethod : e.method? = none) :
    ownDraws (.expr e) = [] :=
  ownDraws_eq_nil (draws_of_noMethod noMethod) fun c mem => by
    rw [leaf] at mem
    cases mem

/-- Neither making a generator nor warming it up draws. -/
theorem ownDraws_head (owner : Ty) (next : NodeId) {s : Stmt} (mem : s ∈ (mkHead owner next).1) :
    ownDraws (.stmt s) = [] := by
  have names : [Jdk.secureRandom, Jdk.secureRandomNextBytes].all fun method =>
      drawing.all fun s => !Signature.NamePattern.accepts s.name method := by
    decide +kernel
  have quiet {method : MethodRef} {e : Expr} (isMethod : e.method? = some method)
      (mem : method ∈ [Jdk.secureRandom, Jdk.secureRandomNextBytes]) : draws e = false :=
    draws_of_name isMethod (List.all_eq_true.mp names method mem)
  change s ∈ [_, _, _] at mem
  simp only [List.mem_cons, List.not_mem_nil, or_false] at mem
  rcases mem with rfl | rfl | rfl
  · rw [ownDraws_only rfl rfl rfl, ownDraws_only rfl rfl rfl]
    exact ownDraws_eq_nil (quiet rfl List.mem_cons_self) fun c none => nomatch none
  · rw [ownDraws_only rfl rfl rfl, ownDraws_only rfl rfl rfl]
    exact ownDraws_leaf rfl rfl
  · rw [ownDraws_only rfl rfl rfl, ownDraws_only rfl rfl rfl, ownDraws_only rfl rfl rfl]
    refine ownDraws_eq_nil (quiet rfl (List.mem_cons_of_mem _ List.mem_cons_self)) fun c mem => ?_
    change c ∈ [_, _] at mem
    simp only [List.mem_cons, List.not_mem_nil, or_false] at mem
    rcases mem with rfl | rfl
    · exact ownDraws_leaf rfl rfl
    · refine ownDraws_eq_nil (draws_of_noMethod rfl) fun c mem => ?_
      cases List.mem_singleton.mp mem
      exact ownDraws_leaf rfl rfl

theorem utilsFor_mem (calls : List Expr) :
    utilsFor calls ∈ [Fqn.legacyRandomStringUtils, Fqn.randomStringUtils] := by
  unfold utilsFor
  split
  · exact List.mem_cons_self
  · exact List.mem_cons_of_mem _ List.mem_cons_self

/-- The new method draws once. -/
theorem ownDraws_method (owner : Ty) {utils : String}
    (named : utils ∈ [Fqn.legacyRandomStringUtils, Fqn.randomStringUtils]) (next : NodeId) :
    ∃ call, ownDraws (.stmt (mkMethod owner utils next).1) = [call] := by
  have accepted : [Fqn.legacyRandomStringUtils, Fqn.randomStringUtils].all fun utils =>
      drawing.any (·.accepts (Jdk.randomStringUtilsRandom utils)) := by
    decide +kernel
  have draw {e : Expr} (isMethod : e.method? = some (Jdk.randomStringUtilsRandom utils)) :
      draws e = true :=
    (CallMatcher.acceptsAny_of_method isMethod).trans (List.all_eq_true.mp accepted utils named)
  rw [ownDraws_only rfl rfl rfl, ownDraws_only rfl rfl rfl, ownDraws_only rfl rfl rfl,
    ownDraws_expr, if_pos (draw rfl)]
  refine ⟨_, congrArg (_ :: ·) (List.flatMap_eq_nil_iff.mpr fun c mem => ?_)⟩
  change c ∈ [_, _, _, _, _, _, _, _] at mem
  simp only [List.mem_cons, List.not_mem_nil, or_false] at mem
  rcases mem with rfl | rfl | rfl | rfl | rfl | rfl | rfl | rfl <;> exact ownDraws_leaf rfl rfl

theorem mkMethod_form (owner : Ty) (utils : String) (next : NodeId) :
    ∃ head body, (mkMethod owner utils next).1.form = .method head (some body) ∧
      head.name = methodName ∧ head.params = [] :=
  ⟨_, _, rfl, rfl, rfl⟩

theorem mkMethod_late (owner : Ty) (utils : String) (next : NodeId) :
    next ≤ (mkMethod owner utils next).1.id := by
  obtain ⟨new, drawn, parts⟩ := mkMethod_spends (fun _ => false) owner utils next
  have made : Node.stmt (mkMethod owner utils next).1 ∈
      (Node.stmt (mkMethod owner utils next).1).parts fun _ => false := by
    rw [Node.parts_all]
    exact Multiset.mem_coe.mpr Node.mem_subtree_self
  exact (drawn.within _ (Multiset.mem_of_le (parts.trans (zero_add new).le) made)).1

/-! ## Bodies of classes -/

/-- The class of that body has a generator, and a new method that makes the call. -/
structure Equipped (mark : NodeId) (body : Block) (call : Expr) : Prop where
  generator : isDone body = true
  method : ∃ s ∈ body.stmts, mark ≤ s.id ∧ call ∈ (Node.stmt s).ownExprs ∧
    ∃ head b, s.form = .method head (some b) ∧ head.name = methodName ∧ head.params = []

theorem ownDraws_block (b : Block) : ownDraws (.block b) =
    b.stmts.flatMap fun s => if (Node.stmt s).class?.isSome then [] else ownDraws (.stmt s) := by
  unfold ownDraws
  rw [Node.ownExprs_eq, List.filter_append, List.filter_flatMap]
  refine (List.flatMap_map ..).trans (List.flatMap_congr fun s _ => ?_)
  split <;> rfl

section

variable {owner : Node} {up : List Node} {s s' : Stmt}

theorem newOwner?_isSome_of_lacks (isClass : owner.class? = some (head, b))
    (lacks : lacksGenerator b = true) : (newOwner? (owner :: up) b).isSome = true := by
  unfold newOwner? Path.bodyOwner? Path.parent?
  rw [if_pos lacks]
  simp [isClass]

theorem undone_of_lacks (lacks : lacksGenerator b = true) : isDone b = false :=
  (Bool.not_eq_true' _).mp (Bool.and_eq_true_iff.mp lacks).1

/-- What was made in a class without a generator does not draw. -/
theorem Origin.quiet {old : Expr} {up' : List Node} (h : Origin mark above n e old up')
    (place : turning.place above = some (head, body)) (undone : isDone body = false) :
    draws e = false := by
  by_contra noisy
  rw [Bool.not_eq_false] at noisy
  cases h.turned with
  | given _ made => cases (draws_of_makes made).symm.trans noisy
  | around _ other label =>
    have gives : turning.gives (turning.place up') old = true :=
      gives_iff.mpr ⟨(draws_of_label label).symm.trans noisy, _, h.place.trans place, undone⟩
    cases gives.symm.trans other

/-- Where a call without arguments is new, a call that draws has given way. -/
theorem Origin.given {old : Expr} {up' : List Node} (h : Origin mark above n e old up')
    (early : old.id < mark) (late : mark ≤ e.id) (leaf : e.children = []) :
    draws old = true ∧ ∃ c, turning.place above = some c ∧ isDone c.2 = false := by
  cases h.turned with
  | given gives =>
    rw [h.place] at gives
    exact gives_iff.mp gives
  | around _ other _ new length =>
    rcases new with same | ⟨-, acts⟩
    · cases same
      exact absurd early (Nat.not_lt.mpr late)
    · cases acts with
      | here given => cases given.symm.trans other
      | under mem =>
        have none : (Node.expr old).children = [] := by
          refine List.eq_nil_of_length_eq_zero (length.trans ?_)
          show (e.children.map Node.expr).length = 0
          rw [leaf]
          rfl
        rw [kept_eq, none] at mem
        cases mem

/-- In the body of a class without a generator nothing draws but what is new. -/
theorem Turned.quiet_member (h : Turned mark (.block b :: owner :: up) (.stmt s) (.stmt s'))
    (isClass : owner.class? = some (head, b)) (undone : isDone b = false)
    (genuine : Path.GenuineList (.stmt s :: .block b :: owner :: up))
    (noClass : (Node.stmt s').class? = none) : ownDraws (.stmt s') = [] := by
  refine List.eq_nil_iff_forall_not_mem.mpr fun e mem => ?_
  obtain ⟨own, noisy⟩ := mem_ownDraws.mp mem
  have place : turning.place (.block b :: owner :: up) = some (head, b) :=
    (inside_of_noClass rfl).trans (inside_of_class isClass)
  rcases h.own genuine noClass own with ⟨b', at_, -⟩ | ⟨old, up', origin⟩
  · cases at_
  · cases (origin.quiet place undone).symm.trans noisy

/-- The body of a class that gets members draws once, in its new method. -/
theorem Turned.equipped (h : Turned mark (owner :: up) (.block b) (.block b'))
    (isClass : owner.class? = some (head, b)) (genuine : Path.GenuineList (.block b :: owner :: up))
    (joins : (newOwner? (owner :: up) b).isSome = true) :
    ∃ call, ownDraws (.block b') = [call] ∧ Equipped mark b' call := by
  have undone := undone_of_lacks (newOwner?_isSome joins).1
  have done := h.done (.inr joins)
  cases h with
  | around open_ => cases open_
  | @block _ _ _ front back pairs _ _ members before after stmts =>
    obtain ⟨ty, at_⟩ := Option.isSome_iff_exists.mp joins
    unfold Members at members
    rw [at_] at members
    obtain ⟨⟨next, -, rfl⟩, next', late, rfl⟩ := members
    obtain ⟨call, made⟩ := ownDraws_method ty (utilsFor_mem (drawsOf b)) next'
    have new := late.trans (mkMethod_late ty (utilsFor (drawsOf b)) next')
    have form := mkMethod_form ty (utilsFor (drawsOf b)) next'
    generalize (mkMethod ty (utilsFor (drawsOf b)) next').1 = method at after made new form
    have plain : (Node.stmt method).class? = none := by
      obtain ⟨head, body, at_, -⟩ := form
      obtain ⟨id, form⟩ := method
      cases at_
      rfl
    have inFront : ∀ s ∈ (mkHead ty next).1,
        (if (Node.stmt s).class?.isSome then [] else ownDraws (.stmt s)) = [] := fun s mem => by
      rw [ownDraws_head ty next mem, ite_self]
    have between : ∀ s ∈ pairs.map (·.2),
        (if (Node.stmt s).class?.isSome then [] else ownDraws (.stmt s)) = [] := fun s mem => by
      obtain ⟨q, hq, rfl⟩ := List.mem_map.mp mem
      split
      · rfl
      next noClass =>
        rw [Option.not_isSome_iff_eq_none] at noClass
        have child : Node.stmt q.1 ∈ (Node.block b).children :=
          List.mem_map_of_mem (List.mem_of_mem_filter (before ▸ List.mem_map_of_mem hq))
        exact (stmts q hq).quiet_member isClass undone ⟨child, genuine⟩ noClass
    refine ⟨call, ?_, done, ?_⟩
    · rw [ownDraws_block, after, List.flatMap_append, List.flatMap_append, List.flatMap_singleton,
        List.flatMap_eq_nil_iff.mpr inFront, List.flatMap_eq_nil_iff.mpr between, plain,
        Option.isSome_none, if_neg Bool.false_ne_true, List.nil_append, List.nil_append]
      exact made
    · refine ⟨method, after ▸ List.mem_append_right _ List.mem_cons_self, new, ?_, form⟩
      exact (mem_ownDraws.mp (made ▸ List.mem_cons_self)).1

/-- What draws is found by the scan of the class that it stands in. -/
theorem lacks_of_ownDraws (membered : root.Membered) (isClass : owner.class? = some (head, b))
    (genuine : Path.GenuineList (.block b :: owner :: up))
    (last : (Node.block b :: owner :: up).getLast? = some root) (undone : isDone b = false)
    (mem : e ∈ ownDraws (.block b)) : lacksGenerator b = true := by
  obtain ⟨own, noisy⟩ := mem_ownDraws.mp mem
  obtain ⟨up', genuine', last', place⟩ := exists_path own genuine rfl
  have found := mem_drawsOf membered genuine' (last'.trans last) noisy
    (place.trans (inside_of_class isClass))
  unfold lacksGenerator
  rw [undone, List.isEmpty_eq_false_iff.mpr (List.ne_nil_of_mem found)]
  rfl

end

/-! ## The output of the pass -/

/-- A call of `generateRandomAlphanumericString()` that is not older than `mark`. -/
def IsNewCall (mark : NodeId) (e : Expr) : Prop :=
  mark ≤ e.id ∧ ∃ method, e.form = .call none methodName [] method

/-- Everything in a unit but the unit itself is a class or stands in one. -/
theorem place_of_unit {unit : CompilationUnit} (genuine : Path.GenuineList (n :: above))
    (last : (n :: above).getLast? = some (.unit unit)) :
    n = .unit unit ∨ ∃ c, n.class?.or (turning.place above) = some c := by
  induction above generalizing n with
  | nil =>
    cases last
    exact .inl rfl
  | cons parent up ih =>
    refine .inr ?_
    rw [List.getLast?_cons_cons] at last
    rcases ih genuine.2 last with rfl | ⟨c, around⟩
    · obtain ⟨c, -, rfl⟩ := List.mem_map.mp genuine.1
      exact ⟨_, rfl⟩
    · cases isClass : n.class? with
      | some c' => exact ⟨c', rfl⟩
      | none => exact ⟨c, around⟩

theorem classes_unit {unit unit' : CompilationUnit} (same : unit.classes = unit'.classes) :
    (Node.unit unit).classes = (Node.unit unit').classes := by
  rw [Node.classes_eq, Node.classes_eq]
  show [] ++ List.flatMap Node.classes (unit.classes.map Node.cls) = _
  rw [same]
  rfl

theorem acts_unit {unit unit' : CompilationUnit} (same : unit.classes = unit'.classes)
    (acts : turning.Acts p (.unit unit)) : turning.Acts p (.unit unit') := by
  cases acts with
  | here given => cases given
  | @under _ _ c mem inner =>
    refine .under ?_ inner
    rw [kept_eq] at mem ⊢
    show c ∈ unit'.classes.map Node.cls
    rwa [← same]

/-- The class around a new call got members. -/
theorem Became.equipped_of_newCall {c c' : ClassHead × Block} (h : Became mark root c c')
    (membered : root.Membered) (old : ∀ m ∈ root.subtree, m.id < mark) (isNew : IsNewCall mark e)
    (own : e ∈ (Node.block c'.2).ownExprs) : ∃ call, Equipped mark c'.2 call := by
  obtain ⟨owner, up, isClass, genuine, last, turned⟩ := h.body
  obtain ⟨late, method, form⟩ := isNew
  have leaf : e.children = [] := by
    obtain ⟨id, ty, form'⟩ := e
    cases form
    rfl
  rcases turned.own genuine rfl own with ⟨b, at_, joins⟩ | ⟨old', up', origin⟩
  · cases at_
    obtain ⟨call, -, equipped⟩ := turned.equipped isClass genuine joins
    exact ⟨call, equipped⟩
  · have early : old'.id < mark :=
      old (.expr old') ((Node.subtree_sublist_of_genuine origin.genuine
        (origin.last.trans last)).subset Node.mem_subtree_self)
    obtain ⟨noisy, c₀, place, undone⟩ := origin.given early late leaf
    cases place.symm.trans (inside_of_class isClass)
    have lacks := lacks_of_ownDraws membered isClass genuine last undone
      (mem_ownDraws.mpr ⟨origin.own, noisy⟩)
    obtain ⟨call, -, equipped⟩ := turned.equipped isClass genuine
      (newOwner?_isSome_of_lacks isClass lacks)
    exact ⟨call, equipped⟩

/-- What draws in a class that had no generator. -/
theorem Became.draws {c c' : ClassHead × Block} (h : Became mark root c c')
    (membered : root.Membered) (undone : isDone c.2 = false) :
    ownDraws (.block c.2) = [] ∧ ownDraws (.block c'.2) = [] ∨
      ∃ call, ownDraws (.block c'.2) = [call] ∧ Equipped mark c'.2 call := by
  obtain ⟨owner, up, isClass, genuine, last, turned⟩ := h.body
  cases lacks : lacksGenerator c.2 with
  | true => exact .inr (turned.equipped isClass genuine (newOwner?_isSome_of_lacks isClass lacks))
  | false =>
    refine .inl ⟨List.eq_nil_iff_forall_not_mem.mpr fun e mem => ?_,
      List.eq_nil_iff_forall_not_mem.mpr fun e mem => ?_⟩
    · cases (lacks_of_ownDraws membered isClass genuine last undone mem).symm.trans lacks
    · obtain ⟨own, noisy⟩ := mem_ownDraws.mp mem
      rcases turned.own genuine rfl own with ⟨b, at_, joins⟩ | ⟨old, up', origin⟩
      · cases at_
        cases (newOwner?_isSome joins).1.symm.trans lacks
      · cases (origin.quiet (inside_of_class isClass) undone).symm.trans noisy

/-- What the pass has made of a unit is whole, class by class. -/
structure SelfContained (mark : NodeId) (before after : CompilationUnit) : Prop where
  /-- The nearest class around a new call has a generator and the method. -/
  calls : ∀ e above, Path.GenuineList (.expr e :: above) →
    (Node.expr e :: above).getLast? = some (.unit after) → IsNewCall mark e →
    ∃ head body call, above.findSome? Node.class? = some (head, body) ∧ Equipped mark body call
  /-- A class that had no generator draws in its new method alone, or never did. -/
  classes : List.Forall₂ (fun c c' => c'.1 = c.1 ∧ (isDone c.2 = false →
      ownDraws (.block c.2) = [] ∧ ownDraws (.block c'.2) = [] ∨
      ∃ call, ownDraws (.block c'.2) = [call] ∧ Equipped mark c'.2 call))
    (Node.unit before).classes (Node.unit after).classes

/-- In a unit without shared nodes, whose classes hold members only and whose methods stand in
classes, the pass leaves every class whole, and a second run changes nothing. -/
theorem pass_selfContained (limits : FlowLimits) {unit : CompilationUnit} {next : NodeId}
    (distinct : ((Node.unit unit).subtree.map Node.id).Nodup)
    (old : ∀ n ∈ (Node.unit unit).subtree, n.id < next) (membered : (Node.unit unit).Membered) :
    ∃ out used, pass ⟨.standard, limits, .standard⟩ unit next = (.ok out, used) ∧
      SelfContained next unit out.unit ∧
      ∀ later, used ≤ later → ∃ again used',
        pass ⟨.standard, limits, .standard⟩ out.unit later = (.ok again, used') ∧
          again.unit = out.unit := by
  let env : PassEnv := ⟨.standard, limits, .standard⟩
  have succeeds : (pass env).Succeeds := Remedy.pass_succeeds rfl (remedy_succeeds env) ()
  obtain ⟨out, used, ran⟩ := succeeds unit next
  obtain ⟨changed, turned, classes, -⟩ := pass_turns rfl rfl distinct old ran
  have became := turned.classes trivial rfl distinct
  rw [classes_unit classes.symm] at became
  refine ⟨out, used, ran, ⟨fun e above genuine last isNew => ?_, ?_⟩, fun later enough => ?_⟩
  · rcases place_of_unit genuine last with at_ | ⟨⟨head, body⟩, around⟩
    · cases at_
    have place : turning.place above = some (head, body) := around
    obtain ⟨own, mem⟩ := mem_own_of_path genuine last rfl Node.mem_ownExprs_self place
    obtain ⟨c, -, h⟩ := exists_of_forall₂ became mem
    obtain ⟨call, equipped⟩ := h.equipped_of_newCall membered old isNew own
    exact ⟨head, body, call, place_eq above ▸ place, equipped⟩
  · exact became.imp fun c c' h => ⟨h.head, h.draws membered⟩
  · obtain ⟨again, used', ran'⟩ := succeeds out.unit later
    let compiler : GlobCompiler := .unlimited
    have made : Remediation.randomStringUtils.pass "" ⟨none, false, [], []⟩ env =
        .ok (pass env) := rfl
    obtain ⟨distinct', early⟩ := (Remediation.pass_drawn made rfl distinct old ran).subtree
    obtain ⟨changed', turned', -, same⟩ := pass_turns rfl rfl distinct'
      (fun n mem => (early n mem).trans_le enough) ran'
    have rests : ¬ turning.Acts none (.unit changed) :=
      turned.not_acts (fun _ none => nomatch none) fun b at_ => nomatch at_
    exact ⟨again, used', ran',
      same (Node.unit.inj (turned'.eq_of_not_acts fun acts => rests (acts_unit classes acts)))⟩

/-- `class A { String s = RandomStringUtils.randomAlphanumeric(8);
class B { String t() { return RandomStringUtils.randomAlphanumeric(4); } } }` -/
theorem pass_selfContained_nested :
    let method := Jdk.randomStringUtilsRandomAlphanumeric Fqn.randomStringUtils
    let draw (id : NodeId) (length : Int) : Expr :=
      ⟨id, .string, .call
        (some ⟨id + 1, .known Fqn.randomStringUtils, .ident "RandomStringUtils" none⟩)
        "randomAlphanumeric" [⟨id + 2, .int, .literal (.int length)⟩] (some method)⟩
    let field : Stmt := ⟨3, .declare ⟨[], "String", [⟨4, "s", .string, some (draw 5 8)⟩]⟩⟩
    let inner : Stmt := ⟨10, .method ⟨[], some "String", "t", [], []⟩
      (some ⟨11, false, [⟨12, .returnStmt (some (draw 13 4))⟩]⟩)⟩
    let nested : Stmt := ⟨8, .cls ⟨[], "B", .known "B"⟩ ⟨9, false, [inner]⟩⟩
    let unit : CompilationUnit :=
      ⟨0, none, [], [⟨1, ⟨[], "A", .known "A"⟩, ⟨2, false, [field, nested]⟩⟩]⟩
    let env : PassEnv := ⟨.standard, ⟨64, 8⟩, .standard⟩
    ∃ out used, pass env unit 16 = (.ok out, used) ∧ SelfContained 16 unit out.unit ∧
      ∀ later, used ≤ later → ∃ again used', pass env out.unit later = (.ok again, used') ∧
        again.unit = out.unit := by
  intro method draw field inner nested unit env
  have distinct : ((Node.unit unit).subtree.map Node.id).Nodup := by decide +kernel
  have old : ∀ n ∈ (Node.unit unit).subtree, n.id < 16 := by decide +kernel
  have membered : (Node.unit unit).Membered := by
    constructor <;> decide +kernel
  exact pass_selfContained ⟨64, 8⟩ distinct old membered

end RandomString

end JavaMend
