import JavaMend.Proofs.Patch.Rewriting
import JavaMend.Proofs.Remedy.Appended
import JavaMend.Remedy.RandomString

/-!
# Who draws random strings

The pass for `RandomStringUtils` looks at a unit in two ways. A call is replaced if the
nearest class around it has no generator yet (`RandomString.turning`). A class gets a
generator if none stands in its body and something that its members evaluate draws
(`RandomString.lacksGenerator`); that scan leaves out nested classes.

The two agree. A class that gets a generator has a call that is replaced
(`RandomString.acts_of_lacks`), and the other way round, where members stand in classes and
classes have only members (`RandomString.mem_drawsOf`).
-/

namespace JavaMend

/-- Classes hold members only, and methods are members of classes. -/
structure Node.Membered (n : Node) : Prop where
  members : n.All fun m => ∀ c ∈ m.class?, ∀ s ∈ c.2.stmts, s.isMember = true
  /-- A method stands in a block. -/
  methods : n.All fun m => m.block? = none → ∀ c ∈ m.children, c.method? = none
  /-- The block is the body of a class. -/
  bodies : n.AllBodies fun b => ∀ s ∈ b.stmts, (Node.stmt s).method? = none

namespace Node

variable {n c : Node}

theorem opensScope_eq (n : Node) : n.opensScope = (n.method?.isSome || n.class?.isSome) := by
  cases n with
  | stmt s =>
    obtain ⟨id, form⟩ := s
    cases form <;> rfl
  | _ => rfl

theorem mem_exprs_of_child {e : Expr} (mem : c ∈ n.children) (noMethod : c.method? = none)
    (noClass : c.class? = none) (inside : e ∈ c.exprs) : e ∈ n.exprs := by
  refine List.mem_append_right _ ?_
  rw [exprsBelow_eq]
  refine List.mem_flatMap.mpr ⟨c, mem, ?_⟩
  rw [opensScope_eq, noMethod, noClass]
  exact inside

end Node

namespace RandomString

/-! ## Calls that draw -/

/-- Does the expression draw a predictable string? -/
def draws (e : Expr) : Bool := CallMatcher.standard.acceptsAny e drawing

/-- Does the class of that body have a generator already? -/
def isDone (body : Block) : Bool := (loneField? body generatorField).isSome

/-- What the members of a class evaluate: the fields and the bodies of methods and
initializers. -/
def evaluated (body : Block) : List Node :=
  (body.stmts.filter (·.declaration?.isSome)).map Node.stmt ++
    (body.stmts.filter Path.isExecutable).flatMap fun member => (Node.stmt member).children

/-- The calls that draw in the members of a class. -/
def drawsOf (body : Block) : List Expr := ((evaluated body).flatMap Node.exprs).filter draws

/-- Does the class of that body get a generator? -/
def lacksGenerator (body : Block) : Bool := !isDone body && !(drawsOf body).isEmpty

theorem drawsIn_eq {path : Path} {body : Block} (value : path.value? = some (.block body)) :
    drawsIn .standard path body = drawsOf body := by
  unfold drawsIn drawsOf evaluated Path.executedBodies
  rw [value]
  have ends : (((body.stmts.filter Path.isExecutable).flatMap fun member =>
      (Node.stmt member).children.map fun c => (path.child (.stmt member)).child c).filterMap
        (·.value?)) =
      (body.stmts.filter Path.isExecutable).flatMap fun member => (Node.stmt member).children := by
    rw [List.filterMap_flatMap]
    congr 1
    funext member
    rw [List.filterMap_map]
    exact List.filterMap_some
  dsimp only
  rw [ends]
  rfl

/-- Whether an expression draws is read off its label. -/
theorem draws_of_label {e e' : Expr} (label : (Node.expr e).label = (Node.expr e').label) :
    draws e = draws e' :=
  CallMatcher.acceptsAny_congr (Expr.method?_of_label label) drawing

/-- A call of a method of another name does not draw. -/
theorem draws_of_name {e : Expr} {method : MethodRef} (isMethod : e.method? = some method)
    (name : drawing.all fun s => !Signature.NamePattern.accepts s.name method) : draws e = false := by
  unfold draws
  rw [CallMatcher.acceptsAny_of_method isMethod]
  refine List.any_eq_false.mpr fun s mem => ?_
  have refused : Signature.NamePattern.accepts s.name method = false :=
    (Bool.not_eq_true' _).mp (List.all_eq_true.mp name s mem)
  unfold Signature.accepts
  simp [refused]

/-! ## What gives way -/

/-- The call of the new method. -/
def Makes (new : Expr) : Prop :=
  ∃ owner next, new = (Expr.mkLocalCall (.static owner methodName [] .string) [] next).1

/-- A call that draws gives way to a call of the new method, unless the nearest class around
it has a generator. -/
def turning : Rewriting (Option (ClassHead × Block)) where
  outside := none
  inside p n := n.class?.or p
  gives p e := draws e && p.any (!isDone ·.2)
  drops _ _ := false
  makes _ new := Makes new
  refers := Fqn.secureRandom

variable {p : Option (ClassHead × Block)} {above : List Node} {n : Node} {e : Expr}
  {head : ClassHead} {body : Block}

/-- What is known of a place is the nearest class around it. -/
theorem place_eq (above : List Node) : turning.place above = above.findSome? Node.class? := by
  induction above with
  | nil => rfl
  | cons n above ih =>
    show n.class?.or (turning.place above) = _
    rw [ih, List.findSome?_cons]
    cases n.class? <;> rfl

theorem inside_of_class (isClass : n.class? = some (head, body)) :
    turning.inside p n = some (head, body) := by
  show n.class?.or p = _
  rw [isClass]
  rfl

theorem inside_of_noClass (noClass : n.class? = none) : turning.inside p n = p := by
  show n.class?.or p = _
  rw [noClass]
  rfl

theorem gives_iff : turning.gives p e = true ↔
    draws e = true ∧ ∃ c, p = some c ∧ isDone c.2 = false := by
  show (draws e && p.any (!isDone ·.2)) = true ↔ _
  cases p <;> simp

theorem kept_eq (p : Option (ClassHead × Block)) (n : Node) : turning.kept p n = n.children := by
  cases n with
  | block b =>
    show (b.stmts.filter fun _ => true).map Node.stmt = _
    rw [List.filter_true]
    rfl
  | _ => rfl

theorem acts_of_child {c : Node} (mem : c ∈ n.children) (h : turning.Acts (turning.inside p n) c) :
    turning.Acts p n :=
  .under (by rwa [kept_eq]) h

/-- What is evaluated in a node gives way there, unless the class around it is done. -/
theorem acts_of_mem_exprs (undone : isDone body = false) (noClass : n.class? = none)
    (mem : e ∈ n.exprs) (draws : draws e = true) : turning.Acts (some (head, body)) n := by
  induction n using Node.inductionOn with
  | step n ih =>
    rcases List.mem_append.mp mem with own | below
    · cases n with
      | expr e' =>
        cases List.mem_singleton.mp own
        exact .here (gives_iff.mpr ⟨draws, _, rfl, undone⟩)
      | _ => cases own
    · rw [Node.exprsBelow_eq] at below
      obtain ⟨c, hc, inside⟩ := List.mem_flatMap.mp below
      rw [Node.opensScope_eq] at inside
      split at inside
      · cases inside
      · rename_i open_
        rw [Bool.or_eq_true, not_or, Option.not_isSome_iff_eq_none, Option.not_isSome_iff_eq_none] at open_
        refine acts_of_child hc ?_
        rw [inside_of_noClass noClass]
        exact ih c hc open_.2 inside

/-- A class that gets a generator has a call that gives way. -/
theorem acts_of_lacks (lacks : lacksGenerator body = true) :
    turning.Acts (some (head, body)) (.block body) := by
  unfold lacksGenerator at lacks
  rw [Bool.and_eq_true, Bool.not_eq_true', Bool.not_eq_true', List.isEmpty_eq_false_iff] at lacks
  obtain ⟨undone, some⟩ := lacks
  obtain ⟨e, mem⟩ := List.exists_mem_of_ne_nil _ some
  obtain ⟨mem, draws⟩ := List.mem_filter.mp mem
  obtain ⟨n, place, inside⟩ := List.mem_flatMap.mp mem
  rcases List.mem_append.mp place with field | executed
  · obtain ⟨s, hs, rfl⟩ := List.mem_map.mp field
    obtain ⟨member, declares⟩ := List.mem_filter.mp hs
    refine acts_of_child (List.mem_map_of_mem member) ?_
    rw [inside_of_noClass rfl]
    refine acts_of_mem_exprs undone ?_ inside draws
    obtain ⟨id, form⟩ := s
    cases form <;> first | rfl | cases declares
  · obtain ⟨s, hs, below⟩ := List.mem_flatMap.mp executed
    obtain ⟨member, executable⟩ := List.mem_filter.mp hs
    refine acts_of_child (List.mem_map_of_mem member) (acts_of_child below ?_)
    obtain ⟨id, form⟩ := s
    cases form with
    | method head' body' =>
      obtain ⟨b, -, rfl⟩ := List.mem_map.mp below
      exact acts_of_mem_exprs undone rfl inside draws
    | block b =>
      cases List.mem_singleton.mp below
      exact acts_of_mem_exprs undone rfl inside draws
    | _ => cases executable

/-- What a member of a class evaluates. -/
theorem mem_evaluated {s : Stmt} (member : s ∈ body.stmts) (isMember : s.isMember = true)
    (noClass : (Node.stmt s).class? = none) (mem : e ∈ (Node.stmt s).exprs) :
    e ∈ (evaluated body).flatMap Node.exprs := by
  have executed (executable : Path.isExecutable s = true) :
      e ∈ (evaluated body).flatMap Node.exprs := by
    have below : e ∈ (Node.stmt s).exprsBelow := mem
    rw [Node.exprsBelow_eq] at below
    obtain ⟨c, hc, inside⟩ := List.mem_flatMap.mp below
    refine List.mem_flatMap.mpr ⟨c, List.mem_append_right _ (List.mem_flatMap.mpr
      ⟨s, List.mem_filter.mpr ⟨member, executable⟩, hc⟩), ?_⟩
    split at inside
    · cases inside
    · exact inside
  obtain ⟨id, form⟩ := s
  cases form with
  | declare decl =>
    refine List.mem_flatMap.mpr ⟨_, List.mem_append_left _ (List.mem_map_of_mem ?_), mem⟩
    exact List.mem_filter.mpr ⟨member, rfl⟩
  | method => exact executed rfl
  | block => exact executed rfl
  | cls => cases noClass
  | _ => cases isMember

/-- An expression is evaluated by a member of the nearest class around it. -/
theorem mem_evaluated_of_genuine {root : Node} (membered : root.Membered)
    (genuine : Path.GenuineList (n :: above)) (last : (n :: above).getLast? = some root)
    (noClass : n.class? = none) (noBody : ∀ parent up, above = parent :: up → parent.class? = none)
    (mem : e ∈ n.exprs) (place : turning.place above = some (head, body)) :
    e ∈ (evaluated body).flatMap Node.exprs := by
  induction above generalizing n with
  | nil => cases place
  | cons parent up ih =>
    have parentClass : parent.class? = none := noBody parent up rfl
    have place : turning.place up = some (head, body) := by
      rw [← place]
      exact (inside_of_noClass parentClass).symm
    rw [List.getLast?_cons_cons] at last
    have inTree (m : Node) (front back : List Node) (split : parent :: up = front ++ m :: back) :
        m ∈ root.subtree := by
      have genuine' : Path.GenuineList (m :: back) :=
        Path.genuineList_right (split ▸ genuine.2)
      have last' : (m :: back).getLast? = some root := by
        rw [← last, split, List.getLast?_append_of_ne_nil _ (List.cons_ne_nil _ _)]
      exact (Node.subtree_sublist_of_genuine genuine' last').subset Node.mem_subtree_self
    by_cases owned : ∃ owner up' c, up = owner :: up' ∧ owner.class? = some c
    · -- The node is a member of the class.
      obtain ⟨owner, up', ⟨head', body'⟩, rfl, isClass⟩ := owned
      have at_ : parent = .block body' := by
        have child := genuine.2.1
        rw [Node.children_of_class isClass] at child
        exact List.mem_singleton.mp child
      subst at_
      have here : turning.place (owner :: up') = some (head', body') := inside_of_class isClass
      cases here.symm.trans place
      obtain ⟨s, member, rfl⟩ := List.mem_map.mp genuine.1
      refine mem_evaluated member ?_ noClass mem
      exact membered.members owner (inTree owner [.block body] up' rfl) _ isClass s member
    · refine ih genuine.2 last parentClass (fun owner up' at_ => ?_) ?_ place
      · cases isClass : owner.class? with
        | none => rfl
        | some c => exact (owned ⟨owner, up', c, at_, isClass⟩).elim
      · refine Node.mem_exprs_of_child genuine.1 ?_ noClass mem
        have stands : parent ∈ root.subtree := inTree parent [] up rfl
        cases isBlock : parent.block? with
        | none => exact membered.methods parent stands isBlock n genuine.1
        | some b =>
          cases parent with
          | block b' =>
            obtain ⟨s, member, rfl⟩ := List.mem_map.mp genuine.1
            cases up with
            | nil => cases place
            | cons owner up' =>
              have noOwner : owner.class? = none := by
                cases isClass : owner.class? with
                | none => rfl
                | some c => exact (owned ⟨owner, up', c, rfl, isClass⟩).elim
              exact membered.bodies owner (inTree owner [.block b'] up' rfl) noOwner b' genuine.2.1
                s member
          | _ => cases isBlock

/-- A call that draws is one of those that the scan of the nearest class around it finds. -/
theorem mem_drawsOf {root : Node} (membered : root.Membered)
    (genuine : Path.GenuineList (.expr e :: above))
    (last : (Node.expr e :: above).getLast? = some root) (draws : draws e = true)
    (place : turning.place above = some (head, body)) : e ∈ drawsOf body := by
  refine List.mem_filter.mpr ⟨mem_evaluated_of_genuine membered genuine last rfl ?_
    List.mem_cons_self place, draws⟩
  rintro parent up rfl
  cases isClass : parent.class? with
  | none => rfl
  | some c =>
    have child := genuine.1
    rw [Node.children_of_class isClass] at child
    cases List.mem_singleton.mp child

end RandomString

end JavaMend
