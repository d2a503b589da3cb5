import JavaMend.Patch.Guard

/-!
# Where an exception is handled

Which exception a guard throws is decided on the way outward from the guard. The way ends at
the first boundary: a method, a class or an initializer (`Path.Boundary`). An `IOException` is
thrown exactly where the way comes out of the body of a `try` that catches it before it gets
to a boundary, or where the boundary is a method that declares it
(`Path.guardException_eq_ioException_iff`).
-/

namespace JavaMend

/-- An exception of class `thrown` can be assigned to the type. -/
def Ty.Takes (ty : Ty) (thrown : String) : Prop :=
  ∃ fqn, ty.fqn? = some fqn ∧ (Ty.known thrown).assignableTo fqn = true

theorem acceptsThrowable_iff {types : List Ty} {thrown : String} :
    acceptsThrowable types thrown = true ↔ ∃ ty ∈ types, ty.Takes thrown := by
  simp only [acceptsThrowable, List.any_eq_true, List.mem_filterMap, Ty.Takes]
  exact ⟨fun ⟨fqn, ⟨ty, mem, found⟩, fits⟩ => ⟨ty, mem, fqn, found, fits⟩,
    fun ⟨ty, mem, fqn, found, fits⟩ => ⟨fqn, ⟨ty, mem, found⟩, fits⟩⟩

namespace Path

/-- An outward list starts where no exception gets out undeclared: at a method, at a class, at
a `static` block, or at a block that is a member of a class. -/
inductive Boundary : List Node → Prop where
  | method {id : NodeId} {head : MethodHead} {body : Option Block} {above : List Node} :
      Boundary (.stmt ⟨id, .method head body⟩ :: above)
  | cls {n : Node} {c : ClassHead × Block} {above : List Node} (isClass : n.class? = some c) :
      Boundary (n :: above)
  | staticBlock {b : Block} {above : List Node} (isStatic : b.isStatic = true) :
      Boundary (.block b :: above)
  | instanceBlock {id : NodeId} {b body : Block} {owner : Node} {head : ClassHead}
      {above : List Node} (isClass : owner.class? = some (head, body))
      (member : ⟨id, .block b⟩ ∈ body.stmts) :
      Boundary (.block b :: .stmt ⟨id, .block b⟩ :: .block body :: owner :: above)

/-- The node is a `try` that catches exceptions of class `thrown`, and its child is its body. -/
inductive Catches (thrown : String) : Node → Node → Prop where
  | body {id : NodeId} {resources : List (Declaration Variable)} {b body : Block}
      {catches : List (CatchClause Variable Block)} {finish : Option Block}
      {clause : CatchClause Variable Block} {ty : Ty} (same : b.same body = true)
      (mem : clause ∈ catches) (type : ty ∈ clause.types) (takes : ty.Takes thrown) :
      Catches thrown (.stmt ⟨id, .tryCatch resources body catches finish⟩) (.block b)

/-- The node is a method that declares exceptions of class `thrown`. -/
inductive Declares (thrown : String) : Node → Prop where
  | method {id : NodeId} {head : MethodHead} {body : Option Block} {ty : Ty}
      (type : ty ∈ head.throws) (takes : ty.Takes thrown) :
      Declares thrown (.stmt ⟨id, .method head body⟩)

/-- Somebody outward on the list handles exceptions of class `thrown` before a boundary is
left; `below` is the child that the list was entered by. -/
def Handled (thrown : String) (below : Option Node) (nodes : List Node) : Prop :=
  ∃ inside n above, nodes = inside ++ n :: above ∧
    (∀ front m back, inside = front ++ m :: back → ¬ Boundary (m :: back ++ n :: above)) ∧
    (Declares thrown n ∨ ∃ child ∈ inside.getLast?.or below, Catches thrown n child)

section

variable {n : Node} {above : List Node} {below : Option Node} {b : Block} {thrown : String}
  {id : NodeId}

theorem declares_iff {head : MethodHead} {body : Option Block} :
    Declares thrown (.stmt ⟨id, .method head body⟩) ↔ head.mayThrow thrown = true := by
  refine Iff.trans ⟨?_, ?_⟩ acceptsThrowable_iff.symm
  · rintro ⟨type, takes⟩
    exact ⟨_, type, takes⟩
  · rintro ⟨ty, type, takes⟩
    exact .method type takes

theorem exists_catches_iff {resources : List (Declaration Variable)} {body : Block}
    {catches : List (CatchClause Variable Block)} {finish : Option Block} :
    (∃ child ∈ below, Catches thrown (.stmt ⟨id, .tryCatch resources body catches finish⟩) child) ↔
      ((below.bind Node.block?).any (·.same body) && catches.any (·.accepts thrown)) = true := by
  rw [Bool.and_eq_true, List.any_eq_true, Option.any_eq_true]
  constructor
  · rintro ⟨child, entered, ⟨same, mem, type, takes⟩⟩
    exact ⟨⟨_, Option.bind_eq_some_iff.mpr ⟨_, entered, rfl⟩, same⟩, _, mem,
      acceptsThrowable_iff.mpr ⟨_, type, takes⟩⟩
  · rintro ⟨⟨b, found, same⟩, clause, mem, accepts⟩
    obtain ⟨child, entered, isBlock⟩ := Option.bind_eq_some_iff.mp found
    obtain ⟨ty, type, takes⟩ := acceptsThrowable_iff.mp accepts
    cases child with
    | block b' =>
      cases isBlock
      exact ⟨_, entered, .body same mem type takes⟩
    | _ => cases isBlock

theorem startsWithInitializer_iff (genuine : GenuineList (.block b :: above)) :
    startsWithInitializer (.block b :: above) = true ↔ Boundary (.block b :: above) := by
  constructor
  · intro starts
    unfold startsWithInitializer at starts
    rcases Bool.or_eq_true_iff.mp starts with isStatic | member
    · exact .staticBlock isStatic
    · split at member
      next id inner body owner rest =>
        obtain ⟨here, stands, inBody, -⟩ := genuine
        cases List.mem_singleton.mp here
        obtain ⟨s, mem, same⟩ := List.mem_map.mp stands
        cases same
        cases owner with
        | cls c =>
          cases List.mem_singleton.mp inBody
          exact .instanceBlock rfl mem
        | stmt s =>
          obtain ⟨id', form⟩ := s
          cases form with
          | cls head body' =>
            cases List.mem_singleton.mp inBody
            exact .instanceBlock rfl mem
          | _ => cases member
        | _ => cases member
      next => cases member
  · intro boundary
    cases boundary with
    | cls isClass => cases isClass
    | staticBlock isStatic => exact Bool.or_eq_true_iff.mpr (.inl isStatic)
    | instanceBlock isClass member =>
      refine Bool.or_eq_true_iff.mpr (.inr ?_)
      rename_i owner _ _
      cases owner with
      | cls c => rfl
      | stmt s =>
        obtain ⟨id', form⟩ := s
        cases form with
        | cls head body' => rfl
        | _ => cases isClass
      | _ => cases isClass

/-- Whoever handles an exception does it at the first node or, if that is no boundary, above. -/
theorem handled_cons : Handled thrown below (n :: above) ↔
    (Declares thrown n ∨ ∃ child ∈ below, Catches thrown n child) ∨
      ¬ Boundary (n :: above) ∧ Handled thrown (some n) above := by
  constructor
  · rintro ⟨inside, m, rest, split_, unbounded, handles⟩
    cases inside with
    | nil =>
      cases split_
      exact .inl handles
    | cons k inside =>
      obtain ⟨rfl, rfl⟩ := List.cons.inj split_
      refine .inr ⟨unbounded [] n inside rfl, inside, m, rest, rfl, ?_, ?_⟩
      · rintro front k back rfl
        exact unbounded (n :: front) k back rfl
      · rw [List.getLast?_cons] at handles
        cases last : inside.getLast? <;> simpa [last] using handles
  · rintro (handles | ⟨unbounded, inside, m, rest, rfl, within, handles⟩)
    · exact ⟨[], n, above, rfl, by simp, handles⟩
    · refine ⟨n :: inside, m, rest, rfl, ?_, ?_⟩
      · intro front k back split_
        rcases List.cons_eq_append_iff.mp split_ with ⟨rfl, first⟩ | ⟨front, rfl, rfl⟩
        · cases first
          exact unbounded
        · exact within front k back rfl
      · rw [List.getLast?_cons]
        cases last : inside.getLast? <;> simpa [last] using handles

end

end Path

variable {n : Node} {above : List Node} {below : Option Node} {b : Block}

/-- The exception is chosen further out at a node that is no boundary and where nothing is
handled. -/
theorem exceptionAbove_passes
    (open_ : exceptionAbove below (n :: above) = exceptionAbove (some n) above)
    (passes : ¬ (Path.Declares Fqn.ioException n ∨
      ∃ child ∈ below, Path.Catches Fqn.ioException n child))
    (unbounded : ¬ Path.Boundary (n :: above)) :
    exceptionAbove below (n :: above) = .ioException ↔
      (Path.Declares Fqn.ioException n ∨ ∃ child ∈ below, Path.Catches Fqn.ioException n child) ∨
        ¬ Path.Boundary (n :: above) ∧ exceptionAbove (some n) above = .ioException := by
  rw [open_, or_iff_right passes, and_iff_right unbounded]

/-- The exception is chosen at the first node or, if that is no boundary, further out. -/
theorem exceptionAbove_cons (genuine : Path.GenuineList (n :: above)) :
    exceptionAbove below (n :: above) = .ioException ↔
      (Path.Declares Fqn.ioException n ∨ ∃ child ∈ below, Path.Catches Fqn.ioException n child) ∨
        ¬ Path.Boundary (n :: above) ∧ exceptionAbove (some n) above = .ioException := by
  have plain {m : Node} (noStmt : m.stmt? = none) : ¬ (Path.Declares Fqn.ioException m ∨
      ∃ child ∈ below, Path.Catches Fqn.ioException m child) := by
    rintro (⟨_, _⟩ | ⟨child, -, ⟨_, _, _, _⟩⟩) <;> cases noStmt
  cases n with
  | block b =>
    have chosen : exceptionAbove below (.block b :: above) =
        if Path.startsWithInitializer (.block b :: above) then .runtimeException
        else exceptionAbove (some (.block b)) above := rfl
    by_cases starts : Path.startsWithInitializer (.block b :: above) = true
    · have boundary := (Path.startsWithInitializer_iff genuine).mp starts
      rw [chosen, if_pos starts, or_iff_right (plain rfl)]
      exact iff_of_false ThrownException.noConfusion fun ⟨unbounded, _⟩ => unbounded boundary
    · have unbounded := starts ∘ (Path.startsWithInitializer_iff genuine).mpr
      exact exceptionAbove_passes (chosen.trans (if_neg starts)) (plain rfl) unbounded
  | cls c =>
    rw [or_iff_right (plain rfl)]
    exact iff_of_false ThrownException.noConfusion fun ⟨unbounded, _⟩ => unbounded (.cls rfl)
  | stmt s =>
    obtain ⟨id, form⟩ := s
    cases form with
    | method head body =>
      have chosen : exceptionAbove below (.stmt ⟨id, .method head body⟩ :: above) =
          if head.mayThrow Fqn.ioException then .ioException else .runtimeException := rfl
      rw [chosen, Path.declares_iff]
      split
      next throws => exact iff_of_true rfl (.inl (.inl throws))
      next silent =>
        refine iff_of_false ThrownException.noConfusion ?_
        rintro ((throws | ⟨child, -, ⟨_, _, _, _⟩⟩) | ⟨unbounded, -⟩)
        · exact silent throws
        · exact unbounded .method
    | cls head body =>
      refine iff_of_false ThrownException.noConfusion ?_
      rintro ((⟨_, _⟩ | ⟨child, -, ⟨_, _, _, _⟩⟩) | ⟨unbounded, -⟩)
      exact unbounded (.cls rfl)
    | tryCatch resources body catches finish =>
      have chosen : exceptionAbove below (.stmt ⟨id, .tryCatch resources body catches finish⟩ :: above) =
          if (below.bind Node.block?).any (·.same body) && catches.any (·.accepts Fqn.ioException)
          then .ioException
          else exceptionAbove (some (.stmt ⟨id, .tryCatch resources body catches finish⟩)) above := rfl
      by_cases caught : ((below.bind Node.block?).any (·.same body) &&
          catches.any (·.accepts Fqn.ioException)) = true
      · rw [chosen, if_pos caught]
        exact iff_of_true rfl (.inl (.inr (Path.exists_catches_iff.mpr caught)))
      · refine exceptionAbove_passes (chosen.trans (if_neg caught)) ?_ ?_
        · rintro (⟨_, _⟩ | catching)
          exact caught (Path.exists_catches_iff.mp catching)
        · rintro (_ | isClass)
          cases isClass
    | _ =>
      refine exceptionAbove_passes rfl ?_ ?_
      · rintro (⟨_, _⟩ | ⟨child, -, ⟨_, _, _, _⟩⟩)
      · rintro (_ | isClass)
        cases isClass
  | _ =>
    refine exceptionAbove_passes rfl (plain rfl) ?_
    rintro (_ | isClass)
    cases isClass

theorem exceptionAbove_eq_ioException_iff {nodes : List Node}
    (genuine : nodes ≠ [] → Path.GenuineList nodes) :
    exceptionAbove below nodes = .ioException ↔ Path.Handled Fqn.ioException below nodes := by
  induction nodes generalizing below with
  | nil =>
    refine iff_of_false ThrownException.noConfusion ?_
    rintro ⟨inside, n, above, split_, -⟩
    exact List.cons_ne_nil _ _ (List.append_eq_nil_iff.mp split_.symm).2
  | cons n above ih =>
    rw [exceptionAbove_cons (genuine (List.cons_ne_nil n above)), Path.handled_cons, ih]
    intro nonempty
    cases above with
    | nil => exact absurd rfl nonempty
    | cons parent above => exact (genuine (List.cons_ne_nil _ _)).2

/-- A guard throws an `IOException` exactly where it is handled: its path comes out of the body
of a `try` that catches it before the innermost boundary is left, or that boundary is a method
that declares it. -/
theorem Path.guardException_eq_ioException_iff {p : Path} (genuine : p.Genuine) :
    p.guardException = .ioException ↔
      ∃ inside n above, p.outward = inside ++ n :: above ∧
        (∀ front m back, inside = front ++ m :: back → ¬ Boundary (m :: back ++ n :: above)) ∧
        (Declares Fqn.ioException n ∨
          ∃ child ∈ inside.getLast?, Catches Fqn.ioException n child) := by
  show exceptionAbove none p.outward = .ioException ↔ _
  rw [exceptionAbove_eq_ioException_iff fun _ => genuine]
  simp only [Handled, Option.or_none]

/-- In `try { try {} catch (IOException e) { f; } } catch (Exception e) {}` of a method that
declares nothing, a guard for `f;` is not covered by the clause it stands in. -/
theorem Path.guardException_in_handler :
    let clause (id : NodeId) (fqn : String) (body : Block) : CatchClause Variable Block :=
      ⟨[Fqn.simple fqn], [.known fqn], ⟨id, "e", .known fqn, none⟩, body⟩
    let stmt : Stmt := ⟨1, .expr ⟨2, .file, .ident "f" none⟩⟩
    let handler : Block := ⟨3, false, [stmt]⟩
    let inner : Stmt := ⟨4, .tryCatch [] ⟨5, false, []⟩ [clause 6 Fqn.ioException handler] none⟩
    let attempt : Block := ⟨7, false, [inner]⟩
    let outer : Stmt := ⟨8, .tryCatch [] attempt [clause 9 Fqn.exception ⟨10, false, []⟩] none⟩
    let body : Block := ⟨11, false, [outer]⟩
    let method : Stmt := ⟨12, .method ⟨[], some "void", "m", [], []⟩ (some body)⟩
    let p : Path := ⟨[.stmt stmt, .block handler, .stmt inner, .block attempt, .stmt outer,
      .block body, .stmt method]⟩
    p.Genuine ∧ p.guardException = .ioException ∧
      ∃ inside n above, p.outward = inside ++ n :: above ∧
        (∀ front m back, inside = front ++ m :: back → ¬ Boundary (m :: back ++ n :: above)) ∧
        (Declares Fqn.ioException n ∨
          ∃ child ∈ inside.getLast?, Catches Fqn.ioException n child) := by
  intro clause stmt handler inner attempt outer body method p
  have genuine : p.Genuine := by
    simp [p, Genuine, GenuineList, Node.children, Stmt.children, CatchClause.children, handler,
      inner, attempt, outer, body, method, clause]
  have throws : p.guardException = .ioException := by decide +kernel
  exact ⟨genuine, throws, (guardException_eq_ioException_iff genuine).mp throws⟩

end JavaMend
