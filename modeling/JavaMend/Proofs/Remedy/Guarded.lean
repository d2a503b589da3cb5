import JavaMend.Proofs.Patch.Success
import JavaMend.Proofs.Remedy.Containment
import JavaMend.Proofs.Traversal.Rebuild

/-!
# Guarded constructions

A guard is written after the declaration of a variable that a construction of a
path initializes. In the tree that results the construction reaches the creation
of no file (`Guarding.reachesSink_guarded`), whatever stands around the
declaration: loops that come back to it, handlers that leave it, other uses of the
variable.
-/

namespace JavaMend

open FlowM

/-! ## What guards are made of -/

/-- The methods that guards call. -/
def guardMethods : List MethodRef :=
  [Jdk.fileToPath, Jdk.pathNormalize, Jdk.pathStartsWithPath, Jdk.pathStartsWithString]

theorem createsNoFile_of_mem {m : MethodRef} (mem : m ∈ guardMethods) : m.CreatesNoFile := by
  have none : (Sink.createFile.all fun sink =>
      guardMethods.all fun m => !sink.signature.accepts m) = true := by decide +kernel
  intro sink hsink
  have refuses := List.all_eq_true.mp (List.all_eq_true.mp none sink hsink) m mem
  simpa using refuses

theorem startsWith_contains {m : MethodRef}
    (mem : m ∈ [Jdk.pathStartsWithPath, Jdk.pathStartsWithString]) :
    PathTraversal.Guarding.pathStartsWith.any (·.accepts m) = true := by
  have both : ([Jdk.pathStartsWithPath, Jdk.pathStartsWithString].all fun m =>
      PathTraversal.Guarding.pathStartsWith.any (·.accepts m)) = true := by decide +kernel
  exact List.all_eq_true.mp both m mem

/-- A call without arguments on an expression. -/
def Expr.called (e : Expr) (m : MethodRef) (id : NodeId) : Expr :=
  ⟨id, m.result, .call (some e) m.name [] (some m)⟩

section Called

variable {e : Expr} {name : String} {m : MethodRef} {id since : NodeId}

theorem Expr.PathOf.called (path : e.PathOf name) (mem : m ∈ guardMethods) :
    (e.called m id).PathOf name :=
  .call path (createsNoFile_of_mem mem)

theorem Expr.localReads_called : (e.called m id).localReads = e.localReads := by
  rw [localReads_eq]
  exact List.append_nil _

theorem Node.NewSince.called (new : (Node.expr e).NewSince since) (le : since ≤ id) :
    (Node.expr (e.called m id)).NewSince since := by
  rw [Node.newSince_iff]
  refine ⟨le, fun c hc => ?_⟩
  rw [List.mem_singleton.mp hc]
  exact new

theorem Node.NewSince.startsWith {path directory : Expr} {ty : Ty} {method : String}
    (new : (Node.expr path).NewSince since) (new' : (Node.expr directory).NewSince since)
    (le : since ≤ id) :
    (Node.expr ⟨id, ty, .call (some path) method [directory] (some m)⟩).NewSince since := by
  rw [Node.newSince_iff]
  refine ⟨le, fun c hc => ?_⟩
  rcases List.mem_cons.mp hc with rfl | hc
  · exact new
  · rw [List.mem_singleton.mp hc]
    exact new'

end Called

/-- A check that is made for a path and a directory. -/
theorem GuardVariant.check_checks (variant : GuardVariant) {path directory : Expr} {name : String}
    {since next : NodeId} (le : since ≤ next) (reads : path.PathOf name)
    (unread : name ∉ directory.localReads) (new : (Node.expr path).NewSince since)
    (new' : (Node.expr directory).NewSince since) :
    ∃ check next', variant.check path directory next = (check, next') ∧ next ≤ next' ∧
      check.Checks name ∧ (Node.expr check).NewSince since := by
  have file : Jdk.fileToPath ∈ guardMethods := by simp [guardMethods]
  have norm : Jdk.pathNormalize ∈ guardMethods := by simp [guardMethods]
  have le₁ : since ≤ next + 1 := Nat.le_succ_of_le le
  have le₂ : since ≤ next + 2 := Nat.le_succ_of_le le₁
  have le₃ : since ≤ next + 3 := Nat.le_succ_of_le le₂
  have le₄ : since ≤ next + 4 := Nat.le_succ_of_le le₃
  cases variant with
  | fileInFile =>
    refine ⟨_, next + 5, rfl, Nat.le_add_right _ _, .startsWith ((reads.called file).called norm)
      ?_ (createsNoFile_of_mem ?_) (startsWith_contains ?_), ?_⟩
    · show name ∉ ((directory.called Jdk.fileToPath _).called Jdk.pathNormalize _).localReads
      rwa [Expr.localReads_called, Expr.localReads_called]
    · simp [guardMethods]
    · simp
    · exact .startsWith ((new.called le).called le₁) ((new'.called le₂).called le₃) le₄
  | fileInString =>
    refine ⟨_, next + 3, rfl, Nat.le_add_right _ _, .startsWith ((reads.called file).called norm)
      unread (createsNoFile_of_mem ?_) (startsWith_contains ?_), ?_⟩
    · simp [guardMethods]
    · simp
    · exact .startsWith ((new.called le).called le₁) new' le₂
  | pathInPath =>
    refine ⟨_, next + 3, rfl, Nat.le_add_right _ _, .startsWith (reads.called norm)
      ?_ (createsNoFile_of_mem ?_) (startsWith_contains ?_), ?_⟩
    · show name ∉ (directory.called Jdk.pathNormalize _).localReads
      rwa [Expr.localReads_called]
    · simp [guardMethods]
    · simp
    · exact .startsWith (new.called le) (new'.called le₁) le₂

/-- A copy of a read of a local reads it. -/
theorem Expr.CopiedFrom.pathOf {e copy : Expr} {next : NodeId} {name : String}
    (copied : e.CopiedFrom next copy) (reads : e.localName? = some name) : copy.PathOf name := by
  rw [← localName?_of_blank copied.blank] at reads
  obtain ⟨id, ty, form⟩ := copy
  cases form with
  | ident name' owner =>
    cases owner with
    | none =>
      cases reads
      exact .read
    | some owner => cases reads
  | _ => cases reads

/-- The template of a guard accepts the operands of its variant and makes a new
guard of copies of them. -/
theorem guardTemplate_guards (variant : GuardVariant) (thrown : ThrownException) :
    ∃ template, guardTemplate variant thrown badZipEntry = .ok template ∧
      template.params = variant.operandTypes ∧
      ∀ {tainted parent : Expr} {name : String}, tainted.localName? = some name →
        name ∉ parent.localReads → ∀ next, ∃ guard next',
          template.build [tainted, parent] next = (.statements [guard], next') ∧
            guard.Guards name ∧ (Node.stmt guard).NewSince next := by
  simp only [guardTemplate, Template.parse, readParams_badZipEntry]
  refine ⟨_, rfl, rfl, fun {tainted parent name} reads unread next => ?_⟩
  obtain ⟨path, next₁, run₁, le₁, path_copied⟩ := tainted.freshCopy_copies next
  obtain ⟨directory, next₂, run₂, le₂, directory_copied⟩ := parent.freshCopy_copies next₁
  have le : next ≤ next₂ := Nat.le_trans le₁ le₂
  have unread' : name ∉ directory.localReads := by rwa [directory_copied.reads]
  obtain ⟨check, next₃, run₃, le₃, checks, check_new⟩ := variant.check_checks le
    (path_copied.pathOf reads) unread' path_copied.new (directory_copied.mono le₁).new
  refine ⟨_, _, (Fresh.bind_of_eq run₁).trans ((Fresh.bind_of_eq run₂).trans
    ((Fresh.bind_of_eq run₃).trans rfl)), .throws checks ?_, ?_⟩
  · simp [Expr.localReads_eq, Expr.localName?, Expr.children, ExprForm.children]
  · have later : ∀ k, next ≤ next₃ + k := fun k =>
      Nat.le_trans le (Nat.le_trans le₃ (Nat.le_add_right _ _))
    have one : ∀ {n : Node}, n.NewSince next → ∀ c ∈ [n], c.NewSince next :=
      fun new c hc => List.mem_singleton.mp hc ▸ new
    have none : ∀ c ∈ ([] : List Node), c.NewSince next := fun c hc => (List.not_mem_nil hc).elim
    refine .around (List.forall_mem_cons.mpr ⟨?_, one ?_⟩) (later 6) rfl
    · exact .around (one check_new) (later 0) rfl
    · refine .around (one ?_) (later 5) rfl
      refine .around (one ?_) (later 4) rfl
      refine .around (one ?_) (later 3) rfl
      refine .around (one ?_) (later 2) rfl
      exact .around none (later 1) rfl

/-! ## Writing a guard -/

theorem bind_of_ok_fresh {ε α β : Type} {first : ExceptT ε Fresh α} {next : α → ExceptT ε Fresh β}
    {a : α} {n n' : NodeId} (h : first n = (.ok a, n')) : (first >>= next) n = next a n' := by
  show StateT.bind first (ExceptT.bindCont next) n = _
  rw [StateT.bind, h]
  rfl

theorem lift_of_fresh {ε α : Type} {action : Fresh α} {a : α} {n n' : NodeId}
    (h : action n = (a, n')) : (ExceptT.lift action : ExceptT ε Fresh α) n = (.ok a, n') := by
  show StateT.map Except.ok action n = _
  rw [StateT.map, h]
  rfl

theorem adapt_of_ok_fresh {ε ε' α : Type} {action : ExceptT ε Fresh α} {wrap : ε → ε'} {a : α}
    {n n' : NodeId} (h : action n = (.ok a, n')) : (action.adapt wrap) n = (.ok a, n') := by
  show StateT.map (Except.mapError wrap) action n = _
  rw [StateT.map, h]
  rfl

/-! ## Places for guards -/

/-- The nodes from an expression without its parentheses outward, where the
expression stands below `above`. -/
def Expr.unwrap (e : Expr) (above : List Node) : List Node :=
  match e with
  | ⟨id, ty, .parens inner⟩ => inner.unwrap (.expr ⟨id, ty, .parens inner⟩ :: above)
  | e => .expr e :: above

namespace Expr

theorem head?_unwrap (e : Expr) (above : List Node) :
    (e.unwrap above).head? = some (.expr e.unparen) := by
  fun_induction unwrap e above with
  | case1 id ty inner above ih => rwa [unparen]
  | case2 above e plain =>
    rw [unparen]
    · rfl
    · exact plain

theorem outerBody?_go_unwrap (e : Expr) (above : List Node) :
    Path.outerBody?.go (e.unwrap above) = Path.outerBody?.go above := by
  fun_induction unwrap e above with
  | case1 id ty inner above ih => exact ih
  | case2 above e plain => rfl

theorem genuine_unwrap {e : Expr} {above : List Node}
    (genuine : Path.GenuineList (.expr e :: above)) : Path.GenuineList (e.unwrap above) := by
  fun_induction unwrap e above with
  | case1 id ty inner above ih => exact ih ⟨List.mem_cons_self, genuine⟩
  | case2 above e plain => exact genuine

end Expr

/-- A statement written after a statement of a block stands right behind it. -/
theorem Block.splice_after {block : Block} (coherent : (Node.block block).Coherent) {stmt : Stmt}
    (stands : stmt ∈ block.stmts) :
    ∃ front back, block.stmts = front ++ stmt :: back ∧ ∀ new next, ∃ out,
      block.splice (.statements [new]) ⟨.after, stmt⟩ next = (.ok out, next + 1) ∧
        out.stmts = front ++ stmt :: new :: back ∧ out.isStatic = block.isStatic := by
  have found : (block.position? stmt).isSome := by
    rw [position?, List.findIdx?_isSome, List.any_eq_true]
    exact ⟨stmt, stands, beq_self_eq_true _⟩
  obtain ⟨index, position⟩ := Option.isSome_iff_exists.mp found
  obtain ⟨bound, same, -⟩ := List.findIdx?_eq_some_iff_getElem.mp position
  have here : block.stmts[index] = stmt := by
    have equal := coherent.eq_of_same (List.mem_map_of_mem (List.getElem_mem bound))
      (List.mem_map_of_mem stands) same
    exact Node.stmt.inj equal
  have split : block.stmts = block.stmts.take index ++ stmt :: block.stmts.drop (index + 1) := by
    rw [← here, List.getElem_cons_drop, List.take_append_drop]
  refine ⟨_, _, split, fun new next => ?_⟩
  have spliced : spliceList block.stmts index .after [new] =
      block.stmts.take index ++ stmt :: new :: block.stmts.drop (index + 1) := by
    rw [spliceList, List.take_succ_eq_append_getElem bound, here]
    simp
  unfold Block.splice
  rw [position]
  exact ⟨⟨next, block.isStatic, _⟩, rfl, spliced, rfl⟩

namespace PathTraversal.Guarding

/-- The directory of a construction is one of its operands. -/
theorem mem_of_parentAndChild? {matcher : CallMatcher} {e parent child : Expr}
    (found : parentAndChild? matcher e = some (parent, child)) : parent ∈ e.children := by
  unfold parentAndChild? at found
  split at found
  · split at found
    next args =>
      cases found
      exact Expr.mem_children_of_args (args ▸ List.mem_cons_self)
    next => cases found
  · split at found
    next =>
      obtain ⟨receiver, called, found⟩ := Option.bind_eq_some_iff.mp found
      obtain ⟨arg, -, found⟩ := Option.bind_eq_some_iff.mp found
      cases found
      exact Expr.mem_children_of_receiver called
    next => cases found

/-- A construction of a path that a guard can follow: with any parentheses, it
initializes the only variable of a declaration in a block, it does not read that
variable, and there is a guard for the types of the variable and of the
directory. -/
structure GuardPlace where
  /-- The block of the declaration. -/
  block : Block
  /-- The nodes around the block, nearest first. -/
  above : List Node
  declaration : Stmt
  modifiers : List Modifier
  typeName : String
  target : Variable
  init : Expr
  parent : Expr
  child : Expr
  variant : GuardVariant
  genuine : Path.GenuineList (.block block :: above)
  stands : declaration ∈ block.stmts
  declares : declaration.form = .declare ⟨modifiers, typeName, [target]⟩
  initialized : target.init = some init
  constructs : parentAndChild? .standard init.unparen = some (parent, child)
  unread : target.name ∉ init.unparen.localReads
  selected : GuardVariant.select? target.ty parent.ty = some variant

namespace GuardPlace

/-- The construction itself. -/
def construction (place : GuardPlace) : Expr := place.init.unparen

/-- The path to the construction below a path to a block with its declaration. -/
def pathBelow (place : GuardPlace) (outer : Path) : Path :=
  ⟨place.init.unwrap (.var place.target :: .stmt place.declaration :: outer.outward)⟩

def path (place : GuardPlace) : Path := place.pathBelow ⟨.block place.block :: place.above⟩

/-- How many statements of the body stand around the declaration. -/
def nesting (place : GuardPlace) : Nat := Path.nestingInBody (.block place.block :: place.above)

/-- Writes the guard after the declaration; answers the path to the construction
in the tree that results. -/
def guarded (place : GuardPlace) (thrown : ThrownException) : ExceptT EngineError Fresh Path := do
  let template ←
    ExceptT.mk (pure ((guardTemplate place.variant thrown badZipEntry).mapError .template))
  let read ← ExceptT.lift (place.target.mkRead none)
  let fragment ← (template.render [read, place.parent]).adapt .template
  let block ← (place.block.splice fragment ⟨.after, place.declaration⟩).adapt .splice
  let outer ← ExceptT.lift (Path.onBlock ⟨.block place.block :: place.above⟩ block)
  return place.pathBelow outer

theorem outerBody?_pathBelow (place : GuardPlace) (outer : Path) :
    (place.pathBelow outer).outerBody? = outer.outerBody? :=
  Expr.outerBody?_go_unwrap _ _

theorem value?_pathBelow (place : GuardPlace) (outer : Path) :
    (place.pathBelow outer).value? = some (.expr place.construction) :=
  Expr.head?_unwrap _ _

theorem declaration_eq (place : GuardPlace) : place.declaration =
    ⟨place.declaration.id, .declare ⟨place.modifiers, place.typeName, [place.target]⟩⟩ := by
  have declares := place.declares
  cases h : place.declaration with
  | mk id form =>
    rw [h] at declares
    exact congrArg (Stmt.mk id) declares

theorem init_mem (place : GuardPlace) :
    Node.expr place.init ∈ (Node.var place.target).children :=
  List.mem_map_of_mem (Option.mem_toList.mpr place.initialized)

theorem target_mem (place : GuardPlace) :
    Node.var place.target ∈ (Node.stmt place.declaration).children := by
  show _ ∈ Stmt.children _
  rw [Stmt.children, place.declares]
  exact List.mem_cons_self

theorem genuine_pathBelow (place : GuardPlace) {block : Block} {above : List Node}
    (genuine : Path.GenuineList (.block block :: above))
    (stands : place.declaration ∈ block.stmts) :
    (place.pathBelow ⟨.block block :: above⟩).Genuine := by
  apply Expr.genuine_unwrap
  exact ⟨place.init_mem, place.target_mem, List.mem_map_of_mem stands, genuine⟩

/-- The directory is one of the operands of the construction. -/
theorem parent_mem (place : GuardPlace) : place.parent ∈ place.construction.children :=
  mem_of_parentAndChild? place.constructs

/-- Writing the guard puts it right after the declaration. -/
theorem guarded_eq (place : GuardPlace) (coherent : (Node.block place.block).Coherent)
    (thrown : ThrownException) (next : NodeId) :
    ∃ front back guard block above' next', place.block.stmts = front ++ place.declaration :: back ∧
      block.stmts = front ++ place.declaration :: guard :: back ∧
      block.isStatic = place.block.isStatic ∧ guard.Guards place.target.name ∧
      (Node.stmt guard).NewSince next ∧
      Path.Rebuilt (.block place.block) (.block block) place.above above' ∧
      place.guarded thrown next = (.ok (place.pathBelow ⟨.block block :: above'⟩), next') := by
  obtain ⟨template, made, params, builds⟩ := guardTemplate_guards place.variant thrown
  have unread : place.target.name ∉ place.parent.localReads := fun reads =>
    place.unread (Expr.mem_localReads_of_child place.parent_mem reads)
  let read : Expr := ⟨next, place.target.ty, .ident place.target.name none⟩
  have reads : read.localName? = some place.target.name := rfl
  obtain ⟨guard, next₁, build, guards, new⟩ := builds reads unread (next + 1)
  obtain ⟨front, back, split, splice⟩ := Block.splice_after coherent place.stands
  obtain ⟨block, spliced, stmts, isStatic⟩ := splice guard next₁
  have fit : Node.SameSort (.block place.block) (.block block) := rfl
  obtain ⟨above', next₂, replaced, rebuilt⟩ := Path.replacing_end place.genuine fit (next₁ + 1)
  change Path.onBlock ⟨.block place.block :: place.above⟩ block (next₁ + 1) = _ at replaced
  have template_made : (ExceptT.mk (pure ((guardTemplate place.variant thrown badZipEntry).mapError
      .template)) : ExceptT EngineError Fresh Template) next = (.ok template, next) := by
    rw [made]
    rfl
  have read_made : place.target.mkRead none next = (read, next + 1) := rfl
  have rendered : template.render [read, place.parent] (next + 1) =
      (.ok (.statements [guard]), next₁) := by
    have checked : template.check [read, place.parent] = .ok () :=
      GuardVariant.check_of_select params place.selected
    rw [Template.render_of_check checked, build]
  refine ⟨front, back, guard, block, above', next₂, split, stmts, isStatic, guards,
    fun m hm => Nat.le_of_succ_le (new m hm), rebuilt, ?_⟩
  unfold guarded
  rw [bind_of_ok_fresh template_made, bind_of_ok_fresh (lift_of_fresh read_made),
    bind_of_ok_fresh (adapt_of_ok_fresh rendered), bind_of_ok_fresh (adapt_of_ok_fresh spliced),
    bind_of_ok_fresh (lift_of_fresh replaced)]
  rfl

/-- The construction stands below its declaration. -/
theorem copies_declaration (place : GuardPlace) :
    1 ≤ (Node.stmt place.declaration).copies place.construction := by
  calc 1 ≤ (Node.expr place.init).copies place.construction := Node.copies_unparen place.init
    _ ≤ (Node.var place.target).copies place.construction := Node.copies_le_of_mem place.init_mem
    _ ≤ _ := Node.copies_le_of_mem place.target_mem

/-- A block with the guard is idle. -/
theorem idle_guarded (place : GuardPlace) {run : FlowRun} {front back : List Stmt} {guard : Stmt}
    {block : Block} {depth : Nat} (spec : run.spec = flowSpec .standard place.construction)
    (source : run.source = place.construction)
    (stmts : block.stmts = front ++ place.declaration :: guard :: back)
    (guards : guard.Guards place.target.name)
    (once : (Node.block block).copies place.construction ≤ 1)
    (deep : depth + 2 < run.limits.maxDepth) : run.Idle depth (.block block) := by
  have split : (Node.block block).children =
      front.map .stmt ++ .stmt place.declaration :: (guard :: back).map .stmt := by
    show block.stmts.map _ = _
    rw [stmts, List.map_append, List.map_cons]
  have others : ∀ stmt ∈ front ++ guard :: back, (Node.stmt stmt).copies run.source = 0 := by
    intro stmt mem
    rw [source]
    refine Node.copies_beside once split place.copies_declaration _ ?_
    rw [← List.map_append]
    exact List.mem_map_of_mem mem
  have declaration_mem : Node.stmt place.declaration ∈ (Node.block block).children := by
    rw [split]
    exact List.mem_append_right _ List.mem_cons_self
  have free : ∀ c ∈ place.init.unparen.children, (Node.expr c).copies run.source = 0 := by
    intro c hc
    rw [source]
    refine Node.copies_part (e := place.construction) ?_ hc
    calc _ ≤ (Node.expr place.init).copies place.construction := Node.copies_unparen_le _ _
      _ ≤ (Node.var place.target).copies place.construction := Node.copies_le_of_mem place.init_mem
      _ ≤ (Node.stmt place.declaration).copies place.construction :=
        Node.copies_le_of_mem place.target_mem
      _ ≤ (Node.block block).copies place.construction := Node.copies_le_of_mem declaration_mem
      _ ≤ 1 := once
  intro above
  rw [stmts, place.declaration_eq]
  exact FlowRun.guarded_idle spec place.initialized free guards deep others _ _ _ above

end GuardPlace

/-- The run of the search from a construction. -/
def runFrom (limits : FlowLimits) (construction : Expr) : FlowRun :=
  ⟨flowSpec .standard construction, limits, construction, true⟩

/-- A construction reaches the creation of no file if there is no body around it, or an
idle one. -/
theorem reachesSink_eq_false {env : PassEnv} {path : Path} {construction : Expr}
    (value : path.value? = some (.expr construction))
    (idle : ∀ index body, path.outerBody? = some (index, body) →
      FlowRun.Idle ⟨flowSpec env.matcher construction, env.limits, construction, true⟩ 0
        (.block body)) :
    reachesSink env path construction = false := by
  have source : (flowSpec env.matcher construction).isSource ⟨construction, path⟩ = true :=
    beq_self_eq_true _
  rw [reachesSink_eq, FlowQuery.reachesSink, FlowQuery.trace]
  simp only [PassEnv.queryFrom, value, source, if_true]
  cases inside : path.outerBody? with
  | none => rfl
  | some found =>
    obtain ⟨index, body⟩ := found
    have walked := idle index body inside (path.upTo (index + 1)).outward .empty
      FlowState.liveIn_empty ⟨[], [], []⟩ rfl
    dsimp only
    rw [walked.1]
    rfl

/-- Where the body around a construction is idle, the construction reaches the
creation of no file. -/
theorem reachesSink_of_idle {env : PassEnv} {path : Path} {construction : Expr} {index : Nat}
    {body : Block} (standard : env.matcher = .standard)
    (value : path.value? = some (.expr construction))
    (inside : path.outerBody? = some (index, body))
    (idle : (runFrom env.limits construction).Idle 0 (.block body)) :
    reachesSink env path construction = false := by
  refine reachesSink_eq_false value fun index' body' inside' => ?_
  cases inside.symm.trans inside'
  rw [standard]
  exact idle

/-- Where a guard was written after the declaration of a path, the construction of
the path reaches the creation of no file. -/
theorem reachesSink_guarded {env : PassEnv} (standard : env.matcher = .standard)
    (place : GuardPlace) (thrown : ThrownException) {next : NodeId} {index : Nat} {body : Block}
    (inside : place.path.outerBody? = some (index, body))
    (coherent : ∀ n ∈ .block place.block :: place.above, n.Coherent)
    (once : (Node.block body).copies place.construction = 1)
    (ahead : place.construction.id < next) (deep : place.nesting + 2 < env.limits.maxDepth) :
    ∃ path next' body', place.guarded thrown next = (.ok path, next') ∧ path.Genuine ∧
      path.value? = some (.expr place.construction) ∧ path.outerBody? = some (index, body') ∧
      reachesSink env path place.construction = false := by
  obtain ⟨front, back, guard, block, above', next', split, stmts, isStatic, guards, new, rebuilt,
    run⟩ := place.guarded_eq (coherent _ List.mem_cons_self) thrown next
  have block_le : (Node.block block).copies place.construction ≤
      (Node.block place.block).copies place.construction :=
    Node.copies_block_le split stmts (new.copies_eq_zero ahead)
  have all : List.Forall₂
      (fun n n' : Node => n'.copies place.construction ≤ n.copies place.construction)
      (.block place.block :: place.above) (.block block :: above') :=
    .cons block_le (rebuilt.copies_le place.genuine rfl
      (fun n hn => coherent n (List.mem_cons_of_mem _ hn)) block_le)
  have labels : (Node.block block :: above').map Node.label =
      (Node.block place.block :: place.above).map Node.label := by
    rw [List.map_cons, List.map_cons, rebuilt.labels]
    simp only [Node.label, isStatic]
  rw [GuardPlace.path, GuardPlace.outerBody?_pathBelow] at inside
  obtain ⟨body', inside', fewer⟩ := Path.outerBody?_go_of_labels all labels inside
  have stands : place.declaration ∈ block.stmts := by
    rw [stmts]
    exact List.mem_append_right _ List.mem_cons_self
  refine ⟨_, next', body', run, place.genuine_pathBelow rebuilt.genuine stands,
    place.value?_pathBelow _, (place.outerBody?_pathBelow _).trans inside', ?_⟩
  let run := runFrom env.limits place.construction
  have body_once : (Node.block body').copies run.source ≤ 1 :=
    Nat.le_trans fewer (Nat.le_of_eq once)
  have block_once : (Node.block block).copies run.source ≤ 1 :=
    Nat.le_trans (Path.copies_le_outerBody rebuilt.genuine inside') body_once
  have block_here : 1 ≤ (Node.block block).copies run.source :=
    Nat.le_trans place.copies_declaration
      (Node.copies_le_of_mem (List.mem_map_of_mem stands))
  have nesting : Path.nestingInBody (.block block :: above') = place.nesting :=
    Path.nestingInBody_of_labels labels
  have idle : run.Idle 0 (.block body') := by
    refine FlowRun.idle_body rebuilt.genuine inside' body_once block_here ?_
    rw [nesting]
    exact place.idle_guarded rfl rfl stmts guards block_once deep
  exact reachesSink_of_idle standard (place.value?_pathBelow _)
    ((place.outerBody?_pathBelow _).trans inside') idle

namespace UnzippedEntry

def dir : Expr := ⟨1, .file, .ident "dir" none⟩

def entry : Expr := ⟨2, .string, .ident "entry" none⟩

/-- `new File(dir, entry)` -/
def construction : Expr := ⟨3, .file, .create "File" [dir, entry] (some Jdk.fileOfParentAndChild)⟩

def init : Expr := ⟨4, .file, .parens construction⟩

def file : Variable := ⟨5, "file", .file, some init⟩

/-- `File file = (new File(dir, entry));` -/
def declaration : Stmt := ⟨6, .declare ⟨[], "File", [file]⟩⟩

/-- The declaration in a block. -/
def placeIn (block : Block) (above : List Node)
    (genuine : Path.GenuineList (.block block :: above)) (stands : declaration ∈ block.stmts) :
    GuardPlace where
  block := block
  above := above
  declaration := declaration
  modifiers := []
  typeName := "File"
  target := file
  init := init
  parent := dir
  child := entry
  variant := .fileInFile
  genuine := genuine
  stands := stands
  declares := rfl
  initialized := rfl
  constructs :=
    have accepted : CallMatcher.standard.acceptsAny construction fileWithChild = true := by
      decide +kernel
    if_pos accepted
  unread := by decide +kernel
  selected := by decide +kernel

def read (name : String) : Expr := ⟨7, .file, .ident name none⟩

def stream (name : String) : Expr :=
  ⟨8, .known Fqn.fileOutputStream, .create "FileOutputStream" [read name]
    (some Jdk.fileOutputStreamOfFile)⟩

/-- `new FileOutputStream(name);` -/
def opening (name : String) : Stmt := ⟨9, .expr (stream name)⟩

def methodOf (body : Block) : Stmt := ⟨11, .method ⟨[], some "void", "unzip", [], []⟩ (some body)⟩

/-! The file is opened in a loop that comes back to its declaration. -/

def loopBlock : Block := ⟨12, false, [declaration, opening "file"]⟩

/-- `while (true) { … }` -/
def loop : Stmt := ⟨13, .whileLoop ⟨14, .boolean, .literal (.boolean true)⟩ ⟨15, .block loopBlock⟩⟩

def loopBody : Block := ⟨10, false, [loop]⟩

def loopPlace : GuardPlace :=
  placeIn loopBlock
    [.stmt ⟨15, .block loopBlock⟩, .stmt loop, .block loopBody, .stmt (methodOf loopBody)]
    ⟨List.mem_cons_self, List.mem_cons_of_mem _ List.mem_cons_self, List.mem_cons_self,
      List.mem_cons_self, trivial⟩ List.mem_cons_self

def loopEnv : PassEnv := ⟨.standard, ⟨5, 1⟩, .standard⟩

theorem coherent_loop : ∀ n ∈ .block loopPlace.block :: loopPlace.above, n.Coherent := by
  have inMethod : (Node.stmt (methodOf loopBody)).Coherent :=
    Node.coherent_of_distinct (fun _ mem => mem) (by decide +kernel)
  have inBody : (Node.block loopBody).Coherent := inMethod.child List.mem_cons_self
  have inLoop : (Node.stmt loop).Coherent := inBody.child List.mem_cons_self
  have inRound : (Node.stmt ⟨15, .block loopBlock⟩).Coherent :=
    inLoop.child (List.mem_cons_of_mem _ List.mem_cons_self)
  have inBlock : (Node.block loopBlock).Coherent := inRound.child List.mem_cons_self
  simp only [loopPlace, placeIn, List.forall_mem_cons]
  exact ⟨inBlock, inRound, inLoop, inBody, inMethod, fun n mem => (List.not_mem_nil mem).elim⟩

/-- The file that the loop opens is one that the guard lets through. -/
theorem reachesSink_loop :
    reachesSink loopEnv loopPlace.path construction = true ∧
      (Node.block loopBody).copies construction = 1 ∧
      loopPlace.nesting + 2 < loopEnv.limits.maxDepth ∧
      ∃ path next' body', loopPlace.guarded .runtimeException 16 = (.ok path, next') ∧
        path.Genuine ∧ path.value? = some (.expr construction) ∧
        path.outerBody? = some (1, body') ∧ reachesSink loopEnv path construction = false := by
  have before : reachesSink loopEnv loopPlace.path construction = true := by decide +kernel
  have once : (Node.block loopBody).copies construction = 1 := by decide +kernel
  have deep : loopPlace.nesting + 2 < loopEnv.limits.maxDepth := by decide +kernel
  exact ⟨before, once, deep,
    reachesSink_guarded rfl loopPlace .runtimeException rfl coherent_loop once (by decide) deep⟩

/-! The construction initializes a second variable as well, and that one is opened. -/

def other : Variable := ⟨12, "other", .file, some construction⟩

def second : Stmt := ⟨13, .declare ⟨[], "File", [other]⟩⟩

def sharedBody : Block := ⟨10, false, [declaration, second, opening "other"]⟩

def sharedPlace : GuardPlace :=
  placeIn sharedBody [.stmt (methodOf sharedBody)] ⟨List.mem_cons_self, trivial⟩
    List.mem_cons_self

def sharedEnv : PassEnv := ⟨.standard, ⟨3, 1⟩, .standard⟩

theorem coherent_shared : ∀ n ∈ .block sharedPlace.block :: sharedPlace.above, n.Coherent := by
  have inMethod : (Node.stmt (methodOf sharedBody)).Coherent := by
    have subtree : (Node.stmt (methodOf sharedBody)).subtree =
        [.stmt (methodOf sharedBody), .block sharedBody, .stmt declaration, .var file, .expr init,
          .expr construction, .expr dir, .expr entry, .stmt second, .var other,
          .expr construction, .expr dir, .expr entry, .stmt (opening "other"),
          .expr (stream "other"), .expr (read "other")] := by with_unfolding_all rfl
    -- The second place of the construction adds no node of its own.
    let nodes : List Node :=
      [.stmt (methodOf sharedBody), .block sharedBody, .stmt declaration, .var file, .expr init,
        .expr construction, .expr dir, .expr entry, .stmt second, .var other,
        .stmt (opening "other"), .expr (stream "other"), .expr (read "other")]
    have among : ∀ m ∈ (Node.stmt (methodOf sharedBody)).subtree, m ∈ nodes := by
      rw [subtree]
      simp [nodes]
    exact Node.coherent_of_distinct among (by decide +kernel)
  have inBody : (Node.block sharedBody).Coherent := inMethod.child List.mem_cons_self
  exact List.forall_mem_cons.mpr ⟨inBody, List.forall_mem_singleton.mpr inMethod⟩

/-- A guard does not close the flow from a second place of the construction. -/
theorem not_reachesSink_guarded :
    ¬ ∀ (env : PassEnv) (place : GuardPlace) (thrown : ThrownException) (next : NodeId)
        (index : Nat) (body : Block), env.matcher = .standard →
        place.path.outerBody? = some (index, body) →
        (∀ n ∈ .block place.block :: place.above, n.Coherent) → place.construction.id < next →
        place.nesting + 2 < env.limits.maxDepth →
        ∃ path next', place.guarded thrown next = (.ok path, next') ∧
          reachesSink env path place.construction = false := by
  intro claim
  obtain ⟨path, next', guarded, closed⟩ := claim sharedEnv sharedPlace .runtimeException 14 1
    sharedBody rfl rfl coherent_shared (by decide) (by decide +kernel)
  have reaches : (match sharedPlace.guarded .runtimeException 14 with
      | (.ok path, _) => reachesSink sharedEnv path sharedPlace.construction
      | (.error _, _) => false) = true := by decide +kernel
  simp only [guarded, closed] at reaches
  cases reaches

end UnzippedEntry

end PathTraversal.Guarding

end JavaMend
