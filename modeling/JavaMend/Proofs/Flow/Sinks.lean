import JavaMend.Proofs.Flow.Statement
import Mathlib.Data.List.Pairwise

/-!
# The sinks that a value reaches

`FlowQuery.mem_sinks_iff` puts the exactness of walks and the bookkeeping of a
query together: in a body without `try`, the sinks found are those that carry
the value on one of the courses through the body.

Courses that are still going round a loop count: a loop that is never left is
walked all the same, and what it reaches is reached, although no course gets to
the end of the body.
-/

namespace JavaMend

/-! ## What is found of what is offered -/

/-- Each occurrence is known by the node that stands there. -/
def Identified (nodes : List Occurrence) : Prop :=
  ∀ a ∈ nodes, ∀ b ∈ nodes, a.expr.id = b.expr.id → a = b

/-- The sinks of a trace are the sinks among what was offered, which is among
`nodes`. -/
structure Trace.Filtered (run : FlowRun) (nodes : List Occurrence) (t : Trace) : Prop where
  sinks : t.sinks = t.offered.filter run.spec.isSink
  offered : ∀ o ∈ t.offered, o ∈ nodes

variable {run : FlowRun} {nodes : List Occurrence} {t : Trace} {node o : Occurrence}

theorem Trace.Filtered.offerTo (h : t.Filtered run nodes) (mem : node ∈ nodes) :
    (run.offerTo t node).Filtered run nodes := by
  unfold FlowRun.offerTo
  split
  · exact h
  · refine ⟨?_, fun o ho => ?_⟩
    · dsimp only
      rw [List.filter_append, h.sinks]
      by_cases sink : run.spec.isSink node = true
      · rw [if_pos sink, List.filter_cons_of_pos sink, List.filter_nil]
      · rw [if_neg sink, List.filter_cons_of_neg sink, List.filter_nil, List.append_nil]
    · rcases List.mem_append.mp ho with ho | ho
      · exact h.offered o ho
      · exact List.mem_singleton.mp ho ▸ mem

/-- An expression that is passed over was offered before, as itself. -/
theorem mem_offered_offerTo (identified : Identified nodes) (h : t.Filtered run nodes)
    (mem : node ∈ nodes) : o ∈ (run.offerTo t node).offered ↔ o ∈ t.offered ∨ o = node := by
  unfold FlowRun.offerTo
  split
  · next seen =>
    obtain ⟨before, offered, same⟩ := List.any_eq_true.mp seen
    have : before = node := identified before (h.offered before offered) node mem (eq_of_beq same)
    subst this
    exact (or_iff_left_of_imp fun same => same ▸ offered).symm
  · rw [List.mem_append, List.mem_singleton]

theorem mem_sinks_foldl (identified : Identified nodes) (log : List Occurrence)
    (inside : ∀ o ∈ log, o ∈ nodes) (h : t.Filtered run nodes) :
    o ∈ (log.foldl run.offerTo t).sinks ↔
      (o ∈ t.offered ∨ o ∈ log) ∧ run.spec.isSink o = true := by
  induction log generalizing t with
  | nil =>
    rw [List.foldl_nil, h.sinks, List.mem_filter, or_iff_left List.not_mem_nil]
  | cons node rest ih =>
    have mem := inside node List.mem_cons_self
    rw [List.foldl_cons, ih (fun o ho => inside o (List.mem_cons_of_mem _ ho)) (h.offerTo mem),
      mem_offered_offerTo identified h mem, List.mem_cons, or_assoc]

/-! ## Queries -/

/-- The courses through a body that stands below `above`. -/
def FlowSpec.courses (spec : FlowSpec) (source : Expr) (above : List Node) (body : Block) :
    Set (Step Ending) :=
  spec.execAllWays source above body.stmts Live.nothing

/-- The occurrences in the statements of a body. -/
def Block.occurrences (body : Block) (above : List Node) : List Occurrence :=
  body.stmts.flatMap fun stmt => (Node.stmt stmt).occurrences above

theorem Block.identified_occurrences {body : Block} (unshared : body.Unshared)
    (above : List Node) : Identified (body.occurrences above) := by
  have exprs : (body.occurrences above).map Occurrence.expr =
      (Node.block body).own.filterMap Node.expr? := by
    rw [Node.own_eq]
    show _ = ((Node.block body).children.flatMap Node.own).filterMap Node.expr?
    rw [Block.occurrences, List.map_flatMap, List.filterMap_flatMap, Node.children,
      List.flatMap_map]
    exact List.flatMap_congr fun stmt _ => Node.map_occurrences (.stmt stmt) above
  have distinct : (body.occurrences above).Pairwise fun a b => a.expr.id ≠ b.expr.id := by
    unfold Block.Unshared at unshared
    rw [← exprs, List.pairwise_map] at unshared
    exact unshared
  have symmetric : Std.Symm fun a b : Occurrence => a.expr.id ≠ b.expr.id := ⟨fun _ _ h => h.symm⟩
  intro a ha b hb same
  by_contra ne
  exact distinct.forall ha hb ne same

/-- The statements of a body without `try` fit the names and places of the
body. -/
theorem Block.fits {body : Block} (noTry : ∀ n ∈ (Node.block body).own, n.isTry = false)
    (above : List Node) : ∀ stmt ∈ body.stmts,
      (Node.stmt stmt).Fits body.localNames (body.occurrences above) above := by
  have plain : (Node.block body).Plain body.localNames := by
    refine ⟨noTry, fun m hm x hx => ?_⟩
    exact List.mem_dedup.mpr (List.mem_filterMap.mpr ⟨m, hm, hx⟩)
  intro stmt hs
  exact ⟨plain.child rfl (List.mem_map_of_mem hs),
    fun o ho => List.mem_flatMap.mpr ⟨stmt, hs, ho⟩⟩

/-- The sinks found in a body without `try` are exactly those that carry the
value on a course through the body, finished or going round a loop. The body has
every expression at one place, its statements are not nested too deep, and its
loops are walked more than twice as often as it has locals. -/
theorem FlowQuery.mem_sinks_iff {query : FlowQuery} {spec : FlowSpec} {source : Expr}
    {index : Nat} {body : Block} (starts : query.start.value? = some (.expr source))
    (isSource : spec.isSource ⟨source, query.start⟩ = true)
    (inBody : query.start.outerBody? = some (index, body))
    (noTry : ∀ n ∈ (Node.block body).own, n.isTry = false) (unshared : body.Unshared)
    (deep : (Node.block body).nesting ≤ query.limits.maxDepth)
    (often : 2 * body.localNames.length + 1 ≤ query.limits.maxLoopIterations)
    (node : Occurrence) :
    node ∈ (query.findSinks spec).sinks ↔ spec.isSink node = true ∧
      ∃ course ∈ spec.courses source (query.start.upTo (index + 1)).outward body,
        node ∈ course.carried := by
  let run : FlowRun := { spec, limits := query.limits, source, stopAtFirst := false }
  let above := (query.start.upTo (index + 1)).outward
  have parts : ∀ stmt ∈ body.stmts,
      run.ExactNode body.localNames (body.occurrences above) above 0 (.stmt stmt) := by
    intro stmt hs
    have nested := Node.nesting_le_of_child (n := .block body) rfl (List.mem_map_of_mem hs)
    have enough : 2 * body.localNames.length < run.limits.maxLoopIterations := often
    have shallow : 0 + (Node.stmt stmt).nesting ≤ run.limits.maxDepth := by
      show 0 + (Node.stmt stmt).nesting ≤ query.limits.maxDepth
      omega
    exact FlowRun.exec_exact rfl enough (.stmt stmt) (Block.fits noTry above stmt hs) shallow
  obtain ⟨exits, log, ⟨guards, walks⟩, inside, right⟩ :=
    (FlowRun.execAll_exact rfl parts).walks .empty FlowState.within_empty
  have start : Covers body.localNames .empty {Live.nothing} :=
    covers_self FlowState.within_empty
  have found : (query.findSinks spec).sinks = (log.foldl run.offerTo ⟨[], [], []⟩).sinks := by
    unfold FlowQuery.findSinks FlowQuery.trace
    simp only [starts, isSource, inBody, if_true]
    rw [walks]
  have blank : (⟨[], [], []⟩ : Trace).Filtered run (body.occurrences above) :=
    ⟨rfl, fun o ho => (List.not_mem_nil ho).elim⟩
  rw [found, mem_sinks_foldl (Block.identified_occurrences unshared above) log inside blank,
    or_iff_right List.not_mem_nil, (right _ start).2, and_comm]
  refine and_congr_right fun _ => ?_
  constructor
  · intro h
    obtain ⟨_, rfl, course, mem, ho⟩ := h
    exact ⟨course, mem, ho⟩
  · intro h
    obtain ⟨course, mem, ho⟩ := h
    exact ⟨_, rfl, course, mem, ho⟩

/-! ## A loop that is never left -/

/-- Rounds that always come back never end. -/
theorem Rounds.circles {round : Ways (Option Ending)}
    (back : ∀ live, ∀ r ∈ round live, r.value = none) {live : Live} {q : Step Ending}
    (course : Rounds round live q) : q.value = .circles := by
  induction course with
  | circling live => rfl
  | @out live r ending turn value =>
    rw [back live r turn] at value
    cases value
  | again _ _ _ ih => exact ih

namespace EndlessLoop

/-- `"x"` -/
def text : Expr := ⟨0, .string, .literal (.string "x")⟩

/-- `static { for (;;) "x"; }` -/
def body : Block := ⟨3, true, [⟨2, .forLoop [] none [] ⟨1, .expr text⟩⟩]⟩

/-- From the text to anything that carries it. -/
def query : FlowQuery where
  start := ⟨[.expr text, .stmt ⟨1, .expr text⟩, .stmt ⟨2, .forLoop [] none [] ⟨1, .expr text⟩⟩,
    .block body]⟩
  limits := { maxDepth := 2, maxLoopIterations := 1 }

def spec : FlowSpec where
  kind := .value
  isSource _ := true
  isSink _ := true
  sanitizes := none

/-- Where the text stands. -/
def place : Occurrence := ⟨text, query.start⟩

/-- No course gets to the end of the body. -/
theorem course_circles {course : Step Ending}
    (mem : course ∈ spec.courses text [.block body] body) : course.value = .circles := by
  unfold FlowSpec.courses body at mem
  rw [FlowSpec.execAllWays, FlowSpec.execWays, FlowSpec.execAllWays, pure_bind] at mem
  obtain ⟨a, around, b, hb, rfl⟩ := mem
  have circles : a.value = .circles := by
    refine Rounds.circles ?_ around
    intro live _ h
    obtain ⟨r, hr, t, ht, rfl⟩ := h
    rw [FlowSpec.execWays] at hr
    obtain ⟨_, _, _, rfl, rfl⟩ := hr
    obtain ⟨_, _, _, rfl, rfl⟩ := ht
    rfl
  rw [circles] at hb
  obtain rfl : b = _ := hb
  rfl

/-- The text is found, although no course that leaves its loops carries it: not
all that is found is on such a course. -/
theorem sinks_not_iff_finished :
    ¬ ∀ (query : FlowQuery) (spec : FlowSpec) (source : Expr) (index : Nat) (body : Block),
      query.start.value? = some (.expr source) → spec.isSource ⟨source, query.start⟩ = true →
      query.start.outerBody? = some (index, body) →
      (∀ n ∈ (Node.block body).own, n.isTry = false) → body.Unshared →
      (Node.block body).nesting ≤ query.limits.maxDepth →
      2 * body.localNames.length + 1 ≤ query.limits.maxLoopIterations → ∀ node : Occurrence,
      (node ∈ (query.findSinks spec).sinks ↔ spec.isSink node = true ∧
        ∃ course ∈ spec.courses source (query.start.upTo (index + 1)).outward body,
          course.value ≠ .circles ∧ node ∈ course.carried) := by
  intro claim
  have found : place ∈ (query.findSinks spec).sinks := by
    have : (query.findSinks spec).sinks = [place] := rfl
    rw [this]
    exact List.mem_cons_self
  obtain ⟨_, course, mem, finished, _⟩ := (claim query spec text 0 body rfl rfl rfl
    (by decide +kernel) (by unfold Block.Unshared; decide +kernel) (by decide +kernel)
    (by decide +kernel) place).mp found
  exact finished (course_circles mem)

/-- The text is found on a course that goes round the loop. -/
theorem mem_sinks_endless :
    (∀ n ∈ (Node.block body).own, n.isTry = false) ∧ body.Unshared ∧
      (Node.block body).nesting ≤ query.limits.maxDepth ∧
      2 * body.localNames.length + 1 ≤ query.limits.maxLoopIterations ∧
      (place ∈ (query.findSinks spec).sinks ↔ spec.isSink place = true ∧
        ∃ course ∈ spec.courses text (query.start.upTo 1).outward body,
          place ∈ course.carried) := by
  have noTry : ∀ n ∈ (Node.block body).own, n.isTry = false := by decide +kernel
  have unshared : body.Unshared := by unfold Block.Unshared; decide +kernel
  have deep : (Node.block body).nesting ≤ query.limits.maxDepth := by decide +kernel
  have often : 2 * body.localNames.length + 1 ≤ query.limits.maxLoopIterations := by
    decide +kernel
  exact ⟨noTry, unshared, deep, often,
    FlowQuery.mem_sinks_iff rfl rfl rfl noTry unshared deep often place⟩

end EndlessLoop

end JavaMend
