import JavaMend.Proofs.Flow.Comparison
import JavaMend.Proofs.Flow.Sinks
import JavaMend.Proofs.Traversal.Surface
import Mathlib.Data.List.Flatten

/-!
# Anything made from a value

A query for anything made from the value finds all that a query for the value
itself finds. Step by step the wider run has all the locals live that the narrower
one has (`FlowState.Below`), and offers what the other offers
(`FlowRun.Included`).

Loops are where the two runs fall out of step: each stops as soon as the state at
its own head no longer changes. A wider run that goes on alone only adds to what
it has, and a narrower one that goes on alone can get nowhere: the wider run is at
rest because one more round from its head, or from any state below, brings back
nothing new.
-/

namespace JavaMend

variable {α β : Type}

/-! ## States -/

namespace FlowState

/-- Each local that is live in the first state is live in the second. -/
def Below (s s' : FlowState) : Prop := ∀ x, s.isLive x = true → s'.isLive x = true

variable {s s' t t' : FlowState} {e e' o o' : Option FlowState}

theorem Below.trans (h : s.Below s') (h' : s'.Below t) : s.Below t := fun x live => h' x (h x live)

theorem below_join_left (s t : FlowState) : s.Below (s.join t) := by
  intro x live
  rw [isLive_join, live, Bool.true_or]

theorem below_join_right (s t : FlowState) : t.Below (s.join t) := by
  intro x live
  rw [isLive_join, live, Bool.or_true]

theorem Below.join_le (h : s.Below t) (h' : s'.Below t) : (s.join s').Below t := by
  intro x live
  rw [isLive_join, Bool.or_eq_true] at live
  exact live.elim (h x) (h' x)

theorem Below.join (h : s.Below s') (h' : t.Below t') : (s.join t).Below (s'.join t') :=
  (h.trans (below_join_left s' t')).join_le (h'.trans (below_join_right s' t'))

theorem Below.assign {a b : Bool} (h : s.Below s') (value : a = true → b = true) (name : String) :
    (s.assign name a).Below (s'.assign name b) := by
  intro x live
  rw [isLive_assign] at live ⊢
  by_cases same : x = name
  · rw [if_pos same] at live ⊢
    exact value live
  · rw [if_neg same] at live ⊢
    exact h x live

theorem below_joinBack (s : FlowState) (back : Option FlowState) : s.Below (s.joinBack back) := by
  cases back with
  | none => exact fun _ => id
  | some b => exact below_join_left s b

/-- At rest, what comes back to the head is below it. -/
theorem below_of_rest {back : FlowState} (rest : (s.joinBack (some back) == s) = true) :
    back.Below s := by
  intro x live
  rw [← isLive_of_beq rest]
  exact below_join_right s back x live

/-- What leaves a loop in a further round of the lower run is counted already. -/
theorem merge_confined (before : Option.Rel Below e (merge e' o')) (more : Option.Rel Below o o') :
    Option.Rel Below (merge e o) (merge e' o') := by
  cases more with
  | none =>
    cases e <;> exact before
  | @some o o' below =>
    cases e' with
    | none =>
      cases before with
      | some before => exact .some (before.join_le below)
    | some e' =>
      cases before with
      | some before => exact .some (before.join_le (below.trans (below_join_right e' o')))

/-- What leaves a loop in a further round of the upper run comes on top. -/
theorem merge_outgrows (before : Option.Rel Below (merge e o) e') (more : Option.Rel Below o o') :
    Option.Rel Below (merge e o) (merge e' o') := by
  generalize merged : merge e o = r at before
  cases before with
  | none =>
    cases e with
    | none =>
      cases merged
      cases more
      exact .none
    | some e => cases o <;> cases merged
  | @some _ e' before =>
    cases o' with
    | none => exact .some before
    | some o' => exact .some (before.trans (below_join_left e' o'))

end FlowState

/-! ## Walks -/

namespace FlowRun

open FlowState

variable {left right run : FlowRun} {nodes : List Occurrence}

/-- The second walk offers what the first one offers, and both answer as `rel`
says. What they offer stands at one of `nodes`. -/
def Included (left right : FlowRun) (nodes : List Occurrence) (rel : α → α → Prop)
    (walk walk' : FlowM α) : Prop :=
  ∃ a log b more, left.Yields walk a log ∧ right.Yields walk' b more ∧ log ⊆ more ∧
    more ⊆ nodes ∧ rel a b

theorem included_pure {rel : α → α → Prop} {a b : α} (h : rel a b) :
    Included left right nodes rel (pure a) (pure b) :=
  ⟨a, [], b, [], yields_pure a, yields_pure b, List.Subset.refl _, List.nil_subset _, h⟩

theorem Included.bind {rel : α → α → Prop} {rel' : β → β → Prop} {walk walk' : FlowM α}
    {next next' : α → FlowM β} (h : Included left right nodes rel walk walk')
    (h' : ∀ a b, rel a b → Included left right nodes rel' (next a) (next' b)) :
    Included left right nodes rel' (walk >>= next) (walk' >>= next') := by
  obtain ⟨a, log₁, b, more₁, yields₁, yields₁', sub₁, inside₁, related⟩ := h
  obtain ⟨c, log₂, d, more₂, yields₂, yields₂', sub₂, inside₂, result⟩ := h' a b related
  refine ⟨c, log₁ ++ log₂, d, more₁ ++ more₂, yields₁.bind yields₂, yields₁'.bind yields₂', ?_,
    List.append_subset.mpr ⟨inside₁, inside₂⟩, result⟩
  exact List.append_subset.mpr ⟨List.subset_append_of_subset_left _ sub₁,
    List.subset_append_of_subset_right _ sub₂⟩

/-- A walk has one answer. -/
theorem Yields.answer_unique {walk : FlowM α} {a b : α} {log more : List Occurrence}
    (h : run.Yields walk a log) (h' : run.Yields walk b more) : a = b := by
  obtain ⟨_, walks⟩ := h
  obtain ⟨_, walks'⟩ := h'
  exact congrArg Prod.fst ((walks ⟨[], [], []⟩).symm.trans (walks' ⟨[], [], []⟩))

theorem mem_offered_foldl (identified : Identified nodes) (log : List Occurrence)
    (inside : log ⊆ nodes) {t : Trace} (h : t.Filtered run nodes) {o : Occurrence} :
    o ∈ (log.foldl run.offerTo t).offered ↔ o ∈ t.offered ∨ o ∈ log := by
  induction log generalizing t with
  | nil => exact (or_iff_left List.not_mem_nil).symm
  | cons node rest ih =>
    obtain ⟨mem, inside⟩ := List.cons_subset.mp inside
    rw [List.foldl_cons, ih inside (h.offerTo mem), mem_offered_offerTo identified h mem,
      List.mem_cons, or_assoc]

/-- A walk offers one set of expressions. -/
theorem Yields.log_unique (identified : Identified nodes) {walk : FlowM α} {a b : α}
    {log more : List Occurrence} (h : run.Yields walk a log) (h' : run.Yields walk b more)
    (inside : log ⊆ nodes) (inside' : more ⊆ nodes) : log ⊆ more := by
  obtain ⟨_, walks⟩ := h
  obtain ⟨_, walks'⟩ := h'
  have blank : (⟨[], [], []⟩ : Trace).Filtered run nodes :=
    ⟨rfl, fun o ho => (List.not_mem_nil ho).elim⟩
  have same : (log.foldl run.offerTo ⟨[], [], []⟩).offered =
      (more.foldl run.offerTo ⟨[], [], []⟩).offered :=
    congrArg (fun r => r.2.offered) ((walks ⟨[], [], []⟩).symm.trans (walks' ⟨[], [], []⟩))
  intro o ho
  have offered := (mem_offered_foldl identified log inside blank).mpr (.inr ho)
  rw [same, mem_offered_foldl identified more inside' blank] at offered
  exact offered.resolve_left List.not_mem_nil

/-- What assuming a condition does to the locals, in any state. -/
theorem assumeAtom_yields (run : FlowRun) (here : List Node) (e : Expr) (branch : Bool)
    (s : FlowState) :
    ∃ s', run.Yields (run.assumeAtom here e branch s) s' [] ∧
      ∀ x, s'.isLive x = (s.isLive x && !(run.spec.droppedBy here branch e).contains x) := by
  unfold assumeAtom FlowSpec.droppedBy
  cases run.spec.sanitizes with
  | none => exact ⟨s, yields_pure s, fun x => by simp⟩
  | some sanitizes =>
    by_cases dead : s.liveCount = 0
    · refine ⟨s, ?_, fun x => ?_⟩
      · simp only [dead, beq_self_eq_true, if_true]
        exact yields_pure s
      · rw [liveCount_eq_zero_iff.mp dead x, Bool.false_and]
    · have alive : (s.liveCount == 0) = false := by simpa using dead
      simp only [alive, Bool.false_eq_true, if_false]
      refine ⟨_, ⟨[(⟨e, ⟨here⟩⟩, branch)], fun t => rfl⟩, fun x => ?_⟩
      by_cases covers : sanitizes ⟨e, ⟨here⟩⟩ branch = true
      · simp only [covers, if_true]
        exact isLive_foldl_sanitize _
      · simp [covers]

/-- The comparison of a run and a wider one, among expressions at `nodes`. -/
def widening (left right : FlowRun) (nodes : List Occurrence) : Comparison left right where
  state := Below
  value a b := a = true → b = true
  walks := Included left right nodes
  offers o := o ∈ nodes
  writes _ := True

/-! ## Loops -/

section Loops

variable {turn turn' : FlowState → FlowM (Option FlowState × Option FlowState)}
  {r : Option FlowState × Option FlowState} {log more : List Occurrence} {head : FlowState}
  {exit exit' : Option FlowState} {n : Nat}

theorem yields_gather (turns : run.Yields (turn head) r log) (exit : Option FlowState) :
    run.Yields (gather turn head exit) (merge exit r.1, r.2) log := by
  rw [← List.append_nil log]
  exact turns.bind (yields_pure _)

/-- A last round. -/
theorem yields_iterate_rest (whole : run.stopAtFirst = false)
    (turns : run.Yields (turn head) r log) (rest : (head.joinBack r.2 == head) = true)
    (exit : Option FlowState) :
    run.Yields (run.iterate (gather turn) (n + 1) head exit) (merge exit r.1) log := by
  rw [iterate_succ, ← List.append_nil log]
  refine (yields_gather turns exit).bind ((yields_isDone whole).bind_silent ?_)
  simp only [rest, Bool.true_or, if_true]
  exact yields_pure _

/-- A round and those after it. -/
theorem yields_iterate_next (whole : run.stopAtFirst = false)
    (turns : run.Yields (turn head) r log) (moves : (head.joinBack r.2 == head) = false)
    (later : run.Yields (run.iterate (gather turn) n (head.joinBack r.2) (merge exit r.1))
      exit' more) :
    run.Yields (run.iterate (gather turn) (n + 1) head exit) exit' (log ++ more) := by
  rw [iterate_succ]
  refine (yields_gather turns exit).bind ((yields_isDone whole).bind_silent ?_)
  simp only [moves, Bool.or_self, Bool.false_eq_true, if_false]
  exact later

/-- The upper run goes on alone, from heads above one from which `o` leaves the loop
in the lower run. -/
theorem iterate_outgrows {low : FlowState} {e o : Option FlowState}
    (whole : run.stopAtFirst = false)
    (turns : ∀ s, low.Below s → ∃ r log, run.Yields (turn s) r log ∧ log ⊆ nodes ∧
      Option.Rel Below o r.1)
    (n : Nat) (above : low.Below head) (left_ : Option.Rel Below (merge e o) exit) :
    ∃ exit' log, run.Yields (run.iterate (gather turn) n head exit) exit' log ∧ log ⊆ nodes ∧
      Option.Rel Below (merge e o) exit' := by
  induction n generalizing head exit with
  | zero => exact ⟨exit, [], yields_pure _, List.nil_subset _, left_⟩
  | succ n ih =>
    obtain ⟨r, log, yields, inside, more⟩ := turns head above
    have grown := merge_outgrows left_ more
    by_cases rest : (head.joinBack r.2 == head) = true
    · exact ⟨_, log, yields_iterate_rest whole yields rest exit, inside, grown⟩
    · obtain ⟨exit', log', later, inside', related⟩ :=
        ih (above.trans (below_joinBack head r.2)) grown
      have moves := Bool.eq_false_iff.mpr rest
      exact ⟨exit', log ++ log', yields_iterate_next whole yields moves later,
        List.append_subset.mpr ⟨inside, inside'⟩, related⟩

/-- The lower run goes on alone, from heads below one at which the upper run is at
rest. -/
theorem iterate_confined {high : FlowState} {e o : Option FlowState} {all : List Occurrence}
    (whole : run.stopAtFirst = false)
    (turns : ∀ s, s.Below high → ∃ r log, run.Yields (turn s) r log ∧ log ⊆ all ∧
      Option.Rel Below r.1 o ∧ ∀ back ∈ r.2, back.Below high)
    (n : Nat) (below : head.Below high) (left_ : Option.Rel Below exit (merge e o)) :
    ∃ exit' log, run.Yields (run.iterate (gather turn) n head exit) exit' log ∧ log ⊆ all ∧
      Option.Rel Below exit' (merge e o) := by
  induction n generalizing head exit with
  | zero => exact ⟨exit, [], yields_pure _, List.nil_subset _, left_⟩
  | succ n ih =>
    obtain ⟨r, log, yields, inside, more, comes⟩ := turns head below
    have kept := merge_confined left_ more
    by_cases rest : (head.joinBack r.2 == head) = true
    · exact ⟨_, log, yields_iterate_rest whole yields rest exit, inside, kept⟩
    · have still : (head.joinBack r.2).Below high := by
        cases back : r.2 with
        | none => exact below
        | some b => exact below.join_le (comes b back)
      obtain ⟨exit', log', later, inside', related⟩ := ih still kept
      have moves := Bool.eq_false_iff.mpr rest
      exact ⟨exit', log ++ log', yields_iterate_next whole yields moves later,
        List.append_subset.mpr ⟨inside, inside'⟩, related⟩

/-- A loop is walked in either run until it comes to rest there, and the wider run
has it all. -/
theorem iterate_included (identified : Identified nodes) (whole : left.stopAtFirst = false)
    (whole' : right.stopAtFirst = false)
    (turns : ∀ s s', s.Below s' →
      Included left right nodes (widening left right nodes).Turn (turn s) (turn' s'))
    (n : Nat) {head' : FlowState} (below : head.Below head')
    (exits : Option.Rel Below exit exit') :
    Included left right nodes (Option.Rel Below) (left.iterate (gather turn) n head exit)
      (right.iterate (gather turn') n head' exit') := by
  induction n generalizing head head' exit exit' with
  | zero => exact included_pure exits
  | succ n ih =>
    obtain ⟨⟨o, b⟩, log, ⟨o', b'⟩, more, yields, yields', sub, inside, outs, backs⟩ :=
      turns head head' below
    have merged : Option.Rel Below (merge exit o) (merge exit' o') := by
      cases exits with
      | none => exact outs
      | some exits =>
        cases outs with
        | none => exact .some exits
        | some outs => exact .some (exits.join outs)
    by_cases rest : (head.joinBack b == head) = true
    · have first := yields_iterate_rest (n := n) whole yields rest exit
      by_cases rest' : (head'.joinBack b' == head') = true
      · exact ⟨_, log, _, more, first, yields_iterate_rest whole' yields' rest' exit', sub, inside,
          merged⟩
      · -- The wider run goes on; what the other had at its last round stays below.
        have alone : ∀ s, head.Below s → ∃ r log, right.Yields (turn' s) r log ∧ log ⊆ nodes ∧
            Option.Rel Below o r.1 := by
          intro s above
          obtain ⟨r, _, r', log', yields₁, yields₁', _, inside', related, _⟩ := turns head s above
          cases yields.answer_unique yields₁
          exact ⟨r', log', yields₁', inside', related⟩
        obtain ⟨last, more', later, inside', related⟩ := iterate_outgrows whole' alone n
          (below.trans (below_joinBack head' b')) merged
        exact ⟨_, log, last, more ++ more', first,
          yields_iterate_next whole' yields' (Bool.eq_false_iff.mpr rest') later,
          List.subset_append_of_subset_left _ sub, List.append_subset.mpr ⟨inside, inside'⟩,
          related⟩
    · have moves := Bool.eq_false_iff.mpr rest
      by_cases rest' : (head'.joinBack b' == head') = true
      · -- The narrower run goes on below a head at rest.
        have comes : ∀ back' ∈ b', back'.Below head' := by
          rintro back' rfl
          exact below_of_rest rest'
        have alone : ∀ s, s.Below head' → ∃ r log, left.Yields (turn s) r log ∧ log ⊆ more ∧
            Option.Rel Below r.1 o' ∧ ∀ back ∈ r.2, back.Below head' := by
          intro s low
          obtain ⟨r, log', r', more', yields₁, yields₁', sub', inside', related, returns⟩ :=
            turns s head' low
          cases yields'.answer_unique yields₁'
          refine ⟨r, log', yields₁, ?_, related, fun back came => ?_⟩
          · exact List.Subset.trans sub' (yields₁'.log_unique identified yields' inside' inside)
          · rw [Option.mem_def.mp came] at returns
            cases returns with
            | some lower => exact lower.trans (comes _ rfl)
        have low : (head.joinBack b).Below head' := by
          cases backs with
          | none => exact below
          | some lower => exact below.join_le (lower.trans (comes _ rfl))
        obtain ⟨last, log', later, sub', related⟩ := iterate_confined whole alone n low merged
        exact ⟨last, log ++ log', _, more, yields_iterate_next whole yields moves later,
          yields_iterate_rest whole' yields' rest' exit', List.append_subset.mpr ⟨sub, sub'⟩,
          inside, related⟩
      · have next : (head.joinBack b).Below (head'.joinBack b') := by
          cases backs with
          | none => exact below
          | some lower => exact below.join lower
        obtain ⟨last, log', last', more', later, later', sub', inside', related⟩ := ih next merged
        refine ⟨last, log ++ log', last', more ++ more',
          yields_iterate_next whole yields moves later,
          yields_iterate_next whole' yields' (Bool.eq_false_iff.mpr rest') later', ?_,
          List.append_subset.mpr ⟨inside, inside'⟩, related⟩
        exact List.append_subset.mpr ⟨List.subset_append_of_subset_left _ sub,
          List.subset_append_of_subset_right _ sub'⟩

end Loops

/-! ## The two runs -/

/-- The second run follows what the first one follows, if not more. -/
structure Widens (left right : FlowRun) : Prop where
  source : left.source = right.source
  limits : left.limits = right.limits
  sanitizes : left.spec.sanitizes = right.spec.sanitizes
  whole : left.stopAtFirst = false
  whole' : right.stopAtFirst = false
  taint : left.isTaint = true → right.isTaint = true

theorem widening_sound (identified : Identified nodes) (widens : Widens left right) :
    (widening left right nodes).Sound where
  source := widens.source
  maxDepth := congrArg _ widens.limits
  answer := included_pure
  seq := Included.bind
  isDone := ⟨false, [], false, [], yields_isDone widens.whole, yields_isDone widens.whole',
    List.Subset.refl _, List.nil_subset _, rfl⟩
  announce := by
    intro here e a b admitted value
    have one : [⟨e, ⟨here⟩⟩] ⊆ nodes := List.cons_subset.mpr ⟨admitted, List.nil_subset _⟩
    cases a with
    | true =>
      cases value rfl
      exact ⟨(), [⟨e, ⟨here⟩⟩], (), [⟨e, ⟨here⟩⟩], yields_offer here e, yields_offer here e,
        List.Subset.refl _, one, trivial⟩
    | false =>
      cases b with
      | true =>
        exact ⟨(), [], (), [⟨e, ⟨here⟩⟩], yields_pure (), yields_offer here e, List.nil_subset _,
          one, trivial⟩
      | false => exact included_pure trivial
  assumeAtom := by
    intro here e branch s s' below
    obtain ⟨t, yields, live⟩ := assumeAtom_yields left here e branch s
    obtain ⟨t', yields', live'⟩ := assumeAtom_yields right here e branch s'
    refine ⟨t, [], t', [], yields, yields', List.Subset.refl _, List.nil_subset _, fun x on => ?_⟩
    have dropped : left.spec.droppedBy here branch e = right.spec.droppedBy here branch e := by
      unfold FlowSpec.droppedBy
      rw [widens.sanitizes]
    rw [live, dropped, Bool.and_eq_true] at on
    rw [live', below x on.1, on.2]
    rfl
  iterate := by
    intro turn turn' head head' exit exit' turns below exits
    rw [widens.limits]
    exact iterate_included identified widens.whole widens.whole' turns _ below exits
  live x below := below x
  assign _ below value := below.assign value _
  join := Below.join
  refl _ := id
  or := by
    intro a b a' b' value value' either
    rw [Bool.or_eq_true] at either ⊢
    exact either.imp value value'
  mask := by
    intro a b value both
    rw [Bool.and_eq_true] at both ⊢
    exact both.imp widens.taint value

end FlowRun

/-! ## Trees -/

namespace Node

/-- No expression of a tree stands at two places of it. -/
def Unshared (n : Node) : Prop :=
  (n.subtree.filterMap expr?).Pairwise fun a b => a.id ≠ b.id

theorem own_sublist_subtree (n : Node) : n.own.Sublist n.subtree := by
  induction n using Node.inductionOn with
  | step n ih =>
    rw [own_eq, subtree_eq]
    refine List.Sublist.cons_cons n ?_
    split
    · exact List.nil_sublist _
    · exact List.Sublist.flatMap_right _ ih

end Node

/-- A body of a tree shares no expression if the tree does not. -/
theorem Block.unshared_of_tree {path : Path} {tree : Node} {index : Nat} {body : Block}
    (genuine : path.Genuine) (root : path.outward.getLast? = some tree)
    (inBody : path.outerBody? = some (index, body)) (unshared : tree.Unshared) :
    body.Unshared := by
  obtain ⟨front, back, split, -⟩ := Path.outerBody?_go_split inBody
  unfold Path.Genuine at genuine
  rw [split] at genuine root
  have above := Path.genuineList_right genuine
  have last : (Node.block body :: back).getLast? = some tree := by
    rwa [List.getLast?_append_of_ne_nil _ (List.cons_ne_nil _ _)] at root
  have inside : (Node.block body).own.Sublist tree.subtree :=
    (Node.own_sublist_subtree _).trans (Node.subtree_sublist_of_genuine above last)
  exact List.Pairwise.sublist (inside.filterMap _) unshared

/-! ## Queries -/

namespace FlowQuery

/-- In a tree in which no expression stands at two places, whatever the start, the
limits, the sources, sinks and guards: where the value itself gets, something made
from it gets too. -/
theorem sinks_value_subset_taint {query : FlowQuery} {tree : Node}
    (genuine : query.start.Genuine) (root : query.start.outward.getLast? = some tree)
    (unshared : tree.Unshared) (spec : FlowSpec) :
    (query.findSinks { spec with kind := .value }).sinks ⊆
      (query.findSinks { spec with kind := .taint }).sinks := by
  unfold findSinks trace
  split
  next source starts =>
    split
    next isSource =>
      split
      next index body inBody =>
        let left : FlowRun :=
          { spec := { spec with kind := .value }, limits := query.limits, source,
            stopAtFirst := false }
        let right : FlowRun := { left with spec := { spec with kind := .taint } }
        let above := (query.start.upTo (index + 1)).outward
        let nodes := body.occurrences above
        have identified : Identified nodes :=
          Block.identified_occurrences (Block.unshared_of_tree genuine root inBody unshared) above
        have sound := FlowRun.widening_sound identified
          (⟨rfl, rfl, rfl, rfl, rfl, fun _ => rfl⟩ : left.Widens right)
        have parts : ∀ stmt ∈ body.stmts,
            (left.widening right nodes).Walked above 0 (.stmt stmt) := by
          intro stmt hs
          refine sound.walked (.stmt stmt) above 0 ⟨fun o ho => ?_, fun _ _ _ _ => trivial⟩
          exact List.mem_flatMap.mpr ⟨stmt, hs, ho⟩
        obtain ⟨_, log, _, more, ⟨_, walks⟩, ⟨_, walks'⟩, sub, inside, -⟩ :=
          sound.execAll 0 body.stmts parts (fun _ live => live : FlowState.empty.Below .empty)
        intro o found
        replace found : o ∈ (left.execAll above 0 body.stmts .empty ⟨[], [], []⟩).2.sinks := found
        show o ∈ (right.execAll above 0 body.stmts .empty ⟨[], [], []⟩).2.sinks
        have blank : ∀ run : FlowRun, (⟨[], [], []⟩ : Trace).Filtered run nodes :=
          fun _ => ⟨rfl, fun o ho => (List.not_mem_nil ho).elim⟩
        rw [walks, mem_sinks_foldl identified log (List.Subset.trans sub inside) (blank left)]
          at found
        rw [walks', mem_sinks_foldl identified more inside (blank right)]
        exact ⟨found.1.imp_right (@sub o), found.2⟩
      · exact List.Subset.refl _
    · exact List.Subset.refl _
  · exact List.Subset.refl _

end FlowQuery

namespace GrowingText

/-- `"x"` -/
def text : Expr := ⟨0, .string, .literal (.string "x")⟩

/-- `s` -/
def read : Expr := ⟨1, .string, .ident "s" none⟩

/-- `s += "y"` -/
def growth : Expr :=
  ⟨2, .string, .assign (some .add) ⟨3, .string, .ident "s" none⟩
    ⟨4, .string, .literal (.string "y")⟩⟩

/-- `String s = "x";` -/
def declaration : Stmt := ⟨5, .declare ⟨[], "String", [⟨6, "s", .string, some text⟩]⟩⟩

/-- `while (true) { s; s += "y"; }` -/
def loop : Stmt :=
  ⟨7, .whileLoop ⟨8, .boolean, .literal (.boolean true)⟩
    ⟨9, .block ⟨10, false, [⟨11, .expr read⟩, ⟨12, .expr growth⟩]⟩⟩⟩

def body : Block := ⟨13, false, [declaration, loop]⟩

def method : Stmt := ⟨14, .method ⟨[], some "void", "grow", [], []⟩ (some body)⟩

def cls : ClassDecl := ⟨15, ⟨[], "Text", .known "Text"⟩, ⟨16, false, [method]⟩⟩

def unit : CompilationUnit := ⟨17, none, [], [cls]⟩

def query : FlowQuery where
  start := ⟨[.expr text, .var ⟨6, "s", .string, some text⟩, .stmt declaration, .block body,
    .stmt method, .block cls.body, .cls cls, .unit unit]⟩
  limits := { maxDepth := 4, maxLoopIterations := 2 }

/-- To anything that carries the text. -/
def spec : FlowSpec where
  kind := .value
  isSource _ := true
  isSink _ := true
  sanitizes := none

theorem genuine : query.start.Genuine := by
  refine ⟨?_, ?_, ?_, ?_, ?_, ?_, ?_, trivial⟩ <;> exact List.mem_cons_self

theorem unshared : (Node.unit unit).Unshared := by
  unfold Node.Unshared
  decide +kernel

/-- The loop comes to rest in either query, in different states: the assignment ends
the flow of the value itself. -/
theorem mem_sinks_taint :
    query.start.Genuine ∧ query.start.outward.getLast? = some (.unit unit) ∧
      (Node.unit unit).Unshared ∧
      (query.findSinks { spec with kind := .value }).sinks.map (·.expr.id) = [0, 1] ∧
      (query.findSinks { spec with kind := .value }).sinks ⊆
        (query.findSinks { spec with kind := .taint }).sinks :=
  ⟨genuine, rfl, unshared, by decide +kernel,
    FlowQuery.sinks_value_subset_taint genuine rfl unshared spec⟩

example : (query.findSinks { spec with kind := .taint }).sinks.map (·.expr.id) = [0, 1, 2] := by
  decide +kernel

end GrowingText

end JavaMend
