import JavaMend.Proofs.Flow.Exact

/-!
# Expressions are walked exactly

Conditions first: what a walk assumes of a branch is what a course drops there.
Then one lemma for each way in which an expression puts its parts together, and
from these `FlowRun.eval_exact`, by induction over the expression.
-/

namespace JavaMend

namespace FlowRun

variable {run : FlowRun} {names : List String} {nodes : List Occurrence} {here above : List Node}

/-! ## Conditions -/

/-- What a walk of a condition does: it offers nothing and covers some locals. -/
def DropsFrom (run : FlowRun) (names dropped : List String)
    (walk : FlowState → FlowM FlowState) : Prop :=
  ∀ s, s.Within names → ∃ s', run.Yields (walk s) s' [] ∧ s'.Within names ∧
    ∀ x, s'.isLive x = (s.isLive x && !dropped.contains x)

theorem assumeAtom_drops (e : Expr) (branch : Bool) :
    run.DropsFrom names (run.spec.droppedBy here branch e) (run.assumeAtom here e branch) := by
  intro s within
  unfold assumeAtom FlowSpec.droppedBy
  cases run.spec.sanitizes with
  | none => exact ⟨s, yields_pure s, within, fun x => by simp⟩
  | some sanitizes =>
    by_cases dead : s.liveCount = 0
    · -- A guard of nothing is not asked for, and has nothing to cover.
      refine ⟨s, ?_, within, fun x => ?_⟩
      · simp only [dead, beq_self_eq_true, if_true]
        exact yields_pure s
      · rw [FlowState.liveCount_eq_zero_iff.mp dead x, Bool.false_and]
    · have asked (s' : FlowState) : run.Yields (do
          modify fun t : Trace => { t with guards := t.guards ++ [(⟨e, ⟨here⟩⟩, branch)] }
          pure s') s' [] :=
        ⟨[(⟨e, ⟨here⟩⟩, branch)], fun t => rfl⟩
      have alive : (s.liveCount == 0) = false := by simpa using dead
      simp only [alive, Bool.false_eq_true, if_false]
      by_cases covers : sanitizes ⟨e, ⟨here⟩⟩ branch = true
      · simp only [covers, if_true]
        exact ⟨_, asked _, within.foldl_sanitize _, fun x => FlowState.isLive_foldl_sanitize _⟩
      · simp only [covers, Bool.false_eq_true, if_false]
        exact ⟨_, asked _, within, fun x => by simp⟩

theorem DropsFrom.bind {dropped more : List String} {walk walk' : FlowState → FlowM FlowState}
    (first : run.DropsFrom names dropped walk) (second : run.DropsFrom names more walk') :
    run.DropsFrom names (dropped ++ more) (fun s => walk s >>= walk') := by
  intro s within
  obtain ⟨s₁, yields₁, within₁, live₁⟩ := first s within
  obtain ⟨s₂, yields₂, within₂, live₂⟩ := second s₁ within₁
  refine ⟨s₂, yields₁.bind yields₂, within₂, fun x => ?_⟩
  rw [live₂, live₁, Bool.and_assoc, ← Bool.not_or, List.contains_eq_mem, List.contains_eq_mem,
    List.contains_eq_mem]
  congr 2
  simp only [List.mem_append, Bool.decide_or]

/-- A walk assumes of a branch what a course drops on it. -/
theorem assume_drops (above : List Node) (branch : Bool) (e : Expr) :
    run.DropsFrom names (run.spec.dropped above branch e) (run.assume above branch e) := by
  fun_induction FlowSpec.dropped run.spec above branch e with
  | case1 above branch id ty inner here ih =>
    simpa only [assume] using ih
  | case2 above branch id ty operand here ih =>
    simpa only [assume] using ih
  | case3 above branch id ty op left right both here ihLeft ihRight =>
    intro s within
    rw [assume, if_pos both]
    exact ihLeft.bind ihRight s within
  | case4 above branch id ty op left right single here =>
    intro s within
    rw [assume, if_neg single]
    exact assumeAtom_drops _ branch s within
  | case5 above branch e noParens noNot noBinary here =>
    intro s within
    have atom : run.assume above branch e s = run.assumeAtom (.expr e :: above) e branch s := by
      rw [assume] <;> assumption
    rw [atom]
    exact assumeAtom_drops e branch s within

theorem assume_exact (above : List Node) (branch : Bool) (e : Expr) :
    Exact run names nodes (AgreesState names) (run.assume above branch e)
      (Ways.drop (run.spec.dropped above branch e)) := by
  refine ⟨fun live => ⟨_, rfl⟩, fun s within => ?_⟩
  have drops : run.DropsFrom names _ _ := assume_drops above branch e
  obtain ⟨s', yields, within', live⟩ := drops s within
  refine ⟨s', [], yields, fun o ho => (List.not_mem_nil ho).elim, fun lives covers => ⟨?_, ?_⟩⟩
  · refine ⟨within', ?_, fun x => ?_⟩
    · obtain ⟨l, mem⟩ := covers.nonempty
      exact ⟨_, _, ⟨l, mem, _, rfl, rfl⟩, rfl⟩
    · rw [live, Bool.and_eq_true, covers.live]
      constructor
      · intro h
        obtain ⟨⟨l, mem, hl⟩, kept⟩ := h
        refine ⟨_, ⟨_, ⟨l, mem, _, rfl, rfl⟩, rfl⟩, ?_⟩
        exact Bool.and_eq_true_iff.mpr ⟨hl, kept⟩
      · intro h
        obtain ⟨_, ⟨_, ⟨l, mem, _, rfl, rfl⟩, rfl⟩, h⟩ := h
        obtain ⟨hl, kept⟩ := Bool.and_eq_true_iff.mp h
        exact ⟨⟨l, mem, hl⟩, kept⟩
  · intro o
    constructor
    · intro ho
      cases ho
    · intro h
      obtain ⟨l, mem, r, rfl, ho⟩ := h
      exact ho

/-! ## Putting values together -/

variable {walk walk₁ walk₂ : FlowState → FlowM (Bool × FlowState)} {ways ways₁ ways₂ : Ways Bool}

/-- A value carries the flow only if a part of it may hand it on and does. -/
theorem exact_mask (mask : Bool) (h : Exact run names nodes (AgreesValue names) walk ways) :
    Exact run names nodes (AgreesValue names)
      (fun s => walk s >>= fun r => pure (mask && r.1, r.2))
      (ways >>= fun value => pure (mask && value)) := by
  refine h.map (fun r => (mask && r.1, r.2)) (fun value => mask && value) ?_
  intro r ends agree
  have state : Prod.snd '' ((fun p : Bool × Live => (mask && p.1, p.2)) '' ends) =
      Prod.snd '' ends := by
    rw [Set.image_image]
  refine ⟨?_, ?_⟩
  · show Covers names r.2 _
    rw [state]
    exact agree.state
  · rw [Bool.and_eq_true, agree.value]
    constructor
    · intro h
      obtain ⟨on, p, mem, hp⟩ := h
      exact ⟨_, ⟨p, mem, rfl⟩, Bool.and_eq_true_iff.mpr ⟨on, hp⟩⟩
    · intro h
      obtain ⟨_, ⟨p, mem, rfl⟩, hp⟩ := h
      obtain ⟨on, hp⟩ := Bool.and_eq_true_iff.mp hp
      exact ⟨on, p, mem, hp⟩

/-- Two expressions one after the other: does one of them carry the flow? -/
theorem exact_or (first : Exact run names nodes (AgreesValue names) walk₁ ways₁)
    (second : Exact run names nodes (AgreesValue names) walk₂ ways₂) :
    Exact run names nodes (AgreesValue names)
      (fun s => walk₁ s >>= fun r₁ => walk₂ r₁.2 >>= fun r₂ => pure (r₁.1 || r₂.1, r₂.2))
      (ways₁ >>= fun a => ways₂ >>= fun b => pure (a || b)) := by
  refine ⟨first.total.bind fun a => second.total.bind fun b => Ways.total_pure _, ?_⟩
  intro s within
  obtain ⟨r₁, log₁, yields₁, inside₁, right₁⟩ := first.walks s within
  have between := (right₁ _ (covers_self within)).1.state
  obtain ⟨r₂, log₂, yields₂, inside₂, right₂⟩ := second.walks r₁.2 between.within
  refine ⟨(r₁.1 || r₂.1, r₂.2), log₁ ++ (log₂ ++ []),
    yields₁.bind (yields₂.bind (yields_pure _)), ?_, fun lives covers => ?_⟩
  · intro o ho
    rw [List.append_nil] at ho
    exact (List.mem_append.mp ho).elim (inside₁ o) (inside₂ o)
  obtain ⟨agree₁, carried₁⟩ := right₁ lives covers
  obtain ⟨agree₂, carried₂⟩ := right₂ _ agree₁.state
  refine ⟨⟨?_, ?_⟩, fun o => ?_⟩
  · show Covers names r₂.2 _
    rw [Ways.snd_ends_both]
    exact agree₂.state
  · rw [Bool.or_eq_true, agree₁.value, agree₂.value]
    constructor
    · intro h
      rcases h with ⟨_, ⟨live, mem, a, ha, rfl⟩, on⟩ |
        ⟨_, ⟨_, ⟨_, ⟨live, mem, a, ha, rfl⟩, rfl⟩, b, hb, rfl⟩, on⟩
      · obtain ⟨b, hb⟩ := second.total a.live
        exact ⟨_, ⟨live, mem, _, ⟨a, ha, _, ⟨b, hb, _, rfl, rfl⟩, rfl⟩, rfl⟩,
          Bool.or_eq_true_iff.mpr (.inl on)⟩
      · exact ⟨_, ⟨live, mem, _, ⟨a, ha, _, ⟨b, hb, _, rfl, rfl⟩, rfl⟩, rfl⟩,
          Bool.or_eq_true_iff.mpr (.inr on)⟩
    · intro h
      obtain ⟨_, ⟨live, mem, _, ⟨a, ha, _, ⟨b, hb, _, rfl, rfl⟩, rfl⟩, rfl⟩, on⟩ := h
      rcases Bool.or_eq_true_iff.mp on with on | on
      · exact .inl ⟨_, ⟨live, mem, a, ha, rfl⟩, on⟩
      · exact .inr ⟨_, ⟨_, ⟨_, ⟨live, mem, a, ha, rfl⟩, rfl⟩, b, hb, rfl⟩, on⟩
  · rw [Ways.carries_both, Ways.carries_then _ second.total, List.append_nil, List.mem_append,
      carried₁, carried₂, Set.mem_union]

/-- A read of a local carries the flow if the local does. -/
theorem exact_read (name : String) :
    Exact run names nodes (AgreesValue names) (fun s => pure (s.isLive name, s))
      (Ways.read name) := by
  refine ⟨fun live => ⟨_, rfl⟩, fun s within => ⟨_, [], yields_pure _, ?_, fun lives covers => ?_⟩⟩
  · intro o ho
    cases ho
  have ends : (Ways.read name).ends lives = (fun live => (live name, live)) '' lives := by
    ext p
    constructor
    · intro h
      obtain ⟨live, mem, _, rfl, rfl⟩ := h
      exact ⟨live, mem, rfl⟩
    · intro h
      obtain ⟨live, mem, rfl⟩ := h
      exact ⟨live, mem, _, rfl, rfl⟩
  rw [ends]
  refine ⟨⟨?_, ?_⟩, fun o => ⟨fun ho => (List.not_mem_nil ho).elim, ?_⟩⟩
  · show Covers names s _
    rwa [Set.image_image, Set.image_id']
  · rw [Set.exists_mem_image]
    exact covers.live name
  · intro h
    obtain ⟨live, mem, _, rfl, ho⟩ := h
    exact ho

theorem exact_store {name : String} (known : name ∈ names)
    (h : Exact run names nodes (AgreesValue names) walk ways) :
    Exact run names nodes (AgreesValue names)
      (fun s => walk s >>= fun r => pure (r.1, r.2.assign name r.1))
      (ways >>= fun value => Ways.assign name value >>= fun _ => pure value) := by
  refine ⟨h.total.bind fun a live => ⟨_, _, rfl, _, rfl, rfl⟩, fun s within => ?_⟩
  obtain ⟨r, log, yields, inside, right⟩ := h.walks s within
  refine ⟨_, log ++ [], yields.bind (yields_pure _), ?_, fun lives covers => ?_⟩
  · rw [List.append_nil]
    exact inside
  obtain ⟨agree, carried⟩ := right lives covers
  have ends : (ways >>= fun value => Ways.assign name value >>= fun _ => pure value).ends lives =
      (fun p : Bool × Live => (p.1, p.2.assign name p.1)) '' ways.ends lives := by
    ext p
    constructor
    · intro h
      obtain ⟨live, mem, _, ⟨q, hq, _, ⟨_, rfl, _, rfl, rfl⟩, rfl⟩, rfl⟩ := h
      exact ⟨_, ⟨live, mem, q, hq, rfl⟩, rfl⟩
    · intro h
      obtain ⟨_, ⟨live, mem, q, hq, rfl⟩, rfl⟩ := h
      exact ⟨live, mem, _, ⟨q, hq, _, ⟨_, rfl, _, rfl, rfl⟩, rfl⟩, rfl⟩
  rw [ends]
  refine ⟨⟨?_, ?_⟩, fun o => ?_⟩
  · show Covers names (r.2.assign name r.1) _
    rw [Set.image_image]
    exact agree.store known
  · rw [Set.exists_mem_image]
    exact agree.value
  · rw [List.append_nil, carried]
    constructor
    · intro h
      obtain ⟨live, mem, q, hq, ho⟩ := h
      exact ⟨live, mem, _, ⟨q, hq, _, ⟨_, rfl, _, rfl, rfl⟩, rfl⟩, List.mem_append_left _ ho⟩
    · intro h
      obtain ⟨live, mem, _, ⟨q, hq, _, ⟨_, rfl, _, rfl, rfl⟩, rfl⟩, ho⟩ := h
      rw [List.append_nil, List.append_nil] at ho
      exact ⟨live, mem, q, hq, ho⟩

theorem mem_settleWays {node : Occurrence} {isSource derived : Bool} {live : Live}
    {q : Step Bool} :
    q ∈ FlowSpec.settleWays node isSource derived live ↔
      q = ⟨derived || isSource, live, if derived || isSource then [node] else []⟩ := by
  unfold FlowSpec.settleWays
  cases derived || isSource with
  | false => exact Iff.rfl
  | true =>
    constructor
    · intro h
      obtain ⟨_, rfl, _, rfl, rfl⟩ := h
      rfl
    · rintro rfl
      exact ⟨_, rfl, _, rfl, rfl⟩

theorem ends_settleWays (ways : Ways Bool) (node : Occurrence) (isSource : Bool)
    (lives : Set Live) :
    (ways >>= FlowSpec.settleWays node isSource).ends lives =
      (fun p => (p.1 || isSource, p.2)) '' ways.ends lives := by
  ext p
  constructor
  · intro h
    obtain ⟨live, mem, _, ⟨a, ha, b, hb, rfl⟩, rfl⟩ := h
    rw [mem_settleWays.mp hb]
    exact ⟨_, ⟨live, mem, a, ha, rfl⟩, rfl⟩
  · intro h
    obtain ⟨_, ⟨live, mem, a, ha, rfl⟩, rfl⟩ := h
    exact ⟨live, mem, _, ⟨a, ha, _, mem_settleWays.mpr rfl, rfl⟩, rfl⟩

/-- Besides what carried the value before, the expression itself does. -/
theorem mem_carries_settleWays (ways : Ways Bool) (node : Occurrence) (isSource : Bool)
    (lives : Set Live) (o : Occurrence) :
    o ∈ (ways >>= FlowSpec.settleWays node isSource).carries lives ↔
      o ∈ ways.carries lives ∨ o = node ∧ ∃ p ∈ ways.ends lives, (p.1 || isSource) = true := by
  constructor
  · intro h
    obtain ⟨live, mem, _, ⟨a, ha, b, hb, rfl⟩, ho⟩ := h
    rw [mem_settleWays.mp hb] at ho
    rcases List.mem_append.mp ho with ho | ho
    · exact .inl ⟨live, mem, a, ha, ho⟩
    · by_cases on : (a.value || isSource) = true
      · simp only [on, if_true, List.mem_singleton] at ho
        exact .inr ⟨ho, _, ⟨live, mem, a, ha, rfl⟩, on⟩
      · simp only [on, Bool.false_eq_true, if_false, List.not_mem_nil] at ho
  · intro h
    rcases h with ⟨live, mem, a, ha, ho⟩ | ⟨rfl, _, ⟨live, mem, a, ha, rfl⟩, on⟩
    · exact ⟨live, mem, _, ⟨a, ha, _, mem_settleWays.mpr rfl, rfl⟩, List.mem_append_left _ ho⟩
    · refine ⟨live, mem, _, ⟨a, ha, _, mem_settleWays.mpr rfl, rfl⟩, List.mem_append_right _ ?_⟩
      rw [if_pos on]
      exact List.mem_cons_self

/-- The end of an evaluation. -/
theorem exact_settle (whole : run.stopAtFirst = false) {e : Expr}
    (inside : (⟨e, ⟨here⟩⟩ : Occurrence) ∈ nodes)
    (h : Exact run names nodes (AgreesValue names) walk ways) :
    Exact run names nodes (AgreesValue names)
      (fun s => run.isDone >>= fun done => if done = true then pure (false, s) else
        walk s >>= fun r => if (r.1 || e.same run.source) = true then
          run.offer here e >>= fun _ => pure (r.1 || e.same run.source, r.2)
        else pure (r.1 || e.same run.source, r.2))
      (ways >>= FlowSpec.settleWays ⟨e, ⟨here⟩⟩ (e.same run.source)) := by
  refine ⟨h.total.bind fun a live => ⟨_, mem_settleWays.mpr rfl⟩, fun s within => ?_⟩
  obtain ⟨r, log, yields, known, right⟩ := h.walks s within
  have tainted : ∀ lives, Covers names s lives →
      ((r.1 || e.same run.source) = true ↔
        ∃ p ∈ ways.ends lives, (p.1 || e.same run.source) = true) := by
    intro lives covers
    have agree := (right lives covers).1
    simp only [Bool.or_eq_true, agree.value]
    constructor
    · intro h
      rcases h with ⟨p, mem, on⟩ | on
      · exact ⟨p, mem, .inl on⟩
      · obtain ⟨_, p, mem, _⟩ := agree.state.nonempty
        exact ⟨p, mem, .inr on⟩
    · intro h
      obtain ⟨p, mem, on | on⟩ := h
      · exact .inl ⟨p, mem, on⟩
      · exact .inr on
  have agrees : ∀ lives, Covers names s lives →
      AgreesValue names (r.1 || e.same run.source, r.2)
        ((ways >>= FlowSpec.settleWays ⟨e, ⟨here⟩⟩ (e.same run.source)).ends lives) := by
    intro lives covers
    rw [ends_settleWays]
    refine ⟨?_, ?_⟩
    · show Covers names r.2 _
      rw [Set.image_image]
      exact (right lives covers).1.state
    · rw [Set.exists_mem_image]
      exact tainted lives covers
  by_cases on : (r.1 || e.same run.source) = true
  · refine ⟨_, log ++ ([⟨e, ⟨here⟩⟩] ++ []), (yields_isDone whole).bind_silent (yields.bind ?_), ?_,
      fun lives covers => ⟨agrees lives covers, fun o => ?_⟩⟩
    · rw [if_pos on]
      exact (yields_offer here e).bind (yields_pure _)
    · intro o ho
      rw [List.append_nil, List.mem_append, List.mem_singleton] at ho
      exact ho.elim (known o) fun same => same ▸ inside
    · rw [mem_carries_settleWays, List.append_nil, List.mem_append, List.mem_singleton,
        (right lives covers).2, ← tainted lives covers, and_iff_left on]
  · refine ⟨_, log ++ [], (yields_isDone whole).bind_silent (yields.bind ?_), ?_,
      fun lives covers => ⟨agrees lives covers, fun o => ?_⟩⟩
    · rw [if_neg on]
      exact yields_pure _
    · rw [List.append_nil]
      exact known
    · rw [mem_carries_settleWays, List.append_nil, (right lives covers).2,
        ← tainted lives covers]
      exact (or_iff_left fun both => on both.2).symm

/-! ## Expressions -/

/-- An expression is walked exactly. -/
def ExactAt (run : FlowRun) (names : List String) (nodes : List Occurrence) (above : List Node)
    (e : Expr) : Prop :=
  Exact run names nodes (AgreesValue names) (run.eval above e)
    (run.spec.evalWays run.source above e)

/-- A condition and what is done on either branch. -/
theorem exact_branches {α β : Type} {agrees : β → Set (α × Live) → Prop}
    {walk₁ walk₂ : FlowState → FlowM β} {ways₁ ways₂ : Ways α} {c : Expr} (meet : β → β → β)
    (union : ∀ a b ends₁ ends₂, agrees a ends₁ → agrees b ends₂ →
      agrees (meet a b) (ends₁ ∪ ends₂))
    (condition : run.ExactAt names nodes here c)
    (onTrue : Exact run names nodes agrees walk₁ ways₁)
    (onFalse : Exact run names nodes agrees walk₂ ways₂) :
    Exact run names nodes agrees
      (fun s => run.eval here c s >>= fun r =>
        (run.assume here true c r.2 >>= walk₁) >>= fun a =>
        (run.assume here false c r.2 >>= walk₂) >>= fun b => pure (meet a b))
      (run.spec.evalWays run.source here c >>= fun _ => Ways.either
        (Ways.drop (run.spec.dropped here true c) >>= fun _ => ways₁)
        (Ways.drop (run.spec.dropped here false c) >>= fun _ => ways₂)) :=
  condition.afterValue (Exact.fork meet union
    ((assume_exact here true c).afterState onTrue) ((assume_exact here false c).afterState onFalse))

/-- Courses on which nothing carries the value. -/
theorem agreesValue_false {s : FlowState} {lives : Set Live} (covers : Covers names s lives) :
    AgreesValue names (false, s) {p | p.1 = false ∧ p.2 ∈ lives} := by
  refine ⟨?_, ?_⟩
  · show Covers names s _
    have same : Prod.snd '' {p : Bool × Live | p.1 = false ∧ p.2 ∈ lives} = lives := by
      ext live
      exact ⟨fun ⟨p, h, same⟩ => same ▸ h.2, fun h => ⟨(false, live), ⟨rfl, h⟩, rfl⟩⟩
    rwa [same]
  · constructor
    · intro h
      cases h
    · intro h
      obtain ⟨p, h, on⟩ := h
      rw [h.1] at on
      cases on

theorem exact_false :
    Exact run names nodes (AgreesValue names) (fun s => pure (false, s)) (pure false) :=
  Exact.answer fun _ _ covers => agreesValue_false covers

theorem evalAny_exact {es : List Expr} (parts : ∀ e ∈ es, run.ExactAt names nodes above e) :
    Exact run names nodes (AgreesValue names) (run.evalAny above es)
      (run.spec.anyWays run.source above es) := by
  induction es with
  | nil => exact exact_false.congr (fun s => by rw [evalAny]) (by rw [FlowSpec.anyWays])
  | cons e rest ih =>
    have first := parts e List.mem_cons_self
    have more := ih fun c hc => parts c (List.mem_cons_of_mem _ hc)
    refine (exact_or first more).congr (fun s => ?_) ?_
    · rw [evalAny]
    · rw [FlowSpec.anyWays]

/-- An expression is walked exactly if its parts are. -/
theorem exactAt_of_children (whole : run.stopAtFirst = false) {e : Expr}
    (fits : (Node.expr e).Fits names nodes above)
    (parts : ∀ c ∈ e.children, run.ExactAt names nodes (.expr e :: above) c) :
    run.ExactAt names nodes above e := by
  have inside := fits.inside _ Node.mem_occurrences_self
  obtain ⟨id, ty, form⟩ := e
  cases form with
  | ident name owner =>
    cases owner with
    | none =>
      refine (exact_settle whole inside (exact_read name)).congr (fun s => ?_) ?_
      · rw [eval]
      · rw [FlowSpec.evalWays]
    | some owner =>
      refine (exact_settle whole inside exact_false).congr (fun s => ?_) ?_
      · rw [eval]
      · rw [FlowSpec.evalWays]
  | literal value =>
    refine (exact_settle whole inside exact_false).congr (fun s => ?_) ?_
    · rw [eval]
    · rw [FlowSpec.evalWays]
  | field target name =>
    have target_exact := parts target List.mem_cons_self
    refine (exact_settle whole inside (exact_mask run.isTaint target_exact)).congr
      (fun s => ?_) ?_
    · rw [eval]; rfl
    · rw [FlowSpec.evalWays]; rfl
  | call receiver name args method =>
    cases receiver with
    | none =>
      have args_exact := evalAny_exact parts
      refine (exact_settle whole inside (exact_mask run.isTaint args_exact)).congr (fun s => ?_) ?_
      · rw [eval]; rfl
      · rw [FlowSpec.evalWays]; rfl
    | some receiver =>
      have receiver_exact := parts receiver List.mem_cons_self
      have args_exact := evalAny_exact fun c hc => parts c (List.mem_cons_of_mem _ hc)
      have both := exact_mask run.isTaint (exact_or receiver_exact args_exact)
      refine (exact_settle whole inside both).congr (fun s => ?_) ?_
      · rw [eval]; rfl
      · rw [FlowSpec.evalWays]; simp only [bind_assoc, pure_bind]; rfl
  | create className args method =>
    have args_exact := evalAny_exact parts
    refine (exact_settle whole inside (exact_mask run.isTaint args_exact)).congr (fun s => ?_) ?_
    · rw [eval]; rfl
    · rw [FlowSpec.evalWays]; rfl
  | array element size =>
    have size_exact := parts size List.mem_cons_self
    refine (exact_settle whole inside (exact_mask false size_exact)).congr (fun s => ?_) ?_
    · rw [eval]; rfl
    · rw [FlowSpec.evalWays]; rfl
  | binary op left right =>
    have left_exact := parts left List.mem_cons_self
    have right_exact := parts right (List.mem_cons_of_mem _ List.mem_cons_self)
    have both := exact_mask (run.isTaint && op == .add && ty.isString)
      (exact_or left_exact right_exact)
    refine (exact_settle whole inside both).congr (fun s => ?_) ?_
    · rw [eval]; rfl
    · rw [FlowSpec.evalWays]; simp only [bind_assoc, pure_bind]; rfl
  | unary op operand =>
    have operand_exact := parts operand List.mem_cons_self
    refine (exact_settle whole inside (exact_mask false operand_exact)).congr (fun s => ?_) ?_
    · rw [eval]; rfl
    · rw [FlowSpec.evalWays]; rfl
  | assign op target value =>
    have value_exact := parts value (List.mem_cons_of_mem _ List.mem_cons_self)
    cases local_ : target.localName? with
    | none =>
      have target_exact := parts target List.mem_cons_self
      refine (exact_settle whole inside (target_exact.afterValue value_exact)).congr
        (fun s => ?_) ?_
      · rw [eval]; simp only [local_]; rfl
      · rw [FlowSpec.evalWays]; simp only [local_]
    | some name =>
      have known : name ∈ names := fits.plain.known _ Node.mem_own_self name local_
      cases op with
      | none =>
        have stored := exact_store known
          (exact_or (exact_mask false (exact_read name)) (exact_mask true value_exact))
        refine (exact_settle whole inside stored).congr (fun s => ?_) ?_
        · rw [eval]; simp only [local_]; rfl
        · rw [FlowSpec.evalWays]; simp only [local_, bind_assoc, pure_bind]; rfl
      | some op =>
        have stored := exact_store known (exact_or (exact_mask run.isTaint (exact_read name))
          (exact_mask run.isTaint value_exact))
        refine (exact_settle whole inside stored).congr (fun s => ?_) ?_
        · rw [eval]; simp only [local_, Bool.and_or_distrib_left]; rfl
        · rw [FlowSpec.evalWays]
          simp only [local_, bind_assoc, pure_bind, FlowSpec.assigns, Bool.and_or_distrib_left]; rfl
  | parens inner =>
    have inner_exact := parts inner List.mem_cons_self
    refine (exact_settle whole inside (exact_mask true inner_exact)).congr (fun s => ?_) ?_
    · rw [eval]; rfl
    · rw [FlowSpec.evalWays]; rfl
  | cast typeName operand =>
    have operand_exact := parts operand List.mem_cons_self
    refine (exact_settle whole inside (exact_mask true operand_exact)).congr (fun s => ?_) ?_
    · rw [eval]; rfl
    · rw [FlowSpec.evalWays]; rfl
  | ternary condition onTrue onFalse =>
    have condition_exact := parts condition List.mem_cons_self
    have onTrue_exact := parts onTrue (List.mem_cons_of_mem _ List.mem_cons_self)
    have onFalse_exact := parts onFalse
      (List.mem_cons_of_mem _ (List.mem_cons_of_mem _ List.mem_cons_self))
    have branches := exact_branches _ AgreesValue.union condition_exact onTrue_exact onFalse_exact
    refine (exact_settle whole inside branches).congr (fun s => ?_) ?_
    · rw [eval]; rfl
    · rw [FlowSpec.evalWays]

/-- Every expression of a body is walked exactly. -/
theorem eval_exact (whole : run.stopAtFirst = false) (e : Expr) (above : List Node)
    (fits : (Node.expr e).Fits names nodes above) : run.ExactAt names nodes above e :=
  exactAt_of_children whole fits fun c hc =>
    eval_exact whole c _ (fits.child rfl (List.mem_map_of_mem hc))
termination_by sizeOf e
decreasing_by exact Expr.sizeOf_lt_of_mem_children hc

end FlowRun

end JavaMend
