import JavaMend.Proofs.Flow.Widening

/-!
# Parts of a walk

A run that does not stop early is steady: what a walk answers and what it offers does
not depend on what was found before (`FlowRun.steady_exec`). So a walk can be taken
apart. `FlowRun.Comes` says that a walk comes to a certain part and goes on from its
answer, wherever in a body the part stands; and what the part offers is found
(`FlowQuery.mem_sinks_of_offers`).
-/

namespace JavaMend

variable {α β γ δ : Type}

/-- What a walk answers if nothing was found before. -/
def FlowM.answer (walk : FlowM α) : α := (walk ⟨[], [], []⟩).1

namespace FlowRun

variable {run : FlowRun} {above : List Node} {depth : Nat} {s : FlowState}

theorem Yields.answer {walk : FlowM α} {a : α} {log : List Occurrence}
    (h : run.Yields walk a log) : FlowM.answer walk = a := by
  obtain ⟨_, walks⟩ := h
  exact congrArg Prod.fst (walks ⟨[], [], []⟩)

/-- What follows a walk follows its answer. -/
theorem Yields.bind_eq {walk : FlowM α} {a : α} {log : List Occurrence}
    (h : run.Yields walk a log) (next : α → FlowM β) :
    walk >>= next = walk >>= fun _ => next a := by
  obtain ⟨_, walks⟩ := h
  funext t
  show StateT.bind walk next t = StateT.bind walk (fun _ => next a) t
  simp only [StateT.bind, walks]
  rfl

/-! ## Steady walks -/

/-- Whatever was found before, the walk answers and offers the same. -/
def Steady (run : FlowRun) (walk : FlowM α) : Prop := ∃ a log, run.Yields walk a log

theorem steady_pure (a : α) : run.Steady (pure a) := ⟨a, [], yields_pure a⟩

theorem Steady.bind {walk : FlowM α} {next : α → FlowM β} (first : run.Steady walk)
    (more : ∀ a, run.Steady (next a)) : run.Steady (walk >>= next) := by
  obtain ⟨a, log, yields⟩ := first
  obtain ⟨b, log', yields'⟩ := more a
  exact ⟨b, log ++ log', yields.bind yields'⟩

/-- A steady walk yields what it answers. -/
theorem Steady.yields_answer {walk : FlowM α} (h : run.Steady walk) :
    ∃ log, run.Yields walk (FlowM.answer walk) log := by
  obtain ⟨a, log, yields⟩ := h
  exact ⟨log, yields.answer ▸ yields⟩

theorem Steady.answer_bind {walk : FlowM α} {next : α → FlowM β} (first : run.Steady walk)
    (more : run.Steady (next (FlowM.answer walk))) :
    FlowM.answer (walk >>= next) = FlowM.answer (next (FlowM.answer walk)) := by
  obtain ⟨log, yields⟩ := first.yields_answer
  obtain ⟨log', yields'⟩ := more.yields_answer
  exact (yields.bind yields').answer

theorem Steady.answer_map {walk : FlowM α} (h : run.Steady walk) (f : α → β) :
    FlowM.answer (walk >>= fun a => pure (f a)) = f (FlowM.answer walk) :=
  h.answer_bind (steady_pure (f (FlowM.answer walk)))

/-- A run compared with itself: from one state, two walks are steady and have one
answer. -/
def itself (run : FlowRun) : Comparison run run where
  state := Eq
  value := Eq
  walks rel walk walk' := ∃ a log b more, run.Yields walk a log ∧ run.Yields walk' b more ∧ rel a b
  offers _ := True
  writes _ := True

/-- Loops with the same turns come to rest together. -/
theorem iterate_alike (whole : run.stopAtFirst = false)
    {turn turn' : FlowState → FlowM (Option FlowState × Option FlowState)}
    (turns : ∀ s, ∃ r log more, run.Yields (turn s) r log ∧ run.Yields (turn' s) r more) (n : Nat)
    (head : FlowState) (exit : Option FlowState) :
    ∃ last log more, run.Yields (run.iterate (gather turn) n head exit) last log ∧
      run.Yields (run.iterate (gather turn') n head exit) last more := by
  induction n generalizing head exit with
  | zero => exact ⟨exit, [], [], yields_pure exit, yields_pure exit⟩
  | succ n ih =>
    obtain ⟨r, log, more, yields, yields'⟩ := turns head
    by_cases rest : (head.joinBack r.2 == head) = true
    · exact ⟨_, log, more, yields_iterate_rest whole yields rest exit,
        yields_iterate_rest whole yields' rest exit⟩
    · have moves := Bool.eq_false_iff.mpr rest
      obtain ⟨last, log', more', later, later'⟩ :=
        ih (head.joinBack r.2) (FlowState.merge exit r.1)
      exact ⟨last, log ++ log', more ++ more', yields_iterate_next whole yields moves later,
        yields_iterate_next whole yields' moves later'⟩

theorem itself_sound (whole : run.stopAtFirst = false) : run.itself.Sound where
  source := rfl
  maxDepth := rfl
  answer related := ⟨_, [], _, [], yields_pure _, yields_pure _, related⟩
  seq := by
    intro α β rel rel' walk walk' next next' first more
    obtain ⟨a, log₁, b, more₁, yields₁, yields₁', related⟩ := first
    obtain ⟨c, log₂, d, more₂, yields₂, yields₂', related'⟩ := more a b related
    exact ⟨c, _, d, _, yields₁.bind yields₂, yields₁'.bind yields₂', related'⟩
  isDone := ⟨false, [], false, [], yields_isDone whole, yields_isDone whole, rfl⟩
  announce := by
    intro here e a b _ same
    have steady : run.Steady (run.announce here e a) := by
      cases a with
      | true => exact ⟨(), _, yields_offer here e⟩
      | false => exact steady_pure ()
    obtain ⟨_, log, yields⟩ := steady
    cases same
    exact ⟨_, log, _, log, yields, yields, trivial⟩
  assumeAtom := by
    intro here e branch s s' same
    cases same
    obtain ⟨t, yields, _⟩ := assumeAtom_yields run here e branch s
    exact ⟨t, [], t, [], yields, yields, rfl⟩
  iterate := by
    intro turn turn' head head' exit exit' turns same same'
    cases same
    cases rel_eq_iff.mp same'
    have alike (s : FlowState) :
        ∃ r log more, run.Yields (turn s) r log ∧ run.Yields (turn' s) r more := by
      obtain ⟨r, log, r', more, yields, yields', outs, backs⟩ := turns s s rfl
      have one : r = r' := Prod.ext (rel_eq_iff.mp outs) (rel_eq_iff.mp backs)
      exact ⟨r, log, more, yields, one ▸ yields'⟩
    obtain ⟨last, log, more, yields, yields'⟩ :=
      iterate_alike whole alike run.limits.maxLoopIterations head exit
    exact ⟨last, log, last, more, yields, yields', rel_eq_iff.mpr rfl⟩
  live x same := congrArg (FlowState.isLive · x) same
  assign _ same same' := congrArg₂ (FlowState.assign · _ ·) same same'
  join same same' := congrArg₂ FlowState.join same same'
  refl _ := rfl
  or same same' := congrArg₂ (· || ·) same same'
  mask same := congrArg (run.isTaint && ·) same

theorem admits_itself (above : List Node) (n : Node) : run.itself.Admits above n :=
  ⟨fun _ _ => trivial, fun _ _ _ _ => trivial⟩

theorem steady_of_itself {rel : α → α → Prop} {walk walk' : FlowM α}
    (h : run.itself.walks rel walk walk') : run.Steady walk := by
  obtain ⟨a, log, _, _, yields, _⟩ := h
  exact ⟨a, log, yields⟩

theorem steady_eval (whole : run.stopAtFirst = false) (e : Expr) :
    run.Steady (run.eval above e s) :=
  steady_of_itself ((itself_sound whole).eval e above (admits_itself _ _) rfl)

theorem steady_declare (whole : run.stopAtFirst = false) (vars : List Variable) :
    run.Steady (run.declare above vars s) :=
  steady_of_itself ((itself_sound whole).declare vars (fun _ _ => admits_itself _ _) rfl)

theorem steady_exec (whole : run.stopAtFirst = false) (stmt : Stmt) :
    run.Steady (run.exec above depth stmt s) :=
  steady_of_itself ((itself_sound whole).walked (.stmt stmt) above depth (admits_itself _ _) s s rfl)

theorem steady_execBlock (whole : run.stopAtFirst = false) (block : Block) :
    run.Steady (run.execBlock above depth block s) :=
  steady_of_itself
    ((itself_sound whole).walked (.block block) above depth (admits_itself _ _) s s rfl)

theorem steady_execAll (whole : run.stopAtFirst = false) (stmts : List Stmt) :
    run.Steady (run.execAll above depth stmts s) := by
  have sound := itself_sound whole
  exact steady_of_itself (sound.execAll depth stmts
    (fun stmt _ => sound.walked (.stmt stmt) above depth (admits_itself _ _)) rfl)

theorem execAll_cons (whole : run.stopAtFirst = false) (stmt : Stmt) (rest : List Stmt) :
    run.execAll above depth (stmt :: rest) s = run.isDone >>= fun _ =>
      run.exec above depth stmt s >>= fun first => match first.normal with
        | none => pure first
        | some t => run.execAll above depth rest t >>= fun next => pure (first.after next) := by
  rw [execAll, (yields_isDone whole).bind_eq]
  rfl

theorem steady_rest (whole : run.stopAtFirst = false) (rest : List Stmt) (first : Exits) :
    run.Steady (match first.normal with
      | none => pure first
      | some t => run.execAll above depth rest t >>= fun next => pure (first.after next)) := by
  cases first.normal with
  | none => exact steady_pure first
  | some t => exact (steady_execAll whole rest).bind fun _ => steady_pure _

/-- Control falls out of statements where it falls out of the first and then out of the
others. -/
theorem normal_execAll_cons (whole : run.stopAtFirst = false) (stmt : Stmt) (rest : List Stmt) :
    (FlowM.answer (run.execAll above depth (stmt :: rest) s)).normal =
      (FlowM.answer (run.exec above depth stmt s)).normal.bind fun t =>
        (FlowM.answer (run.execAll above depth rest t)).normal := by
  have walked : run.Steady (run.exec above depth stmt s) := steady_exec whole stmt
  rw [execAll_cons whole,
    Steady.answer_bind ⟨_, _, yields_isDone whole⟩ (walked.bind (steady_rest whole rest)),
    walked.answer_bind (steady_rest whole rest _)]
  cases falls : (FlowM.answer (run.exec above depth stmt s)).normal with
  | none => exact falls
  | some t =>
    dsimp only
    rw [(steady_execAll whole rest).answer_map]
    rfl

theorem normal_execAll_append (whole : run.stopAtFirst = false) (front rest : List Stmt) :
    (FlowM.answer (run.execAll above depth (front ++ rest) s)).normal =
      (FlowM.answer (run.execAll above depth front s)).normal.bind fun t =>
        (FlowM.answer (run.execAll above depth rest t)).normal := by
  induction front generalizing s with
  | nil =>
    have here : (FlowM.answer (run.execAll above depth [] s)).normal = some s := by
      rw [execAll]
      rfl
    rw [here]
    rfl
  | cons stmt front ih =>
    rw [List.cons_append, normal_execAll_cons whole, normal_execAll_cons whole, Option.bind_assoc]
    simp only [ih]

theorem steady_execCatches (whole : run.stopAtFirst = false)
    (clauses : List (CatchClause Variable Block)) (out : Exits) :
    run.Steady (run.execCatches above depth clauses s out) := by
  have sound := itself_sound whole
  have same (s : Option FlowState) : Option.Rel Eq s s := rel_eq_iff.mpr rfl
  exact steady_of_itself (sound.execCatches (fun _ _ => trivial)
    (fun clause _ => sound.walked (.block clause.body) above depth (admits_itself _ _)) rfl
    ⟨same out.normal, same out.breaks, same out.continues⟩)

theorem steady_execFinish (whole : run.stopAtFirst = false) (finish : Option Block) (out : Exits) :
    run.Steady (run.execFinish above depth finish s out) := by
  have sound := itself_sound whole
  have same (s : Option FlowState) : Option.Rel Eq s s := rel_eq_iff.mpr rfl
  exact steady_of_itself (sound.execFinish
    (fun block _ => sound.walked (.block block) above depth (admits_itself _ _)) rfl
    ⟨same out.normal, same out.breaks, same out.continues⟩)

/-! ## Parts -/

/-- The walk `whole` comes to the walk `part`, and goes on as `after` from what that
answers. -/
structure Comes (run : FlowRun) (part : FlowM β) (after : β → FlowM γ) (whole : FlowM γ) :
    Prop where
  split : ∃ before log, run.Yields before () log ∧ whole = before >>= fun _ => part >>= after
  goesOn : ∀ b, run.Steady (after b)

section Comes

variable {part : FlowM β} {after : β → FlowM γ} {whole : FlowM γ}

theorem comes_first (part : FlowM β) (goesOn : ∀ b, run.Steady (after b)) :
    run.Comes part after (part >>= after) :=
  ⟨⟨pure (), [], yields_pure (), rfl⟩, goesOn⟩

/-- A part of what follows. -/
theorem Comes.later {walk : FlowM α} {next : α → FlowM γ} (first : run.Steady walk)
    (h : run.Comes part after (next (FlowM.answer walk))) : run.Comes part after (walk >>= next) := by
  obtain ⟨⟨before, log, yields, split⟩, goesOn⟩ := h
  obtain ⟨log', yields'⟩ := first.yields_answer
  refine ⟨⟨walk >>= fun _ => before, log' ++ log, yields'.bind yields, ?_⟩, goesOn⟩
  rw [yields'.bind_eq, split, bind_assoc]

/-- A part of what comes first. -/
theorem Comes.followed {next : γ → FlowM δ} (h : run.Comes part after whole)
    (more : ∀ c, run.Steady (next c)) :
    run.Comes part (fun b => after b >>= next) (whole >>= next) := by
  obtain ⟨⟨before, log, yields, rfl⟩, goesOn⟩ := h
  refine ⟨⟨before, log, yields, ?_⟩, fun b => (goesOn b).bind more⟩
  simp only [bind_assoc]

/-- A part of a part. -/
theorem Comes.trans {inner : FlowM α} {next : α → FlowM β} (h : run.Comes inner next part)
    (h' : run.Comes part after whole) :
    run.Comes inner (fun a => next a >>= after) whole := by
  obtain ⟨⟨before, log, yields, rfl⟩, goesOn⟩ := h'
  obtain ⟨⟨before', log', yields', rfl⟩, goesOn'⟩ := h
  refine ⟨⟨before >>= fun _ => before', log ++ log', yields.bind yields', ?_⟩,
    fun a => (goesOn' a).bind goesOn⟩
  simp only [bind_assoc]

/-- The whole offers what the part offers, and what is offered after it. -/
theorem Comes.yields {b : β} {c : γ} {log more : List Occurrence} (h : run.Comes part after whole)
    (inner : run.Yields part b log) (outer : run.Yields (after b) c more) :
    ∃ log', run.Yields whole c (log' ++ (log ++ more)) := by
  obtain ⟨⟨before, log', yields, rfl⟩, _⟩ := h
  exact ⟨log', yields.bind (inner.bind outer)⟩

end Comes

/-- Statements are come to as far as control gets. -/
theorem comes_execAll (whole : run.stopAtFirst = false) (front : List Stmt) (stmt : Stmt)
    (rest : List Stmt) {t : FlowState}
    (reached : (FlowM.answer (run.execAll above depth front s)).normal = some t) :
    ∃ after, run.Comes (run.exec above depth stmt t) after
      (run.execAll above depth (front ++ stmt :: rest) s) := by
  have done : run.Steady run.isDone := ⟨_, _, yields_isDone whole⟩
  induction front generalizing s with
  | nil =>
    rw [execAll] at reached
    cases reached
    rw [List.nil_append, execAll_cons whole]
    exact ⟨_, .later done (comes_first _ (steady_rest whole rest))⟩
  | cons first front ih =>
    rw [normal_execAll_cons whole] at reached
    obtain ⟨t', falls, reached⟩ := Option.bind_eq_some_iff.mp reached
    obtain ⟨after, comes⟩ := ih reached
    obtain ⟨onward, comes⟩ : ∃ onward, run.Comes (run.exec above depth stmt t) onward
        (match (FlowM.answer (run.exec above depth first s)).normal with
          | none => pure (FlowM.answer (run.exec above depth first s))
          | some t => run.execAll above depth (front ++ stmt :: rest) t >>= fun next =>
            pure ((FlowM.answer (run.exec above depth first s)).after next)) := by
      rw [falls]
      exact ⟨_, comes.followed fun _ => steady_pure _⟩
    rw [List.cons_append, execAll_cons whole]
    exact ⟨onward, .later done (.later (steady_exec whole first) comes)⟩

/-! ## What is found -/

theorem offered_subset_offerTo (t : Trace) (node : Occurrence) :
    t.offered ⊆ (run.offerTo t node).offered := by
  unfold offerTo
  split
  · exact List.Subset.refl _
  · exact List.subset_append_left _ _

theorem offered_subset_foldl (log : List Occurrence) (t : Trace) :
    t.offered ⊆ (log.foldl run.offerTo t).offered := by
  induction log generalizing t with
  | nil => exact List.Subset.refl _
  | cons node rest ih => exact List.Subset.trans (offered_subset_offerTo t node) (ih _)

/-- Nothing is offered but what a walk offers. -/
theorem mem_of_offered_foldl {o : Occurrence} {log : List Occurrence} {t : Trace}
    (offered : o ∈ (log.foldl run.offerTo t).offered) : o ∈ t.offered ∨ o ∈ log := by
  induction log generalizing t with
  | nil => exact .inl offered
  | cons node rest ih =>
    rcases ih offered with offered | mem
    · unfold offerTo at offered
      split at offered
      · exact .inl offered
      · rcases List.mem_append.mp offered with offered | same
        · exact .inl offered
        · exact .inr (List.mem_cons.mpr (.inl (List.mem_singleton.mp same)))
    · exact .inr (List.mem_cons_of_mem _ mem)

/-- Of each expression that is offered, one place is kept. -/
theorem exists_offered_foldl {o : Occurrence} {log : List Occurrence} (mem : o ∈ log) (t : Trace) :
    ∃ kept ∈ (log.foldl run.offerTo t).offered, kept.expr.id = o.expr.id := by
  induction log generalizing t with
  | nil => cases mem
  | cons node rest ih =>
    rcases List.mem_cons.mp mem with rfl | mem
    · have kept : ∃ kept ∈ (run.offerTo t o).offered, kept.expr.id = o.expr.id := by
        unfold offerTo
        split
        · next seen =>
          obtain ⟨before, offered, same⟩ := List.any_eq_true.mp seen
          exact ⟨before, offered, eq_of_beq same⟩
        · exact ⟨o, List.mem_append_right _ List.mem_cons_self, rfl⟩
      obtain ⟨kept, offered, same⟩ := kept
      exact ⟨kept, offered_subset_foldl rest _ offered, same⟩
    · exact ih mem _

theorem filtered_nil {nodes : List Occurrence} : (⟨[], [], []⟩ : Trace).Filtered run nodes :=
  ⟨rfl, fun _ ho => (List.not_mem_nil ho).elim⟩

/-- What a walk offers does not depend on how its offers are counted. -/
theorem Yields.mem_of_mem {nodes : List Occurrence} (identified : Identified nodes)
    {walk : FlowM α} {a b : α} {log more : List Occurrence} (h : run.Yields walk a log)
    (h' : run.Yields walk b more) (inside : more ⊆ nodes) {o : Occurrence} (mem : o ∈ log)
    (stands : o ∈ nodes) : o ∈ more := by
  obtain ⟨_, walks⟩ := h
  obtain ⟨_, walks'⟩ := h'
  have same : (log.foldl run.offerTo ⟨[], [], []⟩).offered =
      (more.foldl run.offerTo ⟨[], [], []⟩).offered :=
    congrArg (fun r => r.2.offered) ((walks ⟨[], [], []⟩).symm.trans (walks' ⟨[], [], []⟩))
  obtain ⟨kept, offered, alike⟩ := exists_offered_foldl mem ⟨[], [], []⟩
  rw [same, mem_offered_foldl identified more inside filtered_nil] at offered
  have offered : kept ∈ more := offered.resolve_left List.not_mem_nil
  rwa [identified kept (inside offered) o stands alike] at offered

end FlowRun

/-! ## Queries -/

namespace FlowQuery

/-- The run of a query that asks for all sinks. -/
def run (query : FlowQuery) (spec : FlowSpec) (source : Expr) : FlowRun :=
  { spec, limits := query.limits, source, stopAtFirst := false }

/-- The query follows a source through a body below `above`, in which no expression
stands at two places. -/
structure Follows (query : FlowQuery) (spec : FlowSpec) (source : Expr) (above : List Node)
    (body : Block) : Prop where
  starts : query.start.value? = some (.expr source)
  isSource : spec.isSource ⟨source, query.start⟩ = true
  inBody : ∃ index, query.start.outerBody? = some (index, body) ∧
    above = (query.start.upTo (index + 1)).outward
  unshared : body.Unshared

/-- The walk of a query through a body. -/
def walk (query : FlowQuery) (spec : FlowSpec) (source : Expr) (above : List Node)
    (body : Block) : FlowM Exits :=
  (query.run spec source).execAll above 0 body.stmts .empty

variable {query : FlowQuery} {spec : FlowSpec} {source : Expr} {above : List Node} {body : Block}

/-- A run may be compared with itself to see what more live locals do. -/
theorem widens_run (query : FlowQuery) (spec : FlowSpec) (source : Expr) :
    (query.run spec source).Widens (query.run spec source) :=
  ⟨rfl, rfl, rfl, rfl, rfl, id⟩

theorem Follows.sound (follows : query.Follows spec source above body) :
    ((query.run spec source).widening (query.run spec source) (body.occurrences above)).Sound :=
  FlowRun.widening_sound (Block.identified_occurrences follows.unshared above)
    (widens_run query spec source)

theorem Follows.sinks_eq (follows : query.Follows spec source above body) :
    (query.findSinks spec).sinks = (query.walk spec source above body ⟨[], [], []⟩).2.sinks := by
  obtain ⟨index, inBody, rfl⟩ := follows.inBody
  unfold findSinks trace
  simp only [follows.starts, follows.isSource, inBody, if_true]
  rfl

/-- A sink of the body that is offered is found. -/
theorem Follows.mem_sinks (follows : query.Follows spec source above body) {exits : Exits}
    {log : List Occurrence}
    (yields : (query.run spec source).Yields (query.walk spec source above body) exits log)
    {o : Occurrence} (mem : o ∈ log) (stands : o ∈ body.occurrences above)
    (sink : spec.isSink o = true) : o ∈ (query.findSinks spec).sinks := by
  have identified := Block.identified_occurrences follows.unshared above
  have parts (stmt : Stmt) (hs : stmt ∈ body.stmts) :
      ((query.run spec source).widening (query.run spec source) (body.occurrences above)).Walked
        above 0 (.stmt stmt) := by
    apply follows.sound.walked
    exact ⟨fun o ho => List.mem_flatMap.mpr ⟨stmt, hs, ho⟩, fun _ _ _ _ => trivial⟩
  obtain ⟨_, _, _, more, _, yields', _, inside, _⟩ :=
    follows.sound.execAll 0 body.stmts parts (fun _ live => live : FlowState.empty.Below .empty)
  have offered : o ∈ more := yields.mem_of_mem identified yields' inside mem stands
  obtain ⟨_, walks⟩ := yields'
  rw [follows.sinks_eq, walk, walks, mem_sinks_foldl identified more inside FlowRun.filtered_nil]
  exact ⟨.inr offered, sink⟩

end FlowQuery

end JavaMend
