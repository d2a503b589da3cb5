import JavaMend.Proofs.Flow.Comparison

/-!
# Stopping at the first sink

A query that only asks whether a sink is reached stops its walk at the first one.
Up to there it does what the full walk does, so both come to the same first sink
or to none. Afterwards the two have nothing in common but what they found: neither
forgets a sink. `FlowM.FirstAlike` says both at once, and `FlowRun.stopping` makes
it a comparison of the two runs.
-/

namespace JavaMend

variable {α β : Type}

/-! ## Walks with the same first sink -/

/-- Both walks keep the sinks they find. From a trace without sinks both find the
same first sink, and do the same if they find none. -/
structure FlowM.FirstAlike (rel : α → α → Prop) (walk walk' : FlowM α) : Prop where
  keeps : ∀ t : Trace, t.sinks <+: (walk t).2.sinks
  keeps' : ∀ t : Trace, t.sinks <+: (walk' t).2.sinks
  /-- Every answer is one that the other walk might match. -/
  matched : ∀ t, ∃ b, rel (walk t).1 b
  matched' : ∀ t, ∃ a, rel a (walk' t).1
  first : ∀ t : Trace, t.sinks = [] → (walk t).2.sinks.head? = (walk' t).2.sinks.head?
  same : ∀ t : Trace, t.sinks = [] → (walk' t).2.sinks = [] →
    (walk t).2 = (walk' t).2 ∧ rel (walk t).1 (walk' t).1

namespace FlowM

variable {rel : α → α → Prop} {rel' : β → β → Prop}

theorem FirstAlike.answer {a b : α} (h : rel a b) :
    FirstAlike rel (pure a : FlowM α) (pure b) where
  keeps _ := List.prefix_rfl
  keeps' _ := List.prefix_rfl
  matched _ := ⟨b, h⟩
  matched' _ := ⟨a, h⟩
  first _ _ := rfl
  same _ _ _ := ⟨rfl, h⟩

/-- A walk that keeps its sinks, and itself. -/
theorem FirstAlike.refl {walk : FlowM α} (keeps : ∀ t : Trace, t.sinks <+: (walk t).2.sinks)
    (self : ∀ a, rel a a) : FirstAlike rel walk walk where
  keeps := keeps
  keeps' := keeps
  matched _ := ⟨_, self _⟩
  matched' _ := ⟨_, self _⟩
  first _ _ := rfl
  same _ _ _ := ⟨rfl, self _⟩

theorem FirstAlike.mono {weaker : α → α → Prop} {walk walk' : FlowM α}
    (h : FirstAlike rel walk walk') (imp : ∀ a b, rel a b → weaker a b) :
    FirstAlike weaker walk walk' where
  keeps := h.keeps
  keeps' := h.keeps'
  matched t := (h.matched t).imp fun _ => imp _ _
  matched' t := (h.matched' t).imp fun _ => imp _ _
  first := h.first
  same t clean none := (h.same t clean none).imp_right (imp _ _)

/-- What was first stays first. -/
theorem head?_of_prefix {l m : List Occurrence} {o : Occurrence} (kept : l <+: m)
    (first : l.head? = some o) : m.head? = some o := by
  obtain ⟨more, rfl⟩ := kept
  rw [List.head?_append, first]
  rfl

theorem FirstAlike.seq {walk walk' : FlowM α} {next next' : α → FlowM β}
    (h : FirstAlike rel walk walk')
    (h' : ∀ a b, rel a b → FirstAlike rel' (next a) (next' b)) :
    FirstAlike rel' (walk >>= next) (walk' >>= next') where
  keeps t := by
    obtain ⟨b, related⟩ := h.matched t
    exact (h.keeps t).trans ((h' _ b related).keeps _)
  keeps' t := by
    obtain ⟨a, related⟩ := h.matched' t
    exact (h.keeps' t).trans ((h' a _ related).keeps' _)
  matched t := by
    obtain ⟨b, related⟩ := h.matched t
    exact (h' _ b related).matched _
  matched' t := by
    obtain ⟨a, related⟩ := h.matched' t
    exact (h' a _ related).matched' _
  first t clean := by
    have firsts := h.first t clean
    cases found : (walk' t).2.sinks with
    | nil =>
      obtain ⟨traces, related⟩ := h.same t clean found
      show (next (walk t).1 (walk t).2).2.sinks.head? =
        (next' (walk' t).1 (walk' t).2).2.sinks.head?
      rw [traces]
      exact (h' _ _ related).first _ found
    | cons o rest =>
      -- Both have the sink `o` by now, and neither forgets it.
      rw [found] at firsts
      obtain ⟨b, related⟩ := h.matched t
      obtain ⟨a, related'⟩ := h.matched' t
      have kept := head?_of_prefix ((h' _ b related).keeps (walk t).2) firsts
      have kept' := head?_of_prefix ((h' a _ related').keeps' (walk' t).2)
        (show (walk' t).2.sinks.head? = some o by rw [found]; rfl)
      exact kept.trans kept'.symm
  same t clean none := by
    obtain ⟨a, related'⟩ := h.matched' t
    have kept : (walk' t).2.sinks <+: (next' (walk' t).1 (walk' t).2).2.sinks :=
      (h' a _ related').keeps' _
    have before : (walk' t).2.sinks = [] := List.prefix_nil.mp (none ▸ kept)
    obtain ⟨traces, related⟩ := h.same t clean before
    have after := (h' _ _ related).same (walk' t).2 before none
    show (next (walk t).1 (walk t).2).2 = _ ∧ rel' (next (walk t).1 (walk t).2).1 _
    rw [traces]
    exact after

end FlowM

namespace FlowRun

open FlowM

/-! ## Primitives -/

theorem offer_keeps (run : FlowRun) (here : List Node) (e : Expr) (t : Trace) :
    t.sinks <+: (run.offer here e t).2.sinks := by
  show t.sinks <+: (if t.offered.any (·.expr.same e) then t else _ : Trace).sinks
  split
  · exact List.prefix_rfl
  · show t.sinks <+: if run.spec.isSink ⟨e, ⟨here⟩⟩ then t.sinks ++ [⟨e, ⟨here⟩⟩] else t.sinks
    split
    · exact List.prefix_append _ _
    · exact List.prefix_rfl

theorem assumeAtom_keeps (run : FlowRun) (here : List Node) (e : Expr) (branch : Bool)
    (s : FlowState) (t : Trace) :
    t.sinks <+: (run.assumeAtom here e branch s t).2.sinks := by
  unfold assumeAtom
  cases run.spec.sanitizes with
  | none => exact List.prefix_rfl
  | some sanitizes =>
    by_cases dead : (s.liveCount == 0) = true
    · simp only [dead, if_true]
      exact List.prefix_rfl
    · simp only [dead, Bool.false_eq_true, if_false]
      exact List.prefix_rfl

/-! ## The two runs -/

/-- The run that stops at the first sink and the one that does not. -/
def stopping (run : FlowRun) :
    Comparison { run with stopAtFirst := true } { run with stopAtFirst := false } where
  state := Eq
  value := Eq
  walks := FirstAlike
  offers _ := True
  writes _ := True

variable {run : FlowRun}

theorem isDone_firstAlike :
    FirstAlike Eq ({ run with stopAtFirst := true } : FlowRun).isDone
      ({ run with stopAtFirst := false } : FlowRun).isDone where
  keeps _ := List.prefix_rfl
  keeps' _ := List.prefix_rfl
  matched _ := ⟨_, rfl⟩
  matched' _ := ⟨_, rfl⟩
  first _ _ := rfl
  same t clean _ := by
    refine ⟨rfl, ?_⟩
    show (true && !t.sinks.isEmpty) = (false && !t.sinks.isEmpty)
    rw [clean]
    rfl

/-- A loop is walked alike as long as its turns are. -/
theorem iterate_firstAlike
    {turn turn' : FlowState → FlowM (Option FlowState × Option FlowState)}
    (turns : ∀ s, FirstAlike Eq (turn s) (turn' s)) (n : Nat) (head : FlowState)
    (exit : Option FlowState) :
    FirstAlike Eq (({ run with stopAtFirst := true } : FlowRun).iterate (gather turn) n head exit)
      (({ run with stopAtFirst := false } : FlowRun).iterate (gather turn') n head exit) := by
  induction n generalizing head exit with
  | zero => exact .answer rfl
  | succ n ih =>
    have round : FirstAlike Eq (gather turn head exit) (gather turn' head exit) := by
      refine (turns head).seq fun r _ same => ?_
      subst same
      exact .answer rfl
    rw [iterate_succ, iterate_succ]
    refine round.seq fun r _ same => ?_
    subst same
    refine isDone_firstAlike.seq fun done _ same => ?_
    subst same
    split
    · exact .answer rfl
    · exact ih _ _

/-- Up to the first sink, the two runs walk alike. -/
theorem stopping_sound (run : FlowRun) : run.stopping.Sound where
  source := rfl
  maxDepth := rfl
  answer := .answer
  seq := .seq
  isDone := isDone_firstAlike
  announce := by
    intro here e a b _ same
    subst same
    cases a with
    | true => exact .refl (offer_keeps run here e) fun _ => trivial
    | false => exact .answer trivial
  assumeAtom := by
    intro here e branch s s' same
    subst same
    exact .refl (assumeAtom_keeps run here e branch s) fun _ => rfl
  iterate := by
    intro turn turn' head head' exit exit' turns sameHead sameExit
    cases sameHead
    cases rel_eq_iff.mp sameExit
    have alike : ∀ s, FirstAlike Eq (turn s) (turn' s) := fun s =>
      (turns s s rfl).mono fun r r' related =>
        Prod.ext (rel_eq_iff.mp related.exit) (rel_eq_iff.mp related.back)
    exact (iterate_firstAlike alike _ head exit).mono fun _ _ => rel_eq_iff.mpr
  live x same := same ▸ rfl
  assign := by
    rintro s _ x a _ _ rfl rfl
    rfl
  join := by
    rintro s _ t _ rfl rfl
    rfl
  refl _ := rfl
  or := by
    rintro a _ a' _ rfl rfl
    rfl
  mask := by
    rintro a _ rfl
    rfl

end FlowRun

/-! ## Queries -/

namespace FlowQuery

/-- The walk that stops early and the full one come to the same first sink. -/
theorem head?_sinks_trace (query : FlowQuery) (spec : FlowSpec) :
    (query.trace spec true).sinks.head? = (query.trace spec false).sinks.head? := by
  unfold trace
  split
  next source starts =>
    split
    · split
      next index body inBody =>
        let run : FlowRun := { spec, limits := query.limits, source, stopAtFirst := false }
        let above := (query.start.upTo (index + 1)).outward
        have parts : ∀ stmt ∈ body.stmts, run.stopping.Walked above 0 (.stmt stmt) :=
          fun stmt _ => run.stopping_sound.walked (.stmt stmt) above 0
            ⟨fun _ _ => trivial, fun _ _ _ _ => trivial⟩
        exact (run.stopping_sound.execAll 0 body.stmts parts rfl).first ⟨[], [], []⟩ rfl
      · rfl
    · rfl
  · rfl

/-- A query that stops at the first sink says yes exactly if the full query finds a
sink, whatever the start, the limits and the question; and the sink it stops at is
the first that the full query finds. -/
theorem reachesSink_iff_findSinks (query : FlowQuery) (spec : FlowSpec) :
    (query.reachesSink spec = true ↔ (query.findSinks spec).isEmpty = false) ∧
      (query.trace spec true).sinks.head? = (query.findSinks spec).sinks.head? := by
  have first := query.head?_sinks_trace spec
  refine ⟨?_, first⟩
  show (!(query.trace spec true).sinks.isEmpty) = true ↔
    (query.trace spec false).sinks.isEmpty = false
  rw [Bool.not_eq_true', ← Bool.not_eq_true, ← Bool.not_eq_true, List.isEmpty_iff, List.isEmpty_iff,
    ← List.head?_eq_none_iff, ← List.head?_eq_none_iff, first]

end FlowQuery

end JavaMend
