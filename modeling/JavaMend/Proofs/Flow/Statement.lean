import JavaMend.Proofs.Flow.Loop

/-!
# Statements are walked exactly

The three ways in which control leaves a statement and goes on in the body are
covered one by one; what leaves the body, or is still going round a loop, is
covered by nothing. One lemma for each way to put statements together, and from
these `FlowRun.exec_exact`, by induction over the tree.
-/

namespace JavaMend

/-- Where courses end with one of several results. -/
def endsAt {α : Type} (ends : Set (α × Live)) (a : α) : Set Live := {l | (a, l) ∈ ends}

theorem endsAt_union {α : Type} (ends₁ ends₂ : Set (α × Live)) (a : α) :
    endsAt (ends₁ ∪ ends₂) a = endsAt ends₁ a ∪ endsAt ends₂ a := rfl

/-- The states in which control leaves a statement cover the courses that leave
it in the same way. -/
structure AgreesExits (names : List String) (exits : Exits) (ends : Set (Ending × Live)) :
    Prop where
  normal : CoversOption names exits.normal (endsAt ends .falls)
  breaks : CoversOption names exits.breaks (endsAt ends .breaks)
  continues : CoversOption names exits.continues (endsAt ends .continues)

variable {run : FlowRun} {names : List String} {nodes : List Occurrence} {here above : List Node}
  {lives : Set Live}

theorem AgreesExits.union (a b : Exits) (ends₁ ends₂ : Set (Ending × Live))
    (first : AgreesExits names a ends₁) (second : AgreesExits names b ends₂) :
    AgreesExits names (a.after { b with normal := FlowState.merge a.normal b.normal })
      (ends₁ ∪ ends₂) :=
  ⟨first.normal.merge second.normal, first.breaks.merge second.breaks,
    first.continues.merge second.continues⟩

/-! ## Single statements -/

theorem endsAt_pure {α : Type} (a : α) :
    endsAt {p : α × Live | p.1 = a ∧ p.2 ∈ lives} a = lives := by
  ext l
  exact and_iff_right rfl

theorem endsAt_pure_of_ne {α : Type} {a b : α} (ne : b ≠ a) :
    endsAt {p : α × Live | p.1 = a ∧ p.2 ∈ lives} b = ∅ := by
  ext l
  exact ⟨fun h => (ne h.1).elim, False.elim⟩

theorem exact_falls :
    Exact run names nodes (AgreesExits names) (fun s => pure (.falls (some s))) (pure .falls) := by
  refine Exact.answer fun s lives covers => ⟨?_, ?_, ?_⟩
  · rw [endsAt_pure]
    exact covers
  · exact endsAt_pure_of_ne Ending.noConfusion
  · exact endsAt_pure_of_ne Ending.noConfusion

theorem exact_breaks :
    Exact run names nodes (AgreesExits names) (fun s => pure ⟨none, some s, none⟩)
      (pure .breaks) := by
  refine Exact.answer fun s lives covers => ⟨?_, ?_, ?_⟩
  · exact endsAt_pure_of_ne Ending.noConfusion
  · rw [endsAt_pure]
    exact covers
  · exact endsAt_pure_of_ne Ending.noConfusion

theorem exact_continues :
    Exact run names nodes (AgreesExits names) (fun s => pure ⟨none, none, some s⟩)
      (pure .continues) := by
  refine Exact.answer fun s lives covers => ⟨?_, ?_, ?_⟩
  · exact endsAt_pure_of_ne Ending.noConfusion
  · exact endsAt_pure_of_ne Ending.noConfusion
  · rw [endsAt_pure]
    exact covers

theorem exact_leaves :
    Exact run names nodes (AgreesExits names) (fun _ => pure (.falls none)) (pure .leaves) := by
  refine Exact.answer fun s lives covers => ⟨?_, ?_, ?_⟩
  · exact endsAt_pure_of_ne Ending.noConfusion
  · exact endsAt_pure_of_ne Ending.noConfusion
  · exact endsAt_pure_of_ne Ending.noConfusion

/-- A walk that would stop if it were done goes on. -/
theorem Exact.unlessDone {α β : Type} {agrees : β → Set (α × Live) → Prop}
    {walk : FlowState → FlowM β} {ways : Ways α} (whole : run.stopAtFirst = false)
    (stops : Bool → Bool) (goesOn : stops false = false) (early : FlowState → β)
    (h : Exact run names nodes agrees walk ways) :
    Exact run names nodes agrees
      (fun s => run.isDone >>= fun done => if stops done = true then pure (early s) else walk s)
      ways := by
  refine ⟨h.total, fun s within => ?_⟩
  obtain ⟨b, log, yields, rest⟩ := h.walks s within
  refine ⟨b, log, (FlowRun.yields_isDone whole).bind_silent ?_, rest⟩
  simp only [goesOn, Bool.false_eq_true, if_false]
  exact yields

namespace FlowRun

/-- Variables are declared exactly. -/
theorem declare_exact (whole : run.stopAtFirst = false) (vars : List Variable)
    (fits : ∀ v ∈ vars, (Node.var v).Fits names nodes above) :
    Exact run names nodes (AgreesState names) (run.declare above vars)
      (run.spec.declareWays run.source above vars) := by
  induction vars with
  | nil =>
    refine Exact.answer fun s lives covers => ?_
    show Covers names s _
    have same : Prod.snd '' {p : Unit × Live | p.1 = () ∧ p.2 ∈ lives} = lives := by
      ext l
      exact ⟨fun ⟨p, h, same⟩ => same ▸ h.2, fun h => ⟨((), l), ⟨rfl, h⟩, rfl⟩⟩
    rwa [same]
  | cons v rest ih =>
    have fits_v := fits v List.mem_cons_self
    have known : v.name ∈ names := fits_v.plain.known _ Node.mem_own_self v.name rfl
    have more := ih fun w hw => fits w (List.mem_cons_of_mem _ hw)
    cases init : v.init with
    | none =>
      refine ((exact_store known exact_false).afterValue more).congr (fun s => ?_) ?_
      · rw [declare]; simp only [init]; rfl
      · rw [FlowSpec.declareWays]; simp only [init, bind_assoc, pure_bind]
    | some e =>
      have mem : Node.expr e ∈ (Node.var v).children := by
        simp only [Node.children, init]
        exact List.mem_cons_self
      have init_exact := eval_exact whole e _ (fits_v.child rfl mem)
      refine ((exact_store known init_exact).afterValue more).congr (fun s => ?_) ?_
      · rw [declare]; simp only [init]; rfl
      · rw [FlowSpec.declareWays]; simp only [init, bind_assoc, pure_bind]

end FlowRun

/-! ## One statement after another -/

theorem mem_ends_thenWays {first next : Ways Ending} {p : Ending × Live} :
    p ∈ (first >>= FlowSpec.thenWays next).ends lives ↔
      (p.1 ≠ .falls ∧ p ∈ first.ends lives) ∨ p ∈ next.ends (endsAt (first.ends lives) .falls) := by
  constructor
  · intro h
    obtain ⟨live, mem, _, ⟨a, ha, b, hb, rfl⟩, rfl⟩ := h
    cases ending : a.value with
    | falls =>
      rw [ending] at hb
      exact .inr ⟨a.live, ⟨live, mem, a, ha, by rw [ending]⟩, b, hb, rfl⟩
    | breaks | continues | leaves | circles =>
      rw [ending] at hb
      obtain rfl : b = _ := hb
      exact .inl ⟨Ending.noConfusion, live, mem, a, ha, by rw [ending]⟩
  · intro h
    rcases h with ⟨ne, live, mem, a, ha, rfl⟩ | ⟨_, ⟨live, mem, a, ha, same⟩, b, hb, rfl⟩
    · refine ⟨live, mem, _, ⟨a, ha, ⟨a.value, a.live, []⟩, ?_, rfl⟩, rfl⟩
      cases ending : a.value with
      | falls => exact (ne ending).elim
      | breaks | continues | leaves | circles => rfl
    · obtain ⟨falls, rfl⟩ := Prod.mk.inj same
      refine ⟨live, mem, _, ⟨a, ha, b, ?_, rfl⟩, rfl⟩
      rw [← falls]
      exact hb

theorem endsAt_thenWays_falls {first next : Ways Ending} :
    endsAt ((first >>= FlowSpec.thenWays next).ends lives) .falls =
      endsAt (next.ends (endsAt (first.ends lives) .falls)) .falls := by
  ext l
  exact mem_ends_thenWays.trans (or_iff_right fun h => h.1 rfl)

theorem endsAt_thenWays {first next : Ways Ending} {ending : Ending} (ne : ending ≠ .falls) :
    endsAt ((first >>= FlowSpec.thenWays next).ends lives) ending =
      endsAt (first.ends lives) ending ∪
        endsAt (next.ends (endsAt (first.ends lives) .falls)) ending := by
  ext l
  exact mem_ends_thenWays.trans (or_congr_left (and_iff_right ne))

theorem total_thenWays {next : Ways Ending} (total : next.Total) (ending : Ending) :
    (FlowSpec.thenWays next ending).Total := by
  cases ending with
  | falls => exact total
  | breaks | continues | leaves | circles => exact Ways.total_pure _

theorem carries_thenWays (first : Ways Ending) {next : Ways Ending} (total : next.Total) :
    (first >>= FlowSpec.thenWays next).carries lives =
      first.carries lives ∪ next.carries (endsAt (first.ends lives) .falls) := by
  ext o
  constructor
  · intro h
    obtain ⟨live, mem, _, ⟨a, ha, b, hb, rfl⟩, ho⟩ := h
    rcases List.mem_append.mp ho with ho | ho
    · exact .inl ⟨live, mem, a, ha, ho⟩
    · cases ending : a.value with
      | falls =>
        rw [ending] at hb
        exact .inr ⟨a.live, ⟨live, mem, a, ha, by rw [ending]⟩, b, hb, ho⟩
      | breaks | continues | leaves | circles =>
        rw [ending] at hb
        obtain rfl : b = _ := hb
        exact (List.not_mem_nil ho).elim
  · intro h
    rcases h with ⟨live, mem, a, ha, ho⟩ | ⟨_, ⟨live, mem, a, ha, same⟩, b, hb, ho⟩
    · obtain ⟨b, hb⟩ := total_thenWays total a.value a.live
      exact ⟨live, mem, _, ⟨a, ha, b, hb, rfl⟩, List.mem_append_left _ ho⟩
    · obtain ⟨falls, rfl⟩ := Prod.mk.inj same
      refine ⟨live, mem, _, ⟨a, ha, b, ?_, rfl⟩, List.mem_append_right _ ho⟩
      rw [← falls]
      exact hb

/-- What follows a statement is walked from where control falls through it. -/
theorem exact_then {walk₁ walk₂ : FlowState → FlowM Exits} {ways₁ ways₂ : Ways Ending}
    (first : Exact run names nodes (AgreesExits names) walk₁ ways₁)
    (second : Exact run names nodes (AgreesExits names) walk₂ ways₂) :
    Exact run names nodes (AgreesExits names)
      (fun s => walk₁ s >>= fun exits => match exits.normal with
        | none => pure exits
        | some s => walk₂ s >>= fun next => pure (exits.after next))
      (ways₁ >>= FlowSpec.thenWays ways₂) := by
  refine ⟨first.total.bind (total_thenWays second.total), fun s within => ?_⟩
  obtain ⟨exits, log, yields, inside, right⟩ := first.walks s within
  cases normal : exits.normal with
  | none =>
    refine ⟨exits, log ++ [], yields.bind ?_, by rwa [List.append_nil], fun lives covers => ?_⟩
    · simp only [normal]
      exact FlowRun.yields_pure _
    · obtain ⟨agree, carried⟩ := right lives covers
      have none_falls : endsAt (ways₁.ends lives) .falls = ∅ := by
        have falls := agree.normal
        rwa [normal] at falls
      refine ⟨⟨?_, ?_, ?_⟩, fun o => ?_⟩
      · rw [normal, endsAt_thenWays_falls, none_falls, Ways.ends_empty]
        rfl
      · rw [endsAt_thenWays Ending.noConfusion, none_falls, Ways.ends_empty]
        exact (Set.union_empty _).symm ▸ agree.breaks
      · rw [endsAt_thenWays Ending.noConfusion, none_falls, Ways.ends_empty]
        exact (Set.union_empty _).symm ▸ agree.continues
      · rw [List.append_nil, carries_thenWays _ second.total, none_falls, Ways.carries_empty,
          Set.union_empty]
        exact carried o
  | some between =>
    have covers_between : ∀ lives, Covers names s lives →
        Covers names between (endsAt (ways₁.ends lives) .falls) := by
      intro lives covers
      have falls := (right lives covers).1.normal
      rwa [normal] at falls
    obtain ⟨next, more, yields', inside', right'⟩ :=
      second.walks between (covers_between _ (covers_self within)).within
    refine ⟨exits.after next, log ++ (more ++ []), yields.bind ?_, ?_, fun lives covers => ?_⟩
    · simp only [normal]
      exact yields'.bind (FlowRun.yields_pure _)
    · intro o ho
      rw [List.append_nil] at ho
      exact (List.mem_append.mp ho).elim (inside o) (inside' o)
    · obtain ⟨agree, carried⟩ := right lives covers
      obtain ⟨agree', carried'⟩ := right' _ (covers_between lives covers)
      refine ⟨⟨?_, ?_, ?_⟩, fun o => ?_⟩
      · rw [endsAt_thenWays_falls]
        exact agree'.normal
      · rw [endsAt_thenWays Ending.noConfusion]
        exact agree.breaks.merge agree'.breaks
      · rw [endsAt_thenWays Ending.noConfusion]
        exact agree.continues.merge agree'.continues
      · rw [List.append_nil, List.mem_append, carries_thenWays _ second.total, carried, carried',
          Set.mem_union]

/-! ## The end of a round -/

/-- Where a loop goes on after its body: at the end of the body and where the
body says so. -/
def onward (ends : Set (Ending × Live)) : Set Live := endsAt ends .falls ∪ endsAt ends .continues

theorem mem_ends_closeRound {body : Ways Ending} {next : Ways (Option Ending)}
    {p : Option Ending × Live} :
    p ∈ (body >>= FlowSpec.closeRound next).ends lives ↔
      p ∈ next.ends (onward (body.ends lives)) ∨
        (p.1 = some .falls ∧ p.2 ∈ endsAt (body.ends lives) .breaks) ∨
        ∃ ending, (ending = .leaves ∨ ending = .circles) ∧ p.1 = some ending ∧
          p.2 ∈ endsAt (body.ends lives) ending := by
  constructor
  · intro h
    obtain ⟨live, mem, _, ⟨a, ha, b, hb, rfl⟩, rfl⟩ := h
    have arrives : (a.value, a.live) ∈ body.ends lives := ⟨live, mem, a, ha, rfl⟩
    cases ending : a.value with
    | falls =>
      rw [ending] at hb arrives
      exact .inl ⟨a.live, .inl arrives, b, hb, rfl⟩
    | continues =>
      rw [ending] at hb arrives
      exact .inl ⟨a.live, .inr arrives, b, hb, rfl⟩
    | breaks =>
      rw [ending] at hb arrives
      obtain rfl : b = _ := hb
      exact .inr (.inl ⟨rfl, arrives⟩)
    | leaves =>
      rw [ending] at hb arrives
      obtain rfl : b = _ := hb
      exact .inr (.inr ⟨.leaves, .inl rfl, rfl, arrives⟩)
    | circles =>
      rw [ending] at hb arrives
      obtain rfl : b = _ := hb
      exact .inr (.inr ⟨.circles, .inr rfl, rfl, arrives⟩)
  · have from_ : ∀ {ending l b}, (ending, l) ∈ body.ends lives →
        b ∈ FlowSpec.closeRound next ending l →
        (b.value, b.live) ∈ (body >>= FlowSpec.closeRound next).ends lives := by
      intro ending l b h hb
      obtain ⟨live, mem, a, ha, same⟩ := h
      obtain ⟨rfl, rfl⟩ := Prod.mk.inj same
      exact ⟨live, mem, _, ⟨a, ha, b, hb, rfl⟩, rfl⟩
    obtain ⟨result, l⟩ := p
    intro h
    rcases h with ⟨l', arrives | arrives, b, hb, same⟩ | ⟨rfl, arrives⟩ |
      ⟨ending, rfl | rfl, rfl, arrives⟩
    · exact same ▸ from_ arrives hb
    · exact same ▸ from_ arrives hb
    · exact from_ arrives (b := ⟨some .falls, l, []⟩) rfl
    · exact from_ arrives (b := ⟨some .leaves, l, []⟩) rfl
    · exact from_ arrives (b := ⟨some .circles, l, []⟩) rfl

theorem total_closeRound {next : Ways (Option Ending)} (total : next.Total) (ending : Ending) :
    (FlowSpec.closeRound next ending).Total := by
  cases ending with
  | falls | continues => exact total
  | breaks | leaves | circles => exact Ways.total_pure _

theorem carries_closeRound (body : Ways Ending) {next : Ways (Option Ending)}
    (total : next.Total) :
    (body >>= FlowSpec.closeRound next).carries lives =
      body.carries lives ∪ next.carries (onward (body.ends lives)) := by
  ext o
  constructor
  · intro h
    obtain ⟨live, mem, _, ⟨a, ha, b, hb, rfl⟩, ho⟩ := h
    have arrives : (a.value, a.live) ∈ body.ends lives := ⟨live, mem, a, ha, rfl⟩
    rcases List.mem_append.mp ho with ho | ho
    · exact .inl ⟨live, mem, a, ha, ho⟩
    · cases ending : a.value with
      | falls =>
        rw [ending] at hb arrives
        exact .inr ⟨a.live, .inl arrives, b, hb, ho⟩
      | continues =>
        rw [ending] at hb arrives
        exact .inr ⟨a.live, .inr arrives, b, hb, ho⟩
      | breaks | leaves | circles =>
        rw [ending] at hb
        obtain rfl : b = _ := hb
        exact (List.not_mem_nil ho).elim
  · have from_ : ∀ {ending l b}, (ending, l) ∈ body.ends lives →
        b ∈ FlowSpec.closeRound next ending l → o ∈ b.carried →
        o ∈ (body >>= FlowSpec.closeRound next).carries lives := by
      intro ending l b h hb ho
      obtain ⟨live, mem, a, ha, same⟩ := h
      obtain ⟨rfl, rfl⟩ := Prod.mk.inj same
      exact ⟨live, mem, _, ⟨a, ha, b, hb, rfl⟩, List.mem_append_right _ ho⟩
    intro h
    rcases h with ⟨live, mem, a, ha, ho⟩ | ⟨l, arrives | arrives, b, hb, ho⟩
    · obtain ⟨b, hb⟩ := total_closeRound total a.value a.live
      exact ⟨live, mem, _, ⟨a, ha, b, hb, rfl⟩, List.mem_append_left _ ho⟩
    · exact from_ arrives hb ho
    · exact from_ arrives hb ho

/-- Where a round comes back to the head. -/
theorem endsAt_closeRound_none {body : Ways Ending} {next : Ways (Option Ending)} :
    endsAt ((body >>= FlowSpec.closeRound next).ends lives) none =
      endsAt (next.ends (onward (body.ends lives))) none := by
  ext l
  refine mem_ends_closeRound.trans (or_iff_left ?_)
  rintro (⟨h, _⟩ | ⟨_, _, h, _⟩) <;> cases h

/-- Where a round falls out of the loop. -/
theorem endsAt_closeRound_falls {body : Ways Ending} {next : Ways (Option Ending)} :
    endsAt ((body >>= FlowSpec.closeRound next).ends lives) (some .falls) =
      endsAt (next.ends (onward (body.ends lives))) (some .falls) ∪
        endsAt (body.ends lives) .breaks := by
  ext l
  refine mem_ends_closeRound.trans (or_congr_right ?_)
  constructor
  · intro h
    rcases h with ⟨_, h⟩ | ⟨_, rfl | rfl, h, _⟩
    · exact h
    · cases h
    · cases h
  · intro h
    exact .inl ⟨rfl, h⟩

/-- Rounds out of which no jump leads: a loop takes in the jumps of its body. -/
def Ways.TakesJumps (round : Ways (Option Ending)) : Prop :=
  ∀ live, ∀ r ∈ round live, r.value ≠ some .breaks ∧ r.value ≠ some .continues

theorem Rounds.takesJumps {round : Ways (Option Ending)} (h : round.TakesJumps) {live : Live}
    {q : Step Ending} (course : Rounds round live q) :
    q.value ≠ .breaks ∧ q.value ≠ .continues := by
  induction course with
  | circling live => exact ⟨Ending.noConfusion, Ending.noConfusion⟩
  | @out live r ending turn value =>
    obtain ⟨noBreak, noContinue⟩ := h live r turn
    rw [value] at noBreak noContinue
    exact ⟨fun same => noBreak (congrArg some same), fun same => noContinue (congrArg some same)⟩
  | again _ _ _ ih => exact ih

theorem takesJumps_closeRound (body : Ways Ending) {next : Ways (Option Ending)}
    (h : next.TakesJumps) : (body >>= FlowSpec.closeRound next).TakesJumps := by
  intro live _ h
  obtain ⟨a, ha, b, hb, rfl⟩ := h
  cases ending : a.value with
  | falls | continues =>
    rw [ending] at hb
    exact h a.live b hb
  | breaks | leaves | circles =>
    rw [ending] at hb
    obtain rfl : b = _ := hb
    exact ⟨nofun, nofun⟩

theorem takesJumps_none : (pure none : Ways (Option Ending)).TakesJumps := by
  rintro live _ rfl
  exact ⟨nofun, nofun⟩

theorem takesJumps_falls : (pure (some .falls) : Ways (Option Ending)).TakesJumps := by
  rintro live _ rfl
  exact ⟨nofun, nofun⟩

theorem Ways.TakesJumps.after {α : Type} {round : Ways (Option Ending)} (h : round.TakesJumps)
    (first : Ways α) : (first >>= fun _ => round).TakesJumps := by
  intro live _ h
  obtain ⟨a, ha, b, hb, rfl⟩ := h
  exact h a.live b hb

theorem Ways.TakesJumps.either {first second : Ways (Option Ending)} (h : first.TakesJumps)
    (h' : second.TakesJumps) : (Ways.either first second).TakesJumps := by
  intro live r h
  rcases h with hr | hr
  · exact h live r hr
  · exact h' live r hr

/-! ## Rounds of a `while` or `for` loop -/

/-- A round answers where it falls out and where it comes back to. -/
structure AgreesTurn (names : List String) (r : Option FlowState × Option FlowState)
    (ends : Set (Option Ending × Live)) : Prop where
  out : CoversOption names r.1 (endsAt ends (some .falls))
  back : CoversOption names r.2 (endsAt ends none)

/-- A round that takes no notice of what the loop was entered with. -/
theorem ExactRound.ofWays
    {walk : FlowState → Option FlowState → FlowM (Option FlowState × Option FlowState)}
    {round : Ways (Option Ending)}
    (h : ∀ head exit, head.Within names → ∃ exit' back log,
      run.Yields (walk head exit) (exit', back) log ∧ (∀ o ∈ log, o ∈ nodes) ∧
        ∀ lives, Covers names head lives →
          (∀ before, CoversOption names exit before →
            CoversOption names exit' (before ∪ endsAt (round.ends lives) (some .falls))) ∧
          CoversOption names back (endsAt (round.ends lives) none) ∧
          ∀ o, o ∈ log ↔ o ∈ round.carries lives) (entry : Bool) :
    ExactRound run names nodes entry walk fun _ => round := by
  intro head exit within
  obtain ⟨exit', back, log, yields, inside, right⟩ := h head exit within
  refine ⟨exit', back, log, yields, inside, fun heads agree => ?_⟩
  have outs_eq : outs (fun _ => round) heads =
      endsAt (round.ends (Prod.snd '' heads)) (some .falls) := by
    ext l
    constructor
    · intro h
      obtain ⟨p, mem, r, turn, value, rfl⟩ := h
      exact ⟨p.2, ⟨p, mem, rfl⟩, r, turn, by rw [value]⟩
    · intro h
      obtain ⟨_, ⟨p, mem, rfl⟩, r, turn, same⟩ := h
      obtain ⟨value, rfl⟩ := Prod.mk.inj same
      exact ⟨p, mem, r, turn, value.symm, rfl⟩
  have backs_eq : Prod.snd '' backs (fun _ => round) heads =
      endsAt (round.ends (Prod.snd '' heads)) none := by
    ext l
    constructor
    · intro h
      obtain ⟨⟨_, _⟩, ⟨live, mem, r, turn, value, rfl⟩, rfl⟩ := h
      exact ⟨live, ⟨_, mem, rfl⟩, r, turn, by rw [value]⟩
    · intro h
      obtain ⟨_, ⟨p, mem, rfl⟩, r, turn, same⟩ := h
      obtain ⟨value, rfl⟩ := Prod.mk.inj same
      exact ⟨(p.1, r.live), ⟨p.2, mem, r, turn, value.symm, rfl⟩, rfl⟩
  have turns_eq : turns (fun _ => round) heads = round.carries (Prod.snd '' heads) := by
    ext o
    constructor
    · intro h
      obtain ⟨p, mem, r, turn, ho⟩ := h
      exact ⟨p.2, ⟨p, mem, rfl⟩, r, turn, ho⟩
    · intro h
      obtain ⟨_, ⟨p, mem, rfl⟩, r, turn, ho⟩ := h
      exact ⟨p, mem, r, turn, ho⟩
  rw [outs_eq, backs_eq, turns_eq]
  exact right _ agree.state

theorem endsAt_after_none {update : Ways Bool} :
    endsAt ((update >>= fun _ => pure (none : Option Ending)).ends lives) none =
      Prod.snd '' update.ends lives := by
  rw [Ways.ends_then, Ways.ends_pure]
  exact endsAt_pure none

theorem endsAt_after_falls {update : Ways Bool} :
    endsAt ((update >>= fun _ => pure (none : Option Ending)).ends lives) (some .falls) = ∅ := by
  rw [Ways.ends_then, Ways.ends_pure]
  exact endsAt_pure_of_ne nofun

/-- The part of a round after the condition: the body of the loop and the updates
after it. -/
def FlowRun.loopTurn (body : FlowState → FlowM Exits)
    (update : FlowState → FlowM (Bool × FlowState)) (s : FlowState) :
    FlowM (Option FlowState × Option FlowState) :=
  body s >>= fun exits =>
    (match FlowState.merge exits.normal exits.continues with
      | some back => update back >>= fun r => pure (some r.2)
      | none => pure none) >>= fun back => pure (exits.breaks, back)

theorem FlowRun.loopRound_none (update : List Expr) (body : FlowState → FlowM Exits)
    (head : FlowState) (exit : Option FlowState) :
    run.loopRound here none update body head exit =
      loopTurn body (run.evalAny here update) head >>= fun r =>
        pure (FlowState.merge exit r.1, r.2) := by
  unfold loopRound loopTurn
  simp only [enterLoop, bind_assoc, pure_bind]
  refine bind_congr fun exits => ?_
  cases FlowState.merge exits.normal exits.continues with
  | none => rw [pure_bind]
  | some back => rw [bind_assoc]; rfl

theorem FlowRun.loopRound_some (c : Expr) (update : List Expr) (body : FlowState → FlowM Exits)
    (head : FlowState) (exit : Option FlowState) :
    run.loopRound here (some c) update body head exit =
      run.eval here c head >>= fun r => run.assume here true c r.2 >>= fun inside =>
        run.assume here false c r.2 >>= fun outside =>
          loopTurn body (run.evalAny here update) inside >>= fun t =>
            pure (FlowState.merge (FlowState.merge exit (some outside)) t.1, t.2) := by
  unfold loopRound loopTurn
  simp only [enterLoop, bind_assoc, pure_bind]
  refine bind_congr fun r => bind_congr fun inside => bind_congr fun outside =>
    bind_congr fun exits => ?_
  cases FlowState.merge exits.normal exits.continues with
  | none => rw [pure_bind]
  | some back => rw [bind_assoc]; rfl

theorem exact_turn {body : FlowState → FlowM Exits} {bodyWays : Ways Ending}
    {update : FlowState → FlowM (Bool × FlowState)} {updateWays : Ways Bool}
    (bodyExact : Exact run names nodes (AgreesExits names) body bodyWays)
    (updateExact : Exact run names nodes (AgreesValue names) update updateWays) :
    Exact run names nodes (AgreesTurn names) (FlowRun.loopTurn body update)
      (bodyWays >>= FlowSpec.closeRound (updateWays >>= fun _ => pure none)) := by
  have total : (updateWays >>= fun _ => pure (none : Option Ending)).Total :=
    updateExact.total.bind fun _ => Ways.total_pure _
  refine ⟨bodyExact.total.bind (total_closeRound total), fun s within => ?_⟩
  obtain ⟨exits, log, yields, inside, right⟩ := bodyExact.walks s within
  have goesOn : ∀ lives, Covers names s lives →
      CoversOption names (FlowState.merge exits.normal exits.continues)
        (onward (bodyWays.ends lives)) :=
    fun lives covers => (right lives covers).1.normal.merge (right lives covers).1.continues
  cases merged : FlowState.merge exits.normal exits.continues with
  | none =>
    refine ⟨(exits.breaks, none), log ++ ([] ++ []), yields.bind ?_, ?_, fun lives covers => ?_⟩
    · simp only [merged]
      exact (FlowRun.yields_pure _).bind (FlowRun.yields_pure _)
    · simpa only [List.append_nil] using inside
    · obtain ⟨agree, carried⟩ := right lives covers
      have stops : onward (bodyWays.ends lives) = ∅ := by
        have covered := goesOn lives covers
        rwa [merged] at covered
      refine ⟨⟨?_, ?_⟩, fun o => ?_⟩
      · rw [endsAt_closeRound_falls, endsAt_after_falls, Set.empty_union]
        exact agree.breaks
      · rw [endsAt_closeRound_none, stops, Ways.ends_empty]
        rfl
      · rw [carries_closeRound _ total, stops, Ways.carries_empty, Set.union_empty,
          List.append_nil, List.append_nil]
        exact carried o
  | some between =>
    have covers_between : ∀ lives, Covers names s lives →
        Covers names between (onward (bodyWays.ends lives)) := by
      intro lives covers
      have covered := goesOn lives covers
      rwa [merged] at covered
    obtain ⟨r, more, yields', inside', right'⟩ :=
      updateExact.walks between (covers_between _ (covers_self within)).within
    refine ⟨(exits.breaks, some r.2), log ++ ((more ++ []) ++ []), yields.bind ?_, ?_,
      fun lives covers => ?_⟩
    · simp only [merged]
      refine FlowRun.Yields.bind (a := some r.2) ?_ (FlowRun.yields_pure _)
      exact yields'.bind (FlowRun.yields_pure _)
    · intro o ho
      rw [List.append_nil, List.append_nil] at ho
      exact (List.mem_append.mp ho).elim (inside o) (inside' o)
    · obtain ⟨agree, carried⟩ := right lives covers
      obtain ⟨agree', carried'⟩ := right' _ (covers_between lives covers)
      refine ⟨⟨?_, ?_⟩, fun o => ?_⟩
      · rw [endsAt_closeRound_falls, endsAt_after_falls, Set.empty_union]
        exact agree.breaks
      · rw [endsAt_closeRound_none, endsAt_after_none]
        exact agree'.state
      · rw [carries_closeRound _ total, Ways.carries_map, List.append_nil, List.append_nil,
          List.mem_append, carried, carried', Set.mem_union]

theorem merge_assoc_cover {exit outside out : Option FlowState} {before fails breaks : Set Live}
    (h : CoversOption names exit before) (h' : CoversOption names outside fails)
    (h'' : CoversOption names out breaks) :
    CoversOption names (FlowState.merge (FlowState.merge exit outside) out)
      (before ∪ (breaks ∪ fails)) := by
  rw [Set.union_comm breaks, ← Set.union_assoc]
  exact (h.merge h').merge h''

/-- A round of a loop, with a condition or without. -/
theorem exactRound_loop {condition : Option Expr} {update : List Expr}
    {body : FlowState → FlowM Exits} {bodyWays : Ways Ending}
    (conditionExact : ∀ c ∈ condition, run.ExactAt names nodes here c)
    (updateExact : ∀ e ∈ update, run.ExactAt names nodes here e)
    (bodyExact : Exact run names nodes (AgreesExits names) body bodyWays) (entry : Bool) :
    ExactRound run names nodes entry (run.loopRound here condition update body) fun _ =>
      run.spec.loopWays run.source here condition update bodyWays := by
  have turnExact := exact_turn bodyExact (FlowRun.evalAny_exact updateExact)
  refine ExactRound.ofWays (fun head exit within => ?_) entry
  cases condition with
  | none =>
    obtain ⟨r, log, yields, inside, right⟩ := turnExact.walks head within
    refine ⟨FlowState.merge exit r.1, r.2, log ++ [], ?_, by rwa [List.append_nil],
      fun lives covers => ?_⟩
    · rw [FlowRun.loopRound_none]
      exact yields.bind (FlowRun.yields_pure _)
    · obtain ⟨agree, carried⟩ := right lives covers
      rw [List.append_nil]
      exact ⟨fun before h => h.merge agree.out, agree.back, carried⟩
  | some c =>
    obtain ⟨r, log, yields, inside, right⟩ := (conditionExact c rfl).walks head within
    have within' := (right _ (covers_self within)).1.state.within
    obtain ⟨enter, log₁, yields₁, inside₁, right₁⟩ :=
      (FlowRun.assume_exact here true c).walks r.2 within'
    obtain ⟨fail, log₂, yields₂, inside₂, right₂⟩ :=
      (FlowRun.assume_exact here false c).walks r.2 within'
    obtain ⟨t, log₃, yields₃, inside₃, right₃⟩ :=
      turnExact.walks enter (right₁ _ (covers_self within')).1.within
    refine ⟨FlowState.merge (FlowState.merge exit (some fail)) t.1, t.2,
      log ++ (log₁ ++ (log₂ ++ (log₃ ++ []))), ?_, ?_, fun lives covers => ?_⟩
    · rw [FlowRun.loopRound_some]
      exact yields.bind (yields₁.bind (yields₂.bind (yields₃.bind (FlowRun.yields_pure _))))
    · intro o ho
      simp only [List.append_nil, List.mem_append] at ho
      exact ho.elim (inside o) fun ho => ho.elim (inside₁ o) fun ho =>
        ho.elim (inside₂ o) (inside₃ o)
    · obtain ⟨agree, carried⟩ := right lives covers
      obtain ⟨agree₁, carried₁⟩ := right₁ _ agree.state
      obtain ⟨agree₂, carried₂⟩ := right₂ _ agree.state
      obtain ⟨agree₃, carried₃⟩ := right₃ _ agree₁
      have drops : (Ways.drop (run.spec.dropped here true c)).Total := fun live => ⟨_, rfl⟩
      simp only [FlowSpec.loopWays]
      refine ⟨fun before h => ?_, ?_, fun o => ?_⟩
      · rw [Ways.ends_then, Ways.ends_either, Ways.ends_then, Ways.ends_then, Ways.ends_pure,
          endsAt_union, endsAt_pure]
        exact merge_assoc_cover h agree₂ agree₃.out
      · rw [Ways.ends_then, Ways.ends_either, Ways.ends_then, Ways.ends_then, Ways.ends_pure,
          endsAt_union, endsAt_pure_of_ne (Option.some_ne_none _).symm, Set.union_empty]
        exact agree₃.back
      · rw [Ways.carries_then _ ((drops.bind fun _ => turnExact.total).either _),
          Ways.carries_either, Ways.carries_then _ turnExact.total, Ways.carries_map]
        simp only [List.append_nil, List.mem_append, Set.mem_union, carried, carried₁, carried₂,
          carried₃]
        tauto

/-! ## Rounds of a loop over items -/

/-- Where courses stand when an item was assigned. -/
def entered (item : String) (heads : Set (Bool × Live)) : Set Live :=
  (fun p => p.2.assign item p.1) '' heads

/-- The ways on after the body of a loop over items: another one or none. -/
def nextItem : Ways (Option Ending) := Ways.either (pure none) (pure (some .falls))

theorem total_nextItem : nextItem.Total := (Ways.total_pure _).either _

theorem mem_itemWays {item : String} {value : Bool} {body : Ways Ending} {live : Live}
    {r : Step (Option Ending)} :
    r ∈ FlowSpec.itemWays item value body live ↔
      r ∈ (body >>= FlowSpec.closeRound nextItem) (live.assign item value) := by
  constructor
  · intro h
    obtain ⟨_, rfl, b, hb, rfl⟩ := h
    exact hb
  · intro hr
    exact ⟨_, rfl, r, hr, rfl⟩

theorem outs_itemWays (item : String) (body : Ways Ending) (heads : Set (Bool × Live)) :
    outs (fun value => FlowSpec.itemWays item value body) heads =
      endsAt ((body >>= FlowSpec.closeRound nextItem).ends (entered item heads)) (some .falls) := by
  ext l
  constructor
  · intro h
    obtain ⟨p, mem, r, turn, value, rfl⟩ := h
    exact ⟨_, ⟨p, mem, rfl⟩, r, mem_itemWays.mp turn, by rw [value]⟩
  · intro h
    obtain ⟨_, ⟨p, mem, rfl⟩, r, turn, same⟩ := h
    obtain ⟨value, rfl⟩ := Prod.mk.inj same
    exact ⟨p, mem, r, mem_itemWays.mpr turn, value.symm, rfl⟩

theorem backs_itemWays (item : String) (body : Ways Ending) (heads : Set (Bool × Live)) :
    Prod.snd '' backs (fun value => FlowSpec.itemWays item value body) heads =
      endsAt ((body >>= FlowSpec.closeRound nextItem).ends (entered item heads)) none := by
  ext l
  constructor
  · intro h
    obtain ⟨⟨_, _⟩, ⟨live, mem, r, turn, value, rfl⟩, rfl⟩ := h
    exact ⟨_, ⟨_, mem, rfl⟩, r, mem_itemWays.mp turn, by rw [value]⟩
  · intro h
    obtain ⟨_, ⟨p, mem, rfl⟩, r, turn, same⟩ := h
    obtain ⟨value, rfl⟩ := Prod.mk.inj same
    exact ⟨(p.1, r.live), ⟨p.2, mem, r, mem_itemWays.mpr turn, value.symm, rfl⟩, rfl⟩

theorem turns_itemWays (item : String) (body : Ways Ending) (heads : Set (Bool × Live)) :
    turns (fun value => FlowSpec.itemWays item value body) heads =
      (body >>= FlowSpec.closeRound nextItem).carries (entered item heads) := by
  ext o
  constructor
  · intro h
    obtain ⟨p, mem, r, turn, ho⟩ := h
    exact ⟨_, ⟨p, mem, rfl⟩, r, mem_itemWays.mp turn, ho⟩
  · intro h
    obtain ⟨_, ⟨p, mem, rfl⟩, r, turn, ho⟩ := h
    exact ⟨p, mem, r, mem_itemWays.mpr turn, ho⟩

theorem endsAt_nextItem {result : Option Ending} (h : result = none ∨ result = some .falls) :
    endsAt (nextItem.ends lives) result = lives := by
  unfold nextItem
  rw [Ways.ends_either, Ways.ends_pure, Ways.ends_pure, endsAt_union]
  rcases h with rfl | rfl
  · rw [endsAt_pure, endsAt_pure_of_ne (Option.some_ne_none _).symm, Set.union_empty]
  · rw [endsAt_pure, endsAt_pure_of_ne (Option.some_ne_none _), Set.empty_union]

/-- A round of a loop over items. -/
theorem exactRound_items {item : String} (known : item ∈ names)
    {body : FlowState → FlowM Exits} {bodyWays : Ways Ending}
    (bodyExact : Exact run names nodes (AgreesExits names) body bodyWays) (entry : Bool) :
    ExactRound run names nodes entry (FlowRun.itemRound item entry body)
      fun value => FlowSpec.itemWays item value bodyWays := by
  intro head exit within
  obtain ⟨exits, log, yields, inside, right⟩ :=
    bodyExact.walks (head.assign item entry) (within.assign known entry)
  refine ⟨_, _, log ++ [], yields.bind (FlowRun.yields_pure _), by rwa [List.append_nil],
    fun heads agree => ?_⟩
  obtain ⟨agree', carried⟩ := right _ (agree.store known)
  have goesOn : CoversOption names (FlowState.merge exits.normal exits.continues)
      (onward (bodyWays.ends (entered item heads))) :=
    agree'.normal.merge agree'.continues
  refine ⟨fun before h => ?_, ?_, fun o => ?_⟩
  · rw [outs_itemWays, endsAt_closeRound_falls, endsAt_nextItem (.inr rfl)]
    exact merge_assoc_cover h agree'.breaks goesOn
  · rw [backs_itemWays, endsAt_closeRound_none, endsAt_nextItem (.inl rfl)]
    exact goesOn
  · have none_carried : nextItem.carries (onward (bodyWays.ends (entered item heads))) = ∅ := by
      unfold nextItem
      rw [Ways.carries_either, Ways.carries_pure, Ways.carries_pure, Set.union_empty]
    rw [turns_itemWays, carries_closeRound _ total_nextItem, none_carried, Set.union_empty,
      List.append_nil]
    exact carried o

/-! ## Loops -/

theorem takesJumps_loopWays (condition : Option Expr) (update : List Expr) (body : Ways Ending) :
    (run.spec.loopWays run.source here condition update body).TakesJumps := by
  have turn : (body >>= FlowSpec.closeRound (do
      let _ ← run.spec.anyWays run.source here update
      pure none)).TakesJumps :=
    takesJumps_closeRound body (takesJumps_none.after _)
  cases condition with
  | none => exact turn
  | some c => exact ((turn.after _).either (takesJumps_falls.after _)).after _

theorem takesJumps_itemWays (item : String) (body : Ways Ending) (value : Bool) :
    (FlowSpec.itemWays item value body).TakesJumps := by
  have next : nextItem.TakesJumps := takesJumps_none.either takesJumps_falls
  exact (takesJumps_closeRound body next).after _

theorem covers_endsAt_empty {ends : Set (Ending × Live)} {ending : Ending}
    (h : ∀ p ∈ ends, p.1 ≠ ending) : CoversOption names none (endsAt ends ending) := by
  ext l
  exact ⟨fun mem => h _ mem rfl, False.elim⟩

/-- A `while` or `for` loop. -/
theorem exact_loop (whole : run.stopAtFirst = false) {round : Ways (Option Ending)}
    {walk : FlowState → Option FlowState → FlowM (Option FlowState × Option FlowState)}
    (exact_ : ExactRound run names nodes false walk fun _ => round) (jumps : round.TakesJumps)
    {n : Nat} (enough : 2 * names.length < n) :
    Exact run names nodes (AgreesExits names)
      (fun s => run.iterate walk n s none >>= fun exit => pure (.falls exit))
      (Ways.rounds round) := by
  refine ⟨fun live => ⟨_, Rounds.circling live⟩, fun s within => ?_⟩
  obtain ⟨exit, log, yields, inside, right⟩ :=
    FlowRun.iterate_exact whole exact_ n s none within (Nat.lt_add_right _ enough)
  refine ⟨.falls exit, log ++ [], yields.bind (FlowRun.yields_pure _), by rwa [List.append_nil],
    fun lives covers => ?_⟩
  obtain ⟨exits, carried⟩ := right _ (FlowRun.agreesValue_false covers)
  have falls : endsAt ((Ways.rounds round).ends lives) .falls =
      outs (fun _ => round) (reached (fun _ => round) {p | p.1 = false ∧ p.2 ∈ lives}) := by
    ext l
    rw [← falls_iff]
    constructor
    · intro h
      obtain ⟨live, mem, q, course, same⟩ := h
      obtain ⟨value, rfl⟩ := Prod.mk.inj same
      exact ⟨(false, live), ⟨rfl, mem⟩, q, course, value.symm, rfl⟩
    · intro h
      obtain ⟨p, ⟨_, mem⟩, q, course, value, rfl⟩ := h
      exact ⟨p.2, mem, q, course, by rw [value]⟩
  refine ⟨⟨?_, ?_, ?_⟩, fun o => ?_⟩
  · have covered := exits ∅ rfl
    rwa [Set.empty_union, ← falls] at covered
  · refine covers_endsAt_empty ?_
    intro _ h
    obtain ⟨live, mem, q, course, rfl⟩ := h
    exact (course.takesJumps jumps).1
  · refine covers_endsAt_empty ?_
    intro _ h
    obtain ⟨live, mem, q, course, rfl⟩ := h
    exact (course.takesJumps jumps).2
  · rw [List.append_nil, carried, ← carried_iff]
    constructor
    · intro h
      obtain ⟨p, ⟨_, mem⟩, q, course, ho⟩ := h
      exact ⟨p.2, mem, q, course, ho⟩
    · intro h
      obtain ⟨live, mem, q, course, ho⟩ := h
      exact ⟨(false, live), ⟨rfl, mem⟩, q, course, ho⟩

/-- A loop over items: it may end before the first one. -/
theorem exact_items (whole : run.stopAtFirst = false) {round : Bool → Ways (Option Ending)}
    {walk : Bool → FlowState → Option FlowState → FlowM (Option FlowState × Option FlowState)}
    {iterable : FlowState → FlowM (Bool × FlowState)} {iterableWays : Ways Bool}
    (entered : Exact run names nodes (AgreesValue names) iterable iterableWays)
    (exact_ : ∀ entry, ExactRound run names nodes entry (walk entry) round)
    (jumps : ∀ entry, (round entry).TakesJumps) {n : Nat} (enough : 2 * names.length < n) :
    Exact run names nodes (AgreesExits names)
      (fun s => iterable s >>= fun r =>
        run.iterate (walk r.1) n r.2 (some r.2) >>= fun exit => pure (.falls exit))
      (iterableWays >>= fun entry => Ways.either (pure .falls) (Ways.rounds (round entry))) := by
  refine ⟨entered.total.bind fun entry => (Ways.total_pure _).either _, fun s within => ?_⟩
  obtain ⟨r, log, yields, inside, right⟩ := entered.walks s within
  have within' := (right _ (covers_self within)).1.state.within
  obtain ⟨exit, more, yields', inside', right'⟩ :=
    FlowRun.iterate_exact whole (exact_ r.1) n r.2 (some r.2) within' (Nat.lt_add_right _ enough)
  refine ⟨.falls exit, log ++ (more ++ []),
    yields.bind (yields'.bind (FlowRun.yields_pure _)), ?_, fun lives covers => ?_⟩
  · intro o ho
    rw [List.append_nil] at ho
    exact (List.mem_append.mp ho).elim (inside o) (inside' o)
  obtain ⟨agree, carried⟩ := right lives covers
  obtain ⟨exits, carried'⟩ := right' _ agree
  -- A course through the loop is one through the iterable, and then it leaves at
  -- once or goes round.
  have ends : ∀ p, p ∈ (iterableWays >>= fun entry =>
      Ways.either (pure .falls) (Ways.rounds (round entry))).ends lives ↔
      ∃ h ∈ iterableWays.ends lives, p = (.falls, h.2) ∨
        ∃ q, Rounds (round h.1) h.2 q ∧ p = (q.value, q.live) := by
    intro p
    constructor
    · intro h
      obtain ⟨live, mem, _, ⟨a, ha, b, rfl | course, rfl⟩, rfl⟩ := h
      · exact ⟨_, ⟨live, mem, a, ha, rfl⟩, .inl rfl⟩
      · exact ⟨_, ⟨live, mem, a, ha, rfl⟩, .inr ⟨b, course, rfl⟩⟩
    · intro h
      obtain ⟨_, ⟨live, mem, a, ha, rfl⟩, rfl | ⟨q, course, rfl⟩⟩ := h
      · exact ⟨live, mem, _, ⟨a, ha, _, .inl rfl, rfl⟩, rfl⟩
      · exact ⟨live, mem, _, ⟨a, ha, q, .inr course, rfl⟩, rfl⟩
  have falls : endsAt ((iterableWays >>= fun entry =>
      Ways.either (pure .falls) (Ways.rounds (round entry))).ends lives) .falls =
      Prod.snd '' iterableWays.ends lives ∪
        outs round (reached round (iterableWays.ends lives)) := by
    ext l
    rw [Set.mem_union, ← falls_iff]
    refine (ends _).trans ⟨?_, ?_⟩
    · intro h
      obtain ⟨h, mem, same | ⟨q, course, same⟩⟩ := h
      · exact .inl ⟨h, mem, (Prod.mk.inj same).2.symm⟩
      · obtain ⟨value, rfl⟩ := Prod.mk.inj same
        exact .inr ⟨h, mem, q, course, value.symm, rfl⟩
    · intro h
      rcases h with ⟨h, mem, rfl⟩ | ⟨h, mem, q, course, value, rfl⟩
      · exact ⟨h, mem, .inl rfl⟩
      · exact ⟨h, mem, .inr ⟨q, course, by rw [value]⟩⟩
  have noJump : ∀ p ∈ (iterableWays >>= fun entry =>
      Ways.either (pure .falls) (Ways.rounds (round entry))).ends lives,
      p.1 ≠ Ending.breaks ∧ p.1 ≠ Ending.continues := by
    intro p mem
    obtain ⟨h, _, rfl | ⟨q, course, rfl⟩⟩ := (ends p).mp mem
    · exact ⟨Ending.noConfusion, Ending.noConfusion⟩
    · exact course.takesJumps (jumps h.1)
  refine ⟨⟨?_, ?_, ?_⟩, fun o => ?_⟩
  · rw [falls]
    exact exits _ agree.state
  · exact covers_endsAt_empty fun p mem => (noJump p mem).1
  · exact covers_endsAt_empty fun p mem => (noJump p mem).2
  · rw [List.append_nil, List.mem_append, carried, carried', ← carried_iff]
    constructor
    · intro h
      rcases h with ⟨live, mem, a, ha, ho⟩ | ⟨_, ⟨live, mem, a, ha, rfl⟩, q, course, ho⟩
      · exact ⟨live, mem, _, ⟨a, ha, _, .inl rfl, rfl⟩, List.mem_append_left _ ho⟩
      · exact ⟨live, mem, _, ⟨a, ha, q, .inr course, rfl⟩, List.mem_append_right _ ho⟩
    · intro h
      obtain ⟨live, mem, _, ⟨a, ha, b, hb, rfl⟩, ho⟩ := h
      rcases List.mem_append.mp ho with ho | ho
      · exact .inl ⟨live, mem, a, ha, ho⟩
      · rcases hb with rfl | course
        · exact (List.not_mem_nil ho).elim
        · exact .inr ⟨_, ⟨live, mem, a, ha, rfl⟩, b, course, ho⟩

/-! ## Statements -/

namespace FlowRun

/-- A statement or a block is walked exactly. -/
def ExactNode (run : FlowRun) (names : List String) (nodes : List Occurrence) (above : List Node)
    (depth : Nat) : Node → Prop
  | .stmt stmt => Exact run names nodes (AgreesExits names) (run.exec above depth stmt)
      (run.spec.execWays run.source above stmt)
  | .block block => Exact run names nodes (AgreesExits names) (run.execBlock above depth block)
      (run.spec.blockWays run.source above block)
  | _ => True

theorem execAll_exact (whole : run.stopAtFirst = false) {depth : Nat} {stmts : List Stmt}
    (parts : ∀ stmt ∈ stmts, run.ExactNode names nodes above depth (.stmt stmt)) :
    Exact run names nodes (AgreesExits names) (run.execAll above depth stmts)
      (run.spec.execAllWays run.source above stmts) := by
  induction stmts with
  | nil =>
    refine exact_falls.congr (fun s => ?_) ?_
    · rw [execAll]
    · rw [FlowSpec.execAllWays]
  | cons stmt rest ih =>
    have first : Exact run names nodes (AgreesExits names) (run.exec above depth stmt)
        (run.spec.execWays run.source above stmt) := parts stmt List.mem_cons_self
    have more := ih fun c hc => parts c (List.mem_cons_of_mem _ hc)
    have both := (exact_then first more).unlessDone whole id rfl fun s => .falls (some s)
    refine both.congr (fun s => ?_) ?_
    · rw [execAll]; rfl
    · rw [FlowSpec.execAllWays]

/-- A statement that is not nested too deep is walked. -/
theorem exact_exec (whole : run.stopAtFirst = false) {depth : Nat} {stmt : Stmt}
    (deep : depth + (Node.stmt stmt).nesting ≤ run.limits.maxDepth)
    {walk : FlowState → FlowM Exits} {ways : Ways Ending}
    (h : Exact run names nodes (AgreesExits names) walk ways)
    (walks : ∀ s, run.exec above depth stmt s = run.isDone >>= fun done =>
      if (done || decide (run.limits.maxDepth ≤ depth)) = true then pure (.falls (some s))
      else walk s)
    (same : run.spec.execWays run.source above stmt = ways) :
    run.ExactNode names nodes above depth (.stmt stmt) := by
  have shallow : decide (run.limits.maxDepth ≤ depth) = false := by
    have := Node.nesting_eq (.stmt stmt)
    simp only [Node.stmt?, Option.toList_some, List.length_singleton] at this
    exact decide_eq_false (by omega)
  exact (h.unlessDone whole (· || decide (run.limits.maxDepth ≤ depth)) shallow
    fun s => .falls (some s)).congr walks same

/-- A statement of a body is walked exactly if its parts are. -/
theorem exactNode_stmt (whole : run.stopAtFirst = false)
    (enough : 2 * names.length < run.limits.maxLoopIterations) {depth : Nat} {stmt : Stmt}
    (fits : (Node.stmt stmt).Fits names nodes above)
    (deep : depth + (Node.stmt stmt).nesting ≤ run.limits.maxDepth)
    (parts : ∀ c ∈ stmt.children, (Node.stmt stmt).isNested = false →
      run.ExactNode names nodes (.stmt stmt :: above) (depth + 1) c) :
    run.ExactNode names nodes above depth (.stmt stmt) := by
  have value : ∀ {e : Expr}, (Node.stmt stmt).isNested = false → Node.expr e ∈ stmt.children →
      run.ExactAt names nodes (.stmt stmt :: above) e :=
    fun open_ mem => eval_exact whole _ _ (fits.child open_ mem)
  obtain ⟨id, form⟩ := stmt
  cases form with
  | declare decl =>
    have declared := declare_exact whole decl.vars fun v hv =>
      fits.child rfl (List.mem_map_of_mem hv)
    refine exact_exec whole deep (declared.afterState exact_falls) (fun s => ?_) ?_
    · rw [exec]
    · rw [FlowSpec.execWays]
  | expr e =>
    have e_exact := value rfl List.mem_cons_self
    refine exact_exec whole deep (e_exact.afterValue exact_falls) (fun s => ?_) ?_
    · rw [exec]
    · rw [FlowSpec.execWays]
  | ifElse condition onTrue onFalse =>
    have condition_exact := value rfl List.mem_cons_self
    have onTrue_exact : Exact run names nodes (AgreesExits names) _ _ :=
      parts (.stmt onTrue) (List.mem_cons_of_mem _ List.mem_cons_self) rfl
    cases onFalse with
    | none =>
      have branches := exact_branches _ AgreesExits.union condition_exact onTrue_exact exact_falls
      refine exact_exec whole deep branches (fun s => ?_) ?_
      · rw [exec]; rfl
      · rw [FlowSpec.execWays]
    | some onFalse =>
      have onFalse_exact : Exact run names nodes (AgreesExits names) _ _ :=
        parts (.stmt onFalse)
          (List.mem_cons_of_mem _ (List.mem_cons_of_mem _ List.mem_cons_self)) rfl
      have branches := exact_branches _ AgreesExits.union condition_exact onTrue_exact onFalse_exact
      refine exact_exec whole deep branches (fun s => ?_) ?_
      · rw [exec]; rfl
      · rw [FlowSpec.execWays]
  | whileLoop condition body =>
    have condition_exact : ∀ c ∈ some condition,
        run.ExactAt names nodes (.stmt ⟨id, .whileLoop condition body⟩ :: above) c := by
      intro c hc
      cases hc
      exact value rfl List.mem_cons_self
    have body_exact : Exact run names nodes (AgreesExits names) _ _ :=
      parts (.stmt body) (List.mem_cons_of_mem _ List.mem_cons_self) rfl
    have round := exactRound_loop condition_exact (fun e he => (List.not_mem_nil he).elim)
      body_exact false
    refine exact_exec whole deep (exact_loop whole round (takesJumps_loopWays _ _ _) enough)
      (fun s => ?_) ?_
    · rw [exec]
    · rw [FlowSpec.execWays]
  | forLoop init condition update body =>
    have init_exact := execAll_exact whole fun stmt hs =>
      parts (.stmt stmt) (List.mem_append_left _ (List.mem_append_left _
        (List.mem_append_left _ (List.mem_map_of_mem hs)))) rfl
    have condition_exact : ∀ c ∈ condition,
        run.ExactAt names nodes (.stmt ⟨id, .forLoop init condition update body⟩ :: above) c := by
      intro c hc
      refine value rfl (List.mem_append_left _ (List.mem_append_left _ ?_))
      apply List.mem_append_right
      exact List.mem_map_of_mem (Option.mem_toList.mpr hc)
    have update_exact : ∀ e ∈ update,
        run.ExactAt names nodes (.stmt ⟨id, .forLoop init condition update body⟩ :: above) e := by
      intro e he
      exact value rfl (List.mem_append_left _ (List.mem_append_right _ (List.mem_map_of_mem he)))
    have body_exact : Exact run names nodes (AgreesExits names) _ _ :=
      parts (.stmt body) (List.mem_append_right _ List.mem_cons_self) rfl
    have round := exactRound_loop condition_exact update_exact body_exact false
    have loop := exact_loop whole round (takesJumps_loopWays _ _ _) enough
    refine exact_exec whole deep (exact_then init_exact loop) (fun s => ?_) ?_
    · rw [exec]; rfl
    · rw [FlowSpec.execWays]
  | forEach typeName item iterable body =>
    have iterable_exact := value rfl (List.mem_cons_of_mem _ List.mem_cons_self)
    have body_exact : Exact run names nodes (AgreesExits names) _ _ :=
      parts (.stmt body)
        (List.mem_cons_of_mem _ (List.mem_cons_of_mem _ List.mem_cons_self)) rfl
    have item_fits : (Node.var item).Fits names nodes _ := fits.child rfl List.mem_cons_self
    have known : item.name ∈ names := item_fits.plain.known _ Node.mem_own_self item.name rfl
    have items := exact_items whole iterable_exact (exactRound_items known body_exact)
      (takesJumps_itemWays _ _) enough
    refine exact_exec whole deep items (fun s => ?_) ?_
    · rw [exec]
    · rw [FlowSpec.execWays]
  | tryCatch resources body catches finish =>
    have noTry := fits.plain.noTry _ Node.mem_own_self
    cases noTry
  | block body =>
    have body_exact : Exact run names nodes (AgreesExits names) _ _ :=
      parts (.block body) List.mem_cons_self rfl
    refine exact_exec whole deep body_exact (fun s => ?_) ?_
    · rw [exec]
    · rw [FlowSpec.execWays]
  | returnStmt result =>
    have result_exact := evalAny_exact fun e he => value rfl (List.mem_map_of_mem he)
    refine exact_exec whole deep (result_exact.afterValue exact_leaves) (fun s => ?_) ?_
    · rw [exec]
    · rw [FlowSpec.execWays]
  | throwStmt thrown =>
    have thrown_exact := value rfl List.mem_cons_self
    refine exact_exec whole deep (thrown_exact.afterValue exact_leaves) (fun s => ?_) ?_
    · rw [exec]
    · rw [FlowSpec.execWays]
  | breakStmt =>
    refine exact_exec whole deep exact_breaks (fun s => ?_) ?_
    · rw [exec]
    · rw [FlowSpec.execWays]
  | continueStmt =>
    refine exact_exec whole deep exact_continues (fun s => ?_) ?_
    · rw [exec]
    · rw [FlowSpec.execWays]
  | method head body =>
    refine exact_exec whole deep exact_falls (fun s => ?_) ?_
    · rw [exec]
    · rw [FlowSpec.execWays]
  | cls head body =>
    refine exact_exec whole deep exact_falls (fun s => ?_) ?_
    · rw [exec]
    · rw [FlowSpec.execWays]

/-- Every part of a body is walked exactly. -/
theorem exec_exact (whole : run.stopAtFirst = false)
    (enough : 2 * names.length < run.limits.maxLoopIterations) (n : Node) :
    ∀ {above : List Node} {depth : Nat}, n.Fits names nodes above →
      depth + n.nesting ≤ run.limits.maxDepth → run.ExactNode names nodes above depth n := by
  induction n using Node.inductionOn with
  | step n ih =>
    intro above depth fits deep
    have below : ∀ c ∈ n.children, n.isNested = false →
        run.ExactNode names nodes (n :: above) (depth + n.stmt?.toList.length) c := by
      intro c hc open_
      have nested := Node.nesting_le_of_child open_ hc
      exact ih c hc (fits.child open_ hc) (by omega)
    cases n with
    | stmt stmt => exact exactNode_stmt whole enough fits deep below
    | block block =>
      obtain ⟨id, isStatic, stmts⟩ := block
      have all := execAll_exact whole fun stmt hs => below (.stmt stmt) (List.mem_map_of_mem hs) rfl
      refine Exact.congr all (fun s => ?_) ?_
      · rw [execBlock]; rfl
      · rw [FlowSpec.blockWays]
    | unit _ | cls _ | var _ | expr _ => trivial

end FlowRun

end JavaMend
