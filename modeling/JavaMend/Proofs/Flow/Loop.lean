import JavaMend.Proofs.Flow.Expression

/-!
# Loops are walked exactly

A walk of a loop joins what comes back to the head into the state at the head,
until that no longer changes. `FlowRun.iterate_exact` says that the state then
covers every head that a course can come to, however often it goes round: what
comes back is determined by the state, so once it adds nothing it adds nothing
for any of the courses that the state covers.

The heads of a loop are pairs: what the loop was entered with, whether the
iterable of a loop over items carried the value, stays the same from round to
round. A loop that is not over items is entered with `false`.
-/

namespace JavaMend

variable {round : Bool → Ways (Option Ending)} {heads : Set (Bool × Live)}

/-! ## Heads -/

/-- The heads that courses come to from some heads. -/
inductive Reaches (round : Bool → Ways (Option Ending)) (heads : Set (Bool × Live)) :
    Bool → Live → Prop
  | start {entry : Bool} {live : Live} (mem : (entry, live) ∈ heads) :
      Reaches round heads entry live
  | back {entry : Bool} {live : Live} {r : Step (Option Ending)}
      (before : Reaches round heads entry live) (turn : r ∈ round entry live) (value : r.value = none) : Reaches round heads entry r.live

def reached (round : Bool → Ways (Option Ending)) (heads : Set (Bool × Live)) :
    Set (Bool × Live) := {p | Reaches round heads p.1 p.2}

/-- The heads that one round comes back to. -/
def backs (round : Bool → Ways (Option Ending)) (heads : Set (Bool × Live)) :
    Set (Bool × Live) :=
  {p | ∃ live, (p.1, live) ∈ heads ∧ ∃ r ∈ round p.1 live, r.value = none ∧ r.live = p.2}

/-- Where one round falls out of the loop. -/
def outs (round : Bool → Ways (Option Ending)) (heads : Set (Bool × Live)) : Set Live :=
  {l | ∃ p ∈ heads, ∃ r ∈ round p.1 p.2, r.value = some .falls ∧ r.live = l}

/-- What carries the value in one round. -/
def turns (round : Bool → Ways (Option Ending)) (heads : Set (Bool × Live)) : Set Occurrence :=
  {o | ∃ p ∈ heads, ∃ r ∈ round p.1 p.2, o ∈ r.carried}

theorem subset_reached : heads ⊆ reached round heads := fun _ mem => .start mem

theorem Reaches.entry {entry : Bool} {live : Live} (h : Reaches round heads entry live) :
    ∃ p ∈ heads, p.1 = entry := by
  induction h with
  | start mem => exact ⟨_, mem, rfl⟩
  | back _ _ _ ih => exact ih

/-- A round changes nothing about what can be reached. -/
theorem reached_union_backs : reached round (heads ∪ backs round heads) = reached round heads := by
  ext ⟨entry, live⟩
  show Reaches round _ entry live ↔ Reaches round heads entry live
  constructor
  · intro h
    induction h with
    | start mem =>
      rcases mem with mem | ⟨live, mem, r, turn, value, rfl⟩
      · exact .start mem
      · exact .back (.start mem) turn value
    | back _ turn value ih => exact .back ih turn value
  · intro h
    induction h with
    | start mem => exact .start (.inl mem)
    | back _ turn value ih => exact .back ih turn value

theorem outs_mono {heads' : Set (Bool × Live)} (sub : heads ⊆ heads') :
    outs round heads ⊆ outs round heads' :=
  fun _ ⟨p, mem, h⟩ => ⟨p, sub mem, h⟩

theorem turns_mono {heads' : Set (Bool × Live)} (sub : heads ⊆ heads') :
    turns round heads ⊆ turns round heads' :=
  fun _ ⟨p, mem, h⟩ => ⟨p, sub mem, h⟩

/-! ## Rounds -/

/-- A course that goes round from a head that can be reached falls out, and
carries the value, only as single rounds do. -/
theorem Rounds.of_reaches {entry : Bool} {live : Live} {q : Step Ending}
    (h : Rounds (round entry) live q) (reaches : Reaches round heads entry live) :
    (q.value = .falls → q.live ∈ outs round (reached round heads)) ∧
      ∀ o ∈ q.carried, o ∈ turns round (reached round heads) := by
  induction h with
  | circling live => exact ⟨fun h => Ending.noConfusion h, fun o ho => (List.not_mem_nil ho).elim⟩
  | @out live r ending turn value =>
    refine ⟨?_, fun o ho => ⟨(entry, live), reaches, r, turn, ho⟩⟩
    rintro rfl
    exact ⟨(entry, live), reaches, r, turn, value, rfl⟩
  | @again live r q turn value more ih =>
    obtain ⟨falls, carried⟩ := ih (reaches.back turn value)
    refine ⟨falls, fun o ho => ?_⟩
    rcases List.mem_append.mp ho with ho | ho
    · exact ⟨(entry, live), reaches, r, turn, ho⟩
    · exact carried o ho

/-- Before a course that starts at a head that can be reached, there is one that
leads to that head. -/
theorem Reaches.prepend {entry : Bool} {live : Live} (h : Reaches round heads entry live)
    {q : Step Ending} (course : Rounds (round entry) live q) :
    ∃ first, (entry, first) ∈ heads ∧ ∃ before,
      Rounds (round entry) first ⟨q.value, q.live, before ++ q.carried⟩ := by
  induction h generalizing q with
  | start mem => exact ⟨_, mem, [], course⟩
  | @back live r _ turn value ih =>
    obtain ⟨first, mem, before, longer⟩ := ih (.again turn value course)
    rw [← List.append_assoc] at longer
    exact ⟨first, mem, before ++ r.carried, longer⟩

/-- Where the courses that go round from some heads fall out. -/
theorem falls_iff {l : Live} :
    (∃ p ∈ heads, ∃ q, Rounds (round p.1) p.2 q ∧ q.value = .falls ∧ q.live = l) ↔
      l ∈ outs round (reached round heads) := by
  constructor
  · intro h
    obtain ⟨p, mem, q, course, value, rfl⟩ := h
    exact (course.of_reaches (.start mem)).1 value
  · intro h
    obtain ⟨⟨entry, live⟩, reaches, r, turn, value, rfl⟩ := h
    obtain ⟨first, mem, before, course⟩ := Reaches.prepend reaches (.out turn value)
    exact ⟨_, mem, _, course, rfl, rfl⟩

/-- What carries the value on the courses that go round from some heads. -/
theorem carried_iff {o : Occurrence} :
    (∃ p ∈ heads, ∃ q, Rounds (round p.1) p.2 q ∧ o ∈ q.carried) ↔
      o ∈ turns round (reached round heads) := by
  constructor
  · intro h
    obtain ⟨p, mem, q, course, ho⟩ := h
    exact (course.of_reaches (.start mem)).2 o ho
  · intro h
    obtain ⟨⟨entry, live⟩, reaches, r, turn, ho⟩ := h
    cases value : r.value with
    | some ending =>
      obtain ⟨first, mem, before, course⟩ := Reaches.prepend reaches (.out turn value)
      exact ⟨_, mem, _, course, List.mem_append_right _ ho⟩
    | none =>
      -- The course need not leave the loop after this round.
      obtain ⟨first, mem, before, course⟩ :=
        Reaches.prepend reaches (.again turn value (.circling r.live))
      exact ⟨_, mem, _, course, List.mem_append_right _ (List.mem_append_left _ ho)⟩

/-! ## Walks -/

/-- A walk of one round is exact: it adds to `exit` where the round falls out and
answers what comes back. `entry` is what the loop was entered with. -/
def ExactRound (run : FlowRun) (names : List String) (nodes : List Occurrence) (entry : Bool)
    (walk : FlowState → Option FlowState → FlowM (Option FlowState × Option FlowState))
    (round : Bool → Ways (Option Ending)) : Prop :=
  ∀ head exit, head.Within names → ∃ exit' back log,
    run.Yields (walk head exit) (exit', back) log ∧ (∀ o ∈ log, o ∈ nodes) ∧
      ∀ heads, AgreesValue names (entry, head) heads →
        (∀ lives, CoversOption names exit lives →
          CoversOption names exit' (lives ∪ outs round heads)) ∧
        CoversOption names back (Prod.snd '' backs round heads) ∧
        ∀ o, o ∈ log ↔ o ∈ turns round heads

variable {run : FlowRun} {names : List String} {nodes : List Occurrence} {entry : Bool}
  {head : FlowState}

/-- A head that the state is right about may be put to those it covers. -/
theorem AgreesValue.addHead (agree : AgreesValue names (entry, head) heads) {p : Bool × Live}
    (known : ∃ q ∈ heads, q.1 = p.1) (below : ∀ x, p.2 x = true → head.isLive x = true) :
    AgreesValue names (entry, head) (insert p heads) := by
  refine ⟨⟨agree.state.within, ?_, fun x => ?_⟩, ?_⟩
  · exact ⟨_, p, .inl rfl, rfl⟩
  · rw [agree.state.live, Set.exists_mem_image, Set.exists_mem_image]
    constructor
    · intro h
      obtain ⟨q, mem, on⟩ := h
      exact ⟨q, .inr mem, on⟩
    · intro h
      obtain ⟨q, rfl | mem, on⟩ := h
      · have live := below x on
        rwa [agree.state.live, Set.exists_mem_image] at live
      · exact ⟨q, mem, on⟩
  · rw [agree.value]
    constructor
    · intro h
      obtain ⟨q, mem, on⟩ := h
      exact ⟨q, .inr mem, on⟩
    · intro h
      obtain ⟨q, rfl | mem, on⟩ := h
      · obtain ⟨q', mem, same⟩ := known
        exact ⟨q', mem, same.trans on⟩
      · exact ⟨q, mem, on⟩

/-- If a round brings nothing new to the head, the state there covers every head
that can be reached. -/
theorem AgreesValue.atClosed {back : Option FlowState}
    (agree : AgreesValue names (entry, head) heads)
    (comes : ∀ heads, AgreesValue names (entry, head) heads →
      CoversOption names back (Prod.snd '' backs round heads))
    (closed : ∀ b ∈ back, ∀ x, b.isLive x = true → head.isLive x = true) :
    AgreesValue names (entry, head) (reached round heads) := by
  have below : ∀ {i live}, Reaches round heads i live →
      ∀ x, live x = true → head.isLive x = true := by
    intro i live h
    induction h with
    | @start live mem =>
      intro x on
      rw [agree.state.live]
      exact ⟨live, ⟨_, mem, rfl⟩, on⟩
    | @back live r before turn value ih =>
      intro x on
      have covers := comes _ (agree.addHead (p := (i, live)) before.entry ih)
      have mem : r.live ∈ Prod.snd '' backs round (insert (i, live) heads) :=
        ⟨(i, r.live), ⟨live, .inl rfl, r, turn, value, rfl⟩, rfl⟩
      cases back with
      | none =>
        rw [show Prod.snd '' backs round (insert (i, live) heads) = ∅ from covers] at mem
        exact mem.elim
      | some b => exact closed b rfl x ((Covers.live covers x).mpr ⟨_, mem, on⟩)
  refine ⟨⟨agree.state.within, ?_, fun x => ?_⟩, ?_⟩
  · exact agree.state.nonempty.mono (Set.image_mono subset_reached)
  · constructor
    · intro on
      obtain ⟨_, ⟨p, mem, rfl⟩, on⟩ := (agree.state.live x).mp on
      exact ⟨_, ⟨p, subset_reached mem, rfl⟩, on⟩
    · intro h
      obtain ⟨_, ⟨p, mem, rfl⟩, on⟩ := h
      exact below mem x on
  · rw [agree.value]
    constructor
    · intro h
      obtain ⟨p, mem, on⟩ := h
      exact ⟨p, subset_reached mem, on⟩
    · intro h
      obtain ⟨p, mem, on⟩ := h
      obtain ⟨q, mem, same⟩ := Reaches.entry mem
      exact ⟨q, mem, same.trans on⟩

/-- The state at the head after one more round. -/
theorem AgreesValue.afterRound {back : FlowState} (agree : AgreesValue names (entry, head) heads)
    (comes : Covers names back (Prod.snd '' backs round heads)) :
    AgreesValue names (entry, head.join back) (heads ∪ backs round heads) := by
  refine ⟨?_, ?_⟩
  · show Covers names (head.join back) _
    rw [Set.image_union]
    exact Covers.join agree.state comes
  · rw [agree.value]
    constructor
    · intro h
      obtain ⟨p, mem, on⟩ := h
      exact ⟨p, .inl mem, on⟩
    · intro h
      obtain ⟨p, mem | ⟨live, mem, _⟩, on⟩ := h
      · exact ⟨p, mem, on⟩
      · exact ⟨_, mem, on⟩

theorem agreesValue_self (within : head.Within names) :
    AgreesValue names (entry, head) {(entry, head.isLive)} := by
  refine ⟨?_, ?_⟩
  · show Covers names head _
    rw [Set.image_singleton]
    exact covers_self within
  · constructor
    · intro on
      exact ⟨_, rfl, on⟩
    · intro h
      obtain ⟨_, rfl, on⟩ := h
      exact on

theorem FlowState.beq_self (s : FlowState) : (s == s) = true :=
  FlowState.beq_iff.mpr ⟨fun _ => Iff.rfl, fun _ => Iff.rfl⟩

/-- The state at the head of a loop after what came back was joined into it. -/
def FlowState.joinBack (head : FlowState) : Option FlowState → FlowState
  | some back => head.join back
  | none => head

theorem FlowRun.iterate_succ
    (walk : FlowState → Option FlowState → FlowM (Option FlowState × Option FlowState)) (n : Nat)
    (head : FlowState) (exit : Option FlowState) :
    run.iterate walk (n + 1) head exit = walk head exit >>= fun r =>
      run.isDone >>= fun done =>
        if (head.joinBack r.2 == head || done) = true then pure r.1
        else run.iterate walk n (head.joinBack r.2) r.1 := by
  rw [iterate]
  rfl

/-- A loop that is walked often enough is walked exactly. The induction is on how
often it may still be walked, which is more than the state at its head can still
grow. -/
theorem FlowRun.iterate_exact (whole : run.stopAtFirst = false)
    {walk : FlowState → Option FlowState → FlowM (Option FlowState × Option FlowState)}
    (exact_ : ExactRound run names nodes entry walk round) (n : Nat) (head : FlowState)
    (exit : Option FlowState) (within : head.Within names)
    (enough : 2 * names.length < n + head.size names) :
    ∃ exit' log, run.Yields (run.iterate walk n head exit) exit' log ∧ (∀ o ∈ log, o ∈ nodes) ∧
      ∀ heads, AgreesValue names (entry, head) heads →
        (∀ lives, CoversOption names exit lives →
          CoversOption names exit' (lives ∪ outs round (reached round heads))) ∧
        ∀ o, o ∈ log ↔ o ∈ turns round (reached round heads) := by
  induction n generalizing head exit with
  | zero =>
    have bound : head.size names ≤ 2 * names.length := FlowState.size_le
    omega
  | succ n ih =>
    obtain ⟨exit₁, back, log₁, yields₁, inside₁, right₁⟩ := exact_ head exit within
    have comes : ∀ heads, AgreesValue names (entry, head) heads →
        CoversOption names back (Prod.snd '' backs round heads) :=
      fun heads agree => (right₁ heads agree).2.1
    rw [iterate_succ]
    by_cases fixed : (head.joinBack back == head) = true
    · -- The state covers all heads, so this round is right about all rounds.
      have closed : ∀ b ∈ back, ∀ x, b.isLive x = true → head.isLive x = true := by
        intro b hb x on
        cases hb
        rw [← FlowState.isLive_of_beq fixed, FlowState.joinBack, FlowState.isLive_join, on,
          Bool.or_true]
      refine ⟨exit₁, log₁ ++ [], yields₁.bind ?_, by rwa [List.append_nil], fun heads agree => ?_⟩
      · refine (yields_isDone whole).bind_silent ?_
        simp only [fixed, Bool.true_or, if_true]
        exact yields_pure _
      · obtain ⟨exits, _, carried⟩ := right₁ _ (agree.atClosed comes closed)
        rw [List.append_nil]
        exact ⟨exits, carried⟩
    · have fixed := Bool.eq_false_iff.mpr fixed
      cases back with
      | none => exact (Bool.false_ne_true (fixed.symm.trans (FlowState.beq_self head))).elim
      | some b =>
        have within_b : b.Within names := Covers.within (comes _ (agreesValue_self within))
        have larger := FlowState.size_lt_join within within_b fixed
        obtain ⟨exit₂, log₂, yields₂, inside₂, right₂⟩ :=
          ih (head.join b) exit₁ (within.join within_b) (by omega)
        refine ⟨exit₂, log₁ ++ log₂, yields₁.bind ?_, ?_, fun heads agree => ?_⟩
        · refine (yields_isDone whole).bind_silent ?_
          simp only [fixed, Bool.or_self, Bool.false_eq_true, if_false]
          exact yields₂
        · intro o ho
          exact (List.mem_append.mp ho).elim (inside₁ o) (inside₂ o)
        · obtain ⟨exits₁, _, carried₁⟩ := right₁ heads agree
          obtain ⟨exits₂, carried₂⟩ := right₂ _ (agree.afterRound (comes heads agree))
          rw [reached_union_backs] at exits₂ carried₂
          refine ⟨fun lives covers => ?_, fun o => ?_⟩
          · have both := exits₂ _ (exits₁ lives covers)
            rwa [Set.union_assoc, Set.union_eq_self_of_subset_left (outs_mono subset_reached)]
              at both
          · rw [List.mem_append, carried₁, carried₂]
            exact or_iff_right_of_imp fun ho => turns_mono subset_reached ho

end JavaMend
