import JavaMend.Proofs.Flow.Expression
import JavaMend.Proofs.Flow.State

/-!
# What a condition says about its parts

A walk that takes a branch of a condition may cover a local only if the branch
really tells that a guard on the local came out the right way. A condition is
read here as a formula: parentheses, `!`, `&&` and `||` have their meaning and
everything else is an atom that may be true or false. Atoms are told apart by
where they stand and not by what they are, so that two evaluations of one
expression may differ; what holds of every such valuation holds all the more
where equal atoms agree.
-/

namespace JavaMend

/-! ## Conditions as formulas -/

/-- The truth value of a condition that stands at `place`, a list of operand
numbers from the inside outward, where `atoms` gives the values of the atoms. -/
def Expr.holds (atoms : List Nat → Bool) (place : List Nat) : Expr → Bool
  | ⟨_, _, .parens inner⟩ => inner.holds atoms (0 :: place)
  | ⟨_, _, .unary .not operand⟩ => !operand.holds atoms (0 :: place)
  | ⟨_, _, .binary .and left right⟩ =>
    left.holds atoms (0 :: place) && right.holds atoms (1 :: place)
  | ⟨_, _, .binary .or left right⟩ =>
    left.holds atoms (0 :: place) || right.holds atoms (1 :: place)
  | _ => atoms place

/-- A condition at its place in another: the nodes around it from the inside
outward, and the numbers of the operands passed on the way down to it. -/
structure SubCondition where
  expr : Expr
  above : List Node
  place : List Nat

namespace SubCondition

/-- A condition that is in no other. -/
def whole (above : List Node) (e : Expr) : SubCondition := ⟨e, above, []⟩

/-- The condition as the sanitizer sees it. -/
def occurrence (c : SubCondition) : Occurrence := ⟨c.expr, ⟨.expr c.expr :: c.above⟩⟩

def holds (atoms : List Nat → Bool) (c : SubCondition) : Bool := c.expr.holds atoms c.place

/-- An operand of the condition, by its number. -/
def operand (c : SubCondition) (number : Nat) (e : Expr) : SubCondition :=
  ⟨e, .expr c.expr :: c.above, number :: c.place⟩

/-- The conditions that a condition is directly made of. -/
def operands (c : SubCondition) : List SubCondition :=
  match c.expr with
  | ⟨_, _, .parens inner⟩ => [c.operand 0 inner]
  | ⟨_, _, .unary .not operand⟩ => [c.operand 0 operand]
  | ⟨_, _, .binary op left right⟩ =>
    if op = .and ∨ op = .or then [c.operand 0 left, c.operand 1 right] else []
  | _ => []

/-- The conditions that a condition is made of, itself among them. -/
inductive Has : SubCondition → SubCondition → Prop
  | self (c : SubCondition) : Has c c
  | inside {c middle part : SubCondition} (operand : middle ∈ c.operands)
      (has : Has middle part) : Has c part

/-- Whenever the condition comes out as `branch`, the part comes out as `value`. -/
def Tells (c : SubCondition) (branch : Bool) (part : SubCondition) (value : Bool) : Prop :=
  ∀ atoms, c.holds atoms = branch → part.holds atoms = value

theorem tells_self (c : SubCondition) (branch : Bool) : c.Tells branch c branch :=
  fun _ h => h

theorem Tells.trans {c middle part : SubCondition} {branch between value : Bool}
    (first : c.Tells branch middle between) (second : middle.Tells between part value) :
    c.Tells branch part value :=
  fun atoms h => second atoms (first atoms h)

/-- A part that is a guard which covers the local, once the condition came out
as `branch`. -/
structure Covers (spec : FlowSpec) (c : SubCondition) (branch : Bool) (name : String)
    (guard : SubCondition) (value : Bool) : Prop where
  has : c.Has guard
  told : c.Tells branch guard value
  sanitizes : ∃ sanitizes, spec.sanitizes = some sanitizes ∧
    sanitizes guard.occurrence value = true
  reads : name ∈ guard.expr.localReads

variable {spec : FlowSpec} {name : String} {c middle guard : SubCondition}
  {branch between value : Bool}

/-- A guard in an operand is a guard in the condition, if the condition tells
how the operand comes out. -/
theorem Covers.inside (covers : middle.Covers spec between name guard value)
    (operand : middle ∈ c.operands) (told : c.Tells branch middle between) :
    c.Covers spec branch name guard value :=
  ⟨.inside operand covers.has, told.trans covers.told, covers.sanitizes, covers.reads⟩

theorem covers_of_mem_droppedBy
    (mem : name ∈ spec.droppedBy (.expr c.expr :: c.above) branch c.expr) :
    c.Covers spec branch name c branch := by
  unfold FlowSpec.droppedBy at mem
  split at mem
  · cases mem
  · next sanitizes given =>
    split at mem
    · next harmless => exact ⟨.self c, c.tells_self branch, ⟨sanitizes, given, harmless⟩, mem⟩
    · cases mem

/-- Of a conjunction that holds both sides hold, and of a disjunction that does
not hold neither side does. -/
theorem tells_operands {id : NodeId} {ty : Ty} {op : BinaryOp} {left right : Expr}
    (form : c.expr = ⟨id, ty, .binary op left right⟩)
    (both : ((op == .and && branch) || (op == .or && !branch)) = true) :
    (c.operand 0 left ∈ c.operands ∧ c.Tells branch (c.operand 0 left) branch) ∧
      c.operand 1 right ∈ c.operands ∧ c.Tells branch (c.operand 1 right) branch := by
  obtain ⟨e, above, place⟩ := c
  obtain rfl : e = _ := form
  simp only [Bool.or_eq_true, Bool.and_eq_true, beq_iff_eq, Bool.not_eq_true'] at both
  rcases both with ⟨rfl, rfl⟩ | ⟨rfl, rfl⟩
  · refine ⟨⟨List.mem_cons_self, fun atoms h => ?_⟩, .tail _ List.mem_cons_self, fun atoms h => ?_⟩
    · exact (Bool.and_eq_true_iff.mp h).1
    · exact (Bool.and_eq_true_iff.mp h).2
  · refine ⟨⟨List.mem_cons_self, fun atoms h => ?_⟩, .tail _ List.mem_cons_self, fun atoms h => ?_⟩
    · exact (Bool.or_eq_false_iff.mp h).1
    · exact (Bool.or_eq_false_iff.mp h).2

/-- Every local that a branch drops is read in a guard that comes out, on this
branch, in the way that makes the value harmless. -/
theorem covers_of_mem_dropped (above : List Node) (branch : Bool) (e : Expr) (place : List Nat)
    (mem : name ∈ spec.dropped above branch e) :
    ∃ guard value, Covers spec ⟨e, above, place⟩ branch name guard value := by
  fun_induction FlowSpec.dropped spec above branch e generalizing place with
  | case1 above branch id ty inner here ih =>
    obtain ⟨guard, value, covers⟩ := ih (0 :: place) mem
    exact ⟨guard, value, covers.inside List.mem_cons_self fun _ h => h⟩
  | case2 above branch id ty operand here ih =>
    obtain ⟨guard, value, covers⟩ := ih (0 :: place) mem
    refine ⟨guard, value, covers.inside List.mem_cons_self fun atoms h => ?_⟩
    exact (Bool.not_eq_eq_eq_not).mp h
  | case3 above branch id ty op left right both here ihLeft ihRight =>
    obtain ⟨⟨isLeft, tellsLeft⟩, isRight, tellsRight⟩ :=
      tells_operands (c := ⟨_, above, place⟩) rfl both
    rcases List.mem_append.mp mem with mem | mem
    · obtain ⟨guard, value, covers⟩ := ihLeft (0 :: place) mem
      exact ⟨guard, value, covers.inside isLeft tellsLeft⟩
    · obtain ⟨guard, value, covers⟩ := ihRight (1 :: place) mem
      exact ⟨guard, value, covers.inside isRight tellsRight⟩
  | case4 above branch id ty op left right single here =>
    exact ⟨_, _, covers_of_mem_droppedBy mem⟩
  | case5 above branch e noParens noNot noBinary here =>
    exact ⟨_, _, covers_of_mem_droppedBy mem⟩

end SubCondition

/-! ## What becomes of the state -/

namespace FlowState

variable {s : FlowState} {x name : String}

@[simp] theorem tainted_sanitize : (s.sanitize name).tainted = s.tainted := by
  unfold sanitize
  split <;> rfl

theorem mem_sanitized_sanitize :
    x ∈ (s.sanitize name).sanitized ↔ x ∈ s.sanitized ∨ x = name ∧ x ∈ s.tainted := by
  unfold sanitize
  split
  · next held =>
    have held := List.contains_iff_mem.mp held
    simp only [List.mem_insert_iff]
    constructor
    · rintro (rfl | old)
      · exact .inr ⟨rfl, held⟩
      · exact .inl old
    · rintro (old | ⟨rfl, -⟩)
      · exact .inr old
      · exact .inl rfl
  · next free =>
    refine ⟨.inl, ?_⟩
    rintro (old | ⟨rfl, held⟩)
    · exact old
    · exact (free (List.contains_iff_mem.mpr held)).elim

theorem tainted_foldl_sanitize (names : List String) :
    (names.foldl sanitize s).tainted = s.tainted := by
  induction names generalizing s with
  | nil => rfl
  | cons name rest ih => rw [List.foldl_cons, ih, tainted_sanitize]

theorem mem_sanitized_foldl_sanitize (names : List String) :
    x ∈ (names.foldl sanitize s).sanitized ↔ x ∈ s.sanitized ∨ x ∈ names ∧ x ∈ s.tainted := by
  induction names generalizing s with
  | nil => simp
  | cons name rest ih =>
    rw [List.foldl_cons, ih, mem_sanitized_sanitize, tainted_sanitize, List.mem_cons]
    tauto

/-- Covering locals changes only those that were live. -/
theorem mem_sanitized_foldl_sanitize_of_kept (names : List String)
    (kept : s.isLive x = true → (names.foldl sanitize s).isLive x = true) :
    x ∈ (names.foldl sanitize s).sanitized ↔ x ∈ s.sanitized := by
  rw [mem_sanitized_foldl_sanitize]
  refine ⟨?_, .inl⟩
  rintro (old | ⟨named, held⟩)
  · exact old
  · by_contra free
    have live := kept (isLive_eq_true.mpr ⟨held, free⟩)
    rw [isLive_foldl_sanitize, List.contains_eq_mem, decide_eq_true named] at live
    simp at live

/-- Where no local is live, there is none to cover. -/
theorem foldl_sanitize_of_dead (dead : ∀ x, s.isLive x = false) (names : List String) :
    names.foldl sanitize s = s := by
  induction names with
  | nil => rfl
  | cons name rest ih =>
    have covered : s.sanitize name = s := by
      unfold sanitize
      split
      · next held =>
        have old : name ∈ s.sanitized := by
          by_contra free
          have live := isLive_eq_true.mpr ⟨List.contains_iff_mem.mp held, free⟩
          rw [dead name] at live
          cases live
        rw [List.insert_of_mem old]
      · rfl
    rw [List.foldl_cons, covered, ih]

end FlowState

namespace FlowRun

variable (run : FlowRun)

/-- `FlowRun.assumeAtom` without its shortcut: the sanitizer is asked even where
no local is live. -/
def askAtom (here : List Node) (e : Expr) (branch : Bool) (s : FlowState) : FlowM FlowState := do
  match run.spec.sanitizes with
  | none => return s
  | some sanitizes =>
    let guard : Occurrence := ⟨e, ⟨here⟩⟩
    modify fun t => { t with guards := t.guards ++ [(guard, branch)] }
    return if sanitizes guard branch then e.localReads.foldl FlowState.sanitize s else s

/-- `FlowRun.assume` without the shortcut for states in which no local is live. -/
def ask (above : List Node) (branch : Bool) (e : Expr) (s : FlowState) : FlowM FlowState :=
  let here := Node.expr e :: above
  match e with
  | ⟨_, _, .parens inner⟩ => ask here branch inner s
  | ⟨_, _, .unary .not operand⟩ => ask here (!branch) operand s
  | ⟨_, _, .binary op left right⟩ =>
    if (op == .and && branch) || (op == .or && !branch) then do
      ask here branch right (← ask here branch left s)
    else run.askAtom here e branch s
  | e => run.askAtom here e branch s

variable {run}

/-- What a branch drops is what a walk covers if the sanitizer is asked everywhere. -/
theorem askAtom_state (here : List Node) (e : Expr) (branch : Bool) (s : FlowState) (t : Trace) :
    (run.askAtom here e branch s t).1 =
      (run.spec.droppedBy here branch e).foldl FlowState.sanitize s := by
  cases given : run.spec.sanitizes with
  | none => simp only [askAtom, FlowSpec.droppedBy, given]; rfl
  | some sanitizes =>
    simp only [askAtom, FlowSpec.droppedBy, given]
    show (if sanitizes _ branch then _ else _) = _
    split <;> rfl

theorem ask_state (above : List Node) (branch : Bool) (e : Expr) (s : FlowState) (t : Trace) :
    (run.ask above branch e s t).1 =
      (run.spec.dropped above branch e).foldl FlowState.sanitize s := by
  fun_induction FlowSpec.dropped run.spec above branch e generalizing s t with
  | case1 above branch id ty inner here ih =>
    simpa only [ask] using ih s t
  | case2 above branch id ty operand here ih =>
    simpa only [ask] using ih s t
  | case3 above branch id ty op left right both here ihLeft ihRight =>
    rw [ask, if_pos both, List.foldl_append, ← ihLeft s t]
    exact ihRight _ _
  | case4 above branch id ty op left right single here =>
    rw [ask, if_neg single]
    exact askAtom_state _ _ branch s t
  | case5 above branch e noParens noNot noBinary here =>
    have atom : run.ask above branch e s = run.askAtom (.expr e :: above) e branch s := by
      rw [ask] <;> assumption
    rw [atom]
    exact askAtom_state _ e branch s t

theorem assumeAtom_state (here : List Node) (e : Expr) (branch : Bool) (s : FlowState)
    (t : Trace) :
    (run.assumeAtom here e branch s t).1 =
      (run.spec.droppedBy here branch e).foldl FlowState.sanitize s := by
  by_cases dead : s.liveCount = 0
  · rw [FlowState.foldl_sanitize_of_dead (FlowState.liveCount_eq_zero_iff.mp dead)]
    cases given : run.spec.sanitizes with
    | none => simp only [assumeAtom, given]; rfl
    | some sanitizes => simp only [assumeAtom, given, dead, beq_self_eq_true, if_true]; rfl
  · rw [← askAtom_state here e branch s t]
    have lives : (s.liveCount == 0) = false := beq_eq_false_iff_ne.mpr dead
    cases given : run.spec.sanitizes with
    | none => simp only [assumeAtom, askAtom, given]
    | some sanitizes => simp only [assumeAtom, askAtom, given, lives, Bool.false_eq_true, if_false]

theorem assume_state (above : List Node) (branch : Bool) (e : Expr) (s : FlowState) (t : Trace) :
    (run.assume above branch e s t).1 =
      (run.spec.dropped above branch e).foldl FlowState.sanitize s := by
  fun_induction FlowSpec.dropped run.spec above branch e generalizing s t with
  | case1 above branch id ty inner here ih =>
    simpa only [assume] using ih s t
  | case2 above branch id ty operand here ih =>
    simpa only [assume] using ih s t
  | case3 above branch id ty op left right both here ihLeft ihRight =>
    rw [assume, if_pos both, List.foldl_append, ← ihLeft s t]
    exact ihRight _ _
  | case4 above branch id ty op left right single here =>
    rw [assume, if_neg single]
    exact assumeAtom_state _ _ branch s t
  | case5 above branch e noParens noNot noBinary here =>
    have atom : run.assume above branch e s = run.assumeAtom (.expr e :: above) e branch s := by
      rw [assume] <;> assumption
    rw [atom]
    exact assumeAtom_state _ e branch s t

/-- A walk that takes a branch of a condition covers a local only because of a
guard in the condition that reads the local and that comes out harmless
whenever the condition comes out as the branch; nothing else changes, and the
shortcut for states in which no local is live never makes a difference. -/
theorem assume_sound (run : FlowRun) (above : List Node) (branch : Bool) (condition : Expr)
    (s : FlowState) (trace : Trace) :
    let after := (run.assume above branch condition s trace).1
    (∀ x, s.isLive x = true → after.isLive x = false →
      ∃ guard value,
        (SubCondition.whole above condition).Covers run.spec branch x guard value) ∧
    (∀ x, ¬ (s.isLive x = true ∧ after.isLive x = false) →
      (x ∈ after.tainted ↔ x ∈ s.tainted) ∧ (x ∈ after.sanitized ↔ x ∈ s.sanitized)) ∧
    after = (run.ask above branch condition s trace).1 := by
  intro after
  have state : after = (run.spec.dropped above branch condition).foldl FlowState.sanitize s :=
    assume_state above branch condition s trace
  refine ⟨fun x live covered => ?_, fun x kept => ?_, ?_⟩
  · rw [state, FlowState.isLive_foldl_sanitize, live, Bool.true_and, Bool.not_eq_eq_eq_not,
      Bool.not_false, List.contains_iff_mem] at covered
    exact SubCondition.covers_of_mem_dropped above branch condition [] covered
  · refine ⟨by rw [state, FlowState.tainted_foldl_sanitize], ?_⟩
    rw [state]
    refine FlowState.mem_sanitized_foldl_sanitize_of_kept _ fun live => ?_
    rw [← state]
    cases covered : after.isLive x with
    | true => rfl
    | false => exact (kept ⟨live, covered⟩).elim
  · rw [state, ask_state]

/-- If `!(flag || !f)` holds, so does the guard `f`, and the local is covered. -/
theorem assume_sound_of_negated_disjunction :
    let f : Expr := ⟨4, .primitive .boolean, .ident "f" none⟩
    let negated : Expr := ⟨3, .primitive .boolean, .unary .not f⟩
    let flag : Expr := ⟨2, .primitive .boolean, .ident "flag" none⟩
    let either : Expr := ⟨1, .primitive .boolean, .binary .or flag negated⟩
    let condition : Expr := ⟨0, .primitive .boolean, .unary .not either⟩
    let spec : FlowSpec :=
      { kind := .value, isSource := fun _ => false, isSink := fun _ => false,
        sanitizes := some fun node value => node.expr.localName? == some "f" && value }
    let run : FlowRun := ⟨spec, .standard, flag, false⟩
    let s : FlowState := ⟨["f"], []⟩
    s.isLive "f" = true ∧ (run.assume [] true condition s ⟨[], [], []⟩).1.isLive "f" = false ∧
      ∃ guard value, (SubCondition.whole [] condition).Covers spec true "f" guard value := by
  intro f negated flag either condition spec run s
  have live : s.isLive "f" = true := by decide
  have covered : (run.assume [] true condition s ⟨[], [], []⟩).1.isLive "f" = false := by decide +kernel
  exact ⟨live, covered, (assume_sound run [] true condition s ⟨[], [], []⟩).1 "f" live covered⟩

end FlowRun

end JavaMend
