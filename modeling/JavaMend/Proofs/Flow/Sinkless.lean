import JavaMend.Flow.Walk
import JavaMend.Proofs.Flow.State
import JavaMend.Proofs.Tree.Fresh

/-!
# Walks without sinks

`FlowM.Sinkless` says that a walk finds no sink if none was found before it, and
what holds of its answer; `FlowState.LiveIn` bounds the locals that are live.
Together they say how a walk stays clear of sinks: an expression that neither
holds the source nor reads a live local carries nothing and makes nothing live
(`FlowRun.eval_avoiding`).
-/

namespace JavaMend

variable {α β : Type}

/-! ## What may be live -/

/-- No locals but those `held` are live. -/
def FlowState.LiveIn (held : List String) (s : FlowState) : Prop :=
  ∀ x, s.isLive x = true → x ∈ held

/-- The same of a state that may be missing. -/
def LiveInOption (held : List String) (s : Option FlowState) : Prop := ∀ a ∈ s, a.LiveIn held

/-- The same of every way out of a statement. -/
structure Exits.LiveIn (held : List String) (exits : Exits) : Prop where
  normal : LiveInOption held exits.normal
  breaks : LiveInOption held exits.breaks
  continues : LiveInOption held exits.continues

section States

variable {held : List String} {s a b : FlowState}

theorem FlowState.liveIn_empty : FlowState.empty.LiveIn held := by
  intro x live
  cases live

theorem FlowState.LiveIn.assign (h : s.LiveIn held) {name : String} {value : Bool}
    (may : value = true → name ∈ held) : (s.assign name value).LiveIn held := by
  intro x live
  rw [FlowState.isLive_assign] at live
  by_cases same : x = name
  · rw [if_pos same] at live
    rw [same]
    exact may live
  · rw [if_neg same] at live
    exact h x live

theorem FlowState.LiveIn.unlive (h : s.LiveIn held) {name : String}
    (free : name ∉ held) : s.isLive name = false := by
  cases live : s.isLive name with
  | false => rfl
  | true => exact (free (h name live)).elim

theorem FlowState.LiveIn.clear (h : s.LiveIn held) (name : String) :
    (s.assign name false).LiveIn held :=
  h.assign fun on => (Bool.false_ne_true on).elim

theorem FlowState.LiveIn.sanitizeAll (h : s.LiveIn held) (names : List String) :
    (names.foldl FlowState.sanitize s).LiveIn held := by
  intro x live
  rw [FlowState.isLive_foldl_sanitize, Bool.and_eq_true] at live
  exact h x live.1

theorem FlowState.LiveIn.join (ha : a.LiveIn held) (hb : b.LiveIn held) :
    (a.join b).LiveIn held := by
  intro x live
  rw [FlowState.isLive_join, Bool.or_eq_true] at live
  cases live with
  | inl live => exact ha x live
  | inr live => exact hb x live

theorem liveInOption_none : LiveInOption held none := by
  intro s mem
  cases mem

theorem FlowState.LiveIn.some (h : s.LiveIn held) : LiveInOption held (some s) := by
  intro s' mem
  cases mem
  exact h

theorem LiveInOption.merge {a b : Option FlowState} (ha : LiveInOption held a)
    (hb : LiveInOption held b) : LiveInOption held (FlowState.merge a b) := by
  cases a with
  | none => exact hb
  | some a =>
    cases b with
    | none => exact ha
    | some b => exact ((ha a rfl).join (hb b rfl)).some

theorem Exits.liveIn_falls {s : Option FlowState} (h : LiveInOption held s) :
    (Exits.falls s).LiveIn held :=
  ⟨h, liveInOption_none, liveInOption_none⟩

theorem Exits.LiveIn.after {first next : Exits} (h : first.LiveIn held) (h' : next.LiveIn held) :
    (first.after next).LiveIn held :=
  ⟨h'.normal, h.breaks.merge h'.breaks, h.continues.merge h'.continues⟩

/-- Where two ways meet that both may fall through. -/
theorem Exits.LiveIn.beside {first next : Exits} (h : first.LiveIn held) (h' : next.LiveIn held) :
    (first.after { next with normal := FlowState.merge first.normal next.normal }).LiveIn held :=
  h.after ⟨h.normal.merge h'.normal, h'.breaks, h'.continues⟩

end States

/-! ## Walks without sinks -/

/-- A walk that adds no sink to a trace without sinks and answers what `post`
says. -/
def FlowM.Sinkless (post : α → Prop) (walk : FlowM α) : Prop :=
  ∀ t : Trace, t.sinks = [] → (walk t).2.sinks = [] ∧ post (walk t).1

namespace FlowM

variable {post : α → Prop} {post' : β → Prop}

theorem Sinkless.pure {a : α} (h : post a) : Sinkless post (Pure.pure a : FlowM α) :=
  fun _ clean => ⟨clean, h⟩

theorem Sinkless.bind {walk : FlowM α} {next : α → FlowM β} (h : Sinkless post walk)
    (h' : ∀ a, post a → Sinkless post' (next a)) : Sinkless post' (walk >>= next) := by
  intro t clean
  obtain ⟨clean', answers⟩ := h t clean
  exact h' _ answers _ clean'

theorem Sinkless.mono {weaker : α → Prop} {walk : FlowM α} (h : Sinkless post walk)
    (imp : ∀ a, post a → weaker a) : Sinkless weaker walk := by
  intro t clean
  obtain ⟨clean', answers⟩ := h t clean
  exact ⟨clean', imp _ answers⟩

/-- Without a sink no walk is done. -/
theorem Sinkless.isDone (run : FlowRun) : Sinkless (· = false) run.isDone := by
  intro t clean
  refine ⟨clean, ?_⟩
  show (run.stopAtFirst && !t.sinks.isEmpty) = false
  rw [clean]
  exact Bool.and_false _

/-- A walk that asks first whether it is done. -/
theorem Sinkless.unlessDone {run : FlowRun} {stop : Bool → FlowM α}
    (h : Sinkless post (stop false)) : Sinkless post (run.isDone >>= stop) :=
  (Sinkless.isDone run).bind fun _ undone => undone ▸ h

/-- Offering what is no sink. -/
theorem Sinkless.offer {run : FlowRun} {here : List Node} {e : Expr}
    (no : run.spec.isSink ⟨e, ⟨here⟩⟩ = false) : Sinkless (fun _ => True) (run.offer here e) := by
  intro t clean
  refine ⟨?_, trivial⟩
  show (if t.offered.any (·.expr.same e) then t else _ : Trace).sinks = []
  split
  · exact clean
  · rw [no]
    exact clean

end FlowM

open FlowM

namespace FlowRun

variable {run : FlowRun} {held : List String} {above here : List Node} {s : FlowState}

/-! ## Conditions -/

theorem assumeAtom_sinkless (e : Expr) (branch : Bool) (h : s.LiveIn held) :
    Sinkless (FlowState.LiveIn held) (run.assumeAtom here e branch s) := by
  unfold assumeAtom
  cases run.spec.sanitizes with
  | none => exact .pure h
  | some sanitizes =>
    by_cases dead : (s.liveCount == 0) = true
    · simp only [dead, if_true]
      exact .pure h
    · simp only [dead, if_false, Bool.false_eq_true]
      intro t clean
      refine ⟨clean, ?_⟩
      show (if sanitizes ⟨e, ⟨here⟩⟩ branch then _ else _ : FlowState).LiveIn held
      split
      · exact h.sanitizeAll _
      · exact h

/-- Assuming a condition makes no more locals live. -/
theorem assume_sinkless (e : Expr) (branch : Bool) (h : s.LiveIn held) :
    Sinkless (FlowState.LiveIn held) (run.assume above branch e s) := by
  fun_induction assume run above branch e s with
  | case1 above branch s here id ty inner ih => exact ih h
  | case2 above branch s here id ty operand ih => exact ih h
  | case3 above branch s here id ty op left right both ihLeft ihRight =>
    exact (ihLeft h).bind fun s' h' => ihRight s' h'
  | case4 => exact assumeAtom_sinkless _ _ h
  | case5 => exact assumeAtom_sinkless _ _ h

/-! ## Expressions -/

/-- An answer that no local but those `held` is live in. -/
def Keeps (held : List String) (r : Bool × FlowState) : Prop := r.2.LiveIn held

/-- An answer that does not carry the value either. -/
structure Idles (held : List String) (r : Bool × FlowState) : Prop where
  value : r.1 = false
  state : r.2.LiveIn held

/-- What is done around the walk of an expression's parts: nothing is walked
once the walk is done, and a value that carries the flow is offered. -/
def settle (run : FlowRun) (here : List Node) (e : Expr) (s : FlowState)
    (walk : FlowM (Bool × FlowState)) : FlowM (Bool × FlowState) :=
  run.isDone >>= fun done => if done = true then pure (false, s) else
    walk >>= fun r => if (r.1 || e.same run.source) = true then
      run.offer here e >>= fun _ => pure (r.1 || e.same run.source, r.2)
    else pure (r.1 || e.same run.source, r.2)

/-- The evaluation of an expression that is no sink. -/
theorem settle_keeps {e : Expr} {walk : FlowM (Bool × FlowState)}
    (no : run.spec.isSink ⟨e, ⟨here⟩⟩ = false) (h : Sinkless (Keeps held) walk) :
    Sinkless (Keeps held) (run.settle here e s walk) := by
  apply Sinkless.unlessDone
  refine h.bind fun r keeps => ?_
  by_cases carried : (r.1 || e.same run.source) = true
  · rw [if_pos carried]
    exact (Sinkless.offer no).bind fun _ _ => .pure keeps
  · rw [if_neg carried]
    exact .pure keeps

/-- The evaluation of an expression that is not the source, nor made from it. -/
theorem settle_idles {e : Expr} {walk : FlowM (Bool × FlowState)}
    (other : e.same run.source = false) (h : Sinkless (Idles held) walk) :
    Sinkless (Idles held) (run.settle here e s walk) := by
  apply Sinkless.unlessDone
  refine h.bind fun r idles => ?_
  have uncarried : (r.1 || e.same run.source) = false := by rw [idles.value, other]; rfl
  rw [uncarried]
  exact .pure ⟨rfl, idles.state⟩

end FlowRun

/-- The expression neither is nor holds the source, and reads none of the locals
`held`. -/
def Expr.Avoids (e source : Expr) (held : List String) : Prop :=
  ∀ sub ∈ e.subterms, sub.same source = false ∧ ∀ x ∈ sub.localName?, x ∉ held

namespace Expr

variable {e c source : Expr} {held : List String}

theorem Avoids.self (h : e.Avoids source held) : e.same source = false := (h e e.mem_subterms_self).1

theorem mem_localReads_self {x : String} (reads : e.localName? = some x) : x ∈ e.localReads :=
  List.mem_filterMap.mpr ⟨e, e.mem_subterms_self, reads⟩

theorem mem_localReads_of_child {x : String} (mem : c ∈ e.children) (reads : x ∈ c.localReads) :
    x ∈ e.localReads := by
  obtain ⟨sub, below, same⟩ := List.mem_filterMap.mp reads
  exact List.mem_filterMap.mpr ⟨sub, mem_subterms_of_child mem below, same⟩

theorem Avoids.unread (h : e.Avoids source held) : ∀ x ∈ e.localReads, x ∉ held := by
  intro x reads
  obtain ⟨sub, below, same⟩ := List.mem_filterMap.mp reads
  exact (h sub below).2 x same

theorem Avoids.child (h : e.Avoids source held) (mem : c ∈ e.children) : c.Avoids source held := by
  intro sub below
  exact h sub (mem_subterms_of_child mem below)

end Expr

namespace FlowRun

variable {run : FlowRun} {held : List String} {above here : List Node} {s : FlowState}

theorem evalAny_idles {es : List Expr} (h : s.LiveIn held)
    (parts : ∀ e ∈ es, ∀ s, s.LiveIn held → Sinkless (Idles held) (run.eval above e s)) :
    Sinkless (Idles held) (run.evalAny above es s) := by
  induction es generalizing s with
  | nil =>
    rw [evalAny]
    exact .pure ⟨rfl, h⟩
  | cons e rest ih =>
    rw [evalAny]
    refine (parts e List.mem_cons_self s h).bind fun first idles => ?_
    have more := ih idles.state fun e he => parts e (List.mem_cons_of_mem _ he)
    refine more.bind fun r idles' => .pure ⟨?_, idles'.state⟩
    rw [idles.value, idles'.value]
    rfl

/-- What is made from a value that does not carry the flow does not carry it
either. -/
theorem mask_idles {walk : FlowM (Bool × FlowState)} (through : Bool → Bool)
    (off : through false = false) (h : Sinkless (Idles held) walk) :
    Sinkless (Idles held) (walk >>= fun r => pure (through r.1, r.2)) := by
  refine h.bind fun r idles => .pure ⟨?_, idles.state⟩
  rw [idles.value, off]

/-- What is made from two values, one after the other. -/
theorem either_idles {walk : FlowM (Bool × FlowState)} {next : FlowState → FlowM (Bool × FlowState)}
    (on : Bool) (h : Sinkless (Idles held) walk)
    (h' : ∀ s, s.LiveIn held → Sinkless (Idles held) (next s)) :
    Sinkless (Idles held)
      (walk >>= fun r => next r.2 >>= fun r' => pure (on && (r.1 || r'.1), r'.2)) := by
  refine h.bind fun r idles => ?_
  refine (h' r.2 idles.state).bind fun r' idles' => .pure ⟨?_, idles'.state⟩
  rw [idles.value, idles'.value, Bool.or_self, Bool.and_false]

/-- A value that is stored in a local. -/
theorem store_idles {walk : FlowM (Bool × FlowState)} (name : String) (through : Bool → Bool)
    (off : through false = false) (h : Sinkless (Idles held) walk) :
    Sinkless (Idles held)
      (walk >>= fun r => pure (through r.1, r.2.assign name (through r.1))) := by
  refine h.bind fun r idles => .pure ?_
  rw [idles.value, off]
  exact ⟨rfl, idles.state.clear name⟩

/-- A condition and a value on either branch. -/
theorem branches_idle {condition onTrue onFalse : Expr}
    (h : Sinkless (Idles held) (run.eval here condition s))
    (yes : ∀ s, s.LiveIn held → Sinkless (Idles held) (run.eval here onTrue s))
    (no : ∀ s, s.LiveIn held → Sinkless (Idles held) (run.eval here onFalse s)) :
    Sinkless (Idles held) (run.eval here condition s >>= fun r =>
      run.assume here true condition r.2 >>= fun s₁ => run.eval here onTrue s₁ >>= fun a =>
      run.assume here false condition r.2 >>= fun s₂ => run.eval here onFalse s₂ >>= fun b =>
      pure (a.1 || b.1, a.2.join b.2)) := by
  refine h.bind fun r idles => ?_
  refine (assume_sinkless condition true idles.state).bind fun s₁ h₁ => ?_
  refine (yes s₁ h₁).bind fun a idles₁ => ?_
  refine (assume_sinkless condition false idles.state).bind fun s₂ h₂ => ?_
  refine (no s₂ h₂).bind fun b idles₂ => .pure ⟨?_, idles₁.state.join idles₂.state⟩
  rw [idles₁.value, idles₂.value]
  rfl

/-- If the parts of an expression carry nothing and it reads no live local itself,
then nothing comes to it from them. -/
theorem eval_eq_settle {e : Expr} (unread : ∀ x ∈ e.localReads, x ∉ held) (h : s.LiveIn held)
    (parts : ∀ c ∈ e.children, ∀ s, s.LiveIn held →
      Sinkless (Idles held) (run.eval (.expr e :: above) c s)) :
    ∃ walk, run.eval above e s = run.settle (.expr e :: above) e s walk ∧
      Sinkless (Idles held) walk := by
  obtain ⟨id, ty, form⟩ := e
  cases form with
  | ident name owner =>
    cases owner with
    | none =>
      have free := unread name (Expr.mem_localReads_self rfl)
      have read : Sinkless (Idles held) (pure (s.isLive name, s)) := .pure ⟨h.unlive free, h⟩
      exact ⟨_, by rw [eval]; rfl, read⟩
    | some owner =>
      have read : Sinkless (Idles held) (pure (false, s)) := .pure ⟨rfl, h⟩
      exact ⟨_, by rw [eval]; rfl, read⟩
  | literal value =>
    have read : Sinkless (Idles held) (pure (false, s)) := .pure ⟨rfl, h⟩
    exact ⟨_, by rw [eval]; rfl, read⟩
  | field target name =>
    have target_idles := parts target List.mem_cons_self s h
    have made := mask_idles (run.isTaint && ·) (Bool.and_false _) target_idles
    exact ⟨_, by rw [eval]; rfl, made⟩
  | call receiver name args method =>
    cases receiver with
    | none =>
      have args_idle := evalAny_idles h parts
      have made := mask_idles (run.isTaint && ·) (Bool.and_false _) args_idle
      exact ⟨_, by rw [eval]; rfl, made⟩
    | some receiver =>
      have receiver_idles := parts receiver List.mem_cons_self s h
      have made := either_idles run.isTaint receiver_idles fun s h =>
        evalAny_idles h fun c hc => parts c (List.mem_cons_of_mem _ hc)
      exact ⟨_, by rw [eval]; rfl, made⟩
  | create className args method =>
    have args_idle := evalAny_idles h parts
    have made := mask_idles (run.isTaint && ·) (Bool.and_false _) args_idle
    exact ⟨_, by rw [eval]; rfl, made⟩
  | array element size =>
    have size_idles := parts size List.mem_cons_self s h
    have made := mask_idles (fun _ => false) rfl size_idles
    exact ⟨_, by rw [eval]; rfl, made⟩
  | binary op left right =>
    have left_idles := parts left List.mem_cons_self s h
    have made := either_idles (run.isTaint && op == .add && ty.isString) left_idles
      (parts right (List.mem_cons_of_mem _ List.mem_cons_self))
    exact ⟨_, by rw [eval]; rfl, made⟩
  | unary op operand =>
    have operand_idles := parts operand List.mem_cons_self s h
    have made := mask_idles (fun _ => false) rfl operand_idles
    exact ⟨_, by rw [eval]; rfl, made⟩
  | assign op target value =>
    have value_idles := parts value (List.mem_cons_of_mem _ List.mem_cons_self)
    cases local_ : target.localName? with
    | none =>
      have target_idles := parts target List.mem_cons_self s h
      have made : Sinkless (Idles held) (_ >>= fun r : Bool × FlowState => _) :=
        target_idles.bind fun r idles => value_idles r.2 idles.state
      refine ⟨_, ?_, made⟩
      rw [eval]
      simp only [local_]
      rfl
    | some name =>
      -- The target is read by its name, so it is not among the live locals.
      have free := unread name
        (Expr.mem_localReads_of_child List.mem_cons_self (Expr.mem_localReads_self local_))
      cases op with
      | none =>
        refine ⟨_, ?_, store_idles name (fun value => value) rfl (value_idles s h)⟩
        rw [eval]
        simp only [local_]
        rfl
      | some op =>
        refine ⟨_, ?_, store_idles name (run.isTaint && ·) (Bool.and_false _) (value_idles s h)⟩
        rw [eval]
        simp only [local_, h.unlive free, Bool.false_or]
        rfl
  | parens inner =>
    have inner_idles := parts inner List.mem_cons_self s h
    exact ⟨_, by rw [eval]; rfl, inner_idles⟩
  | cast typeName operand =>
    have operand_idles := parts operand List.mem_cons_self s h
    exact ⟨_, by rw [eval]; rfl, operand_idles⟩
  | ternary condition onTrue onFalse =>
    have condition_idles := parts condition List.mem_cons_self s h
    have made := branches_idle condition_idles
      (parts onTrue (List.mem_cons_of_mem _ List.mem_cons_self))
      (parts onFalse (List.mem_cons_of_mem _ (List.mem_cons_of_mem _ List.mem_cons_self)))
    exact ⟨_, by rw [eval]; rfl, made⟩

/-- An expression that avoids the source and the live locals makes nothing live
and finds no sink. -/
theorem eval_avoiding (e : Expr) (above : List Node) {s : FlowState}
    (avoids : e.Avoids run.source held) (h : s.LiveIn held) :
    Sinkless (Idles held) (run.eval above e s) :=
  have ⟨_, same, idles⟩ := eval_eq_settle avoids.unread h fun c hc _ h' =>
    eval_avoiding c _ (avoids.child hc) h'
  same ▸ settle_idles avoids.self idles
termination_by sizeOf e
decreasing_by exact Expr.sizeOf_lt_of_mem_children hc

end FlowRun

end JavaMend
