import JavaMend.Flow.Query
import Mathlib.Data.List.Dedup
import Mathlib.Data.List.MinMax
import JavaMend.Proofs.Flow.Course
import JavaMend.Proofs.Flow.State
import Mathlib.Data.Set.Image

/-!
# Exact walks

What a walk of a body can come to are the nodes below it, but nothing inside of
the methods and classes among them, which are bodies of their own. From these
nodes everything is read off that matters for how far a walk has to go: the
expressions and where they stand, how deep statements are nested, and which
locals are written.

A walk keeps one state where there are many courses. `Covers` says when the
state is right about them: a local is live in it if it holds the value on one of
them. A walk is `Exact` if this is kept: from a state that covers some courses it
answers what covers the courses that go on from there, and it offers the
expressions that carry the value on one of these, no more and no fewer.

What a walk answers depends on the state alone. So its answer is chosen before
the courses that the state covers, and it is right for all of them; the argument
for loops rests on this order.
-/

namespace JavaMend

/-! ## Bodies -/

namespace Node

/-- A method or a class: a body of its own inside of another. -/
def isNested (n : Node) : Bool := n.kind == .method || n.kind == .cls

def isTry : Node → Bool
  | stmt ⟨_, .tryCatch _ _ _ _⟩ => true
  | _ => false

/-- The local that a node gives a value to: the one a variable declares, or the
target of an assignment. -/
def written? : Node → Option String
  | var v => some v.name
  | expr ⟨_, _, .assign _ target _⟩ => target.localName?
  | _ => none

/-- The nodes of a body in pre-order, the node itself first. -/
def own (n : Node) : List Node :=
  n :: if n.isNested then [] else n.children.attach.flatMap fun ⟨c, _⟩ => c.own
termination_by sizeOf n
decreasing_by exact sizeOf_lt_of_mem_children ‹_›

/-- The expressions of a body with the paths to them. -/
def occurrences (above : List Node) (n : Node) : List Occurrence :=
  (n.expr?.toList.map fun e => ⟨e, ⟨n :: above⟩⟩) ++
    if n.isNested then [] else n.children.attach.flatMap fun ⟨c, _⟩ => c.occurrences (n :: above)
termination_by sizeOf n
decreasing_by exact sizeOf_lt_of_mem_children ‹_›

/-- How many statements of a body stand in each other, the node included. -/
def nesting (n : Node) : Nat :=
  n.stmt?.toList.length +
    if n.isNested then 0 else (n.children.attach.map fun ⟨c, _⟩ => c.nesting).foldr max 0
termination_by sizeOf n
decreasing_by exact sizeOf_lt_of_mem_children ‹_›

variable {n c : Node} {above : List Node}

theorem own_eq (n : Node) : n.own = n :: if n.isNested then [] else n.children.flatMap own := by
  rw [own]
  simp only [List.flatMap_subtype, List.unattach_attach]

theorem occurrences_eq (above : List Node) (n : Node) :
    n.occurrences above = (n.expr?.toList.map fun e => ⟨e, ⟨n :: above⟩⟩) ++
      if n.isNested then [] else n.children.flatMap (occurrences (n :: above)) := by
  rw [occurrences]
  simp only [List.flatMap_subtype, List.unattach_attach]

theorem nesting_eq (n : Node) :
    n.nesting = n.stmt?.toList.length +
      if n.isNested then 0 else (n.children.map nesting).foldr max 0 := by
  rw [nesting]
  simp only [List.map_subtype, List.unattach_attach]

theorem mem_own_self : n ∈ n.own := by
  rw [own_eq]
  exact List.mem_cons_self

theorem mem_own_of_child (open_ : n.isNested = false) (mem : c ∈ n.children) {m : Node}
    (below : m ∈ c.own) : m ∈ n.own := by
  rw [own_eq, open_]
  exact List.mem_cons_of_mem _ (List.mem_flatMap.mpr ⟨c, mem, below⟩)

theorem mem_occurrences_of_child (open_ : n.isNested = false) (mem : c ∈ n.children)
    {o : Occurrence} (below : o ∈ c.occurrences (n :: above)) : o ∈ n.occurrences above := by
  rw [occurrences_eq, open_]
  exact List.mem_append_right _ (List.mem_flatMap.mpr ⟨c, mem, below⟩)

theorem mem_occurrences_self {e : Expr} :
    (⟨e, ⟨.expr e :: above⟩⟩ : Occurrence) ∈ (Node.expr e).occurrences above := by
  rw [occurrences_eq]
  exact List.mem_append_left _ List.mem_cons_self

theorem nesting_le_of_child (open_ : n.isNested = false) (mem : c ∈ n.children) :
    n.stmt?.toList.length + c.nesting ≤ n.nesting := by
  have le : c.nesting ≤ (n.children.map nesting).foldr max 0 :=
    List.le_max_of_le' 0 (List.mem_map_of_mem mem) (Nat.le_refl _)
  rw [nesting_eq n, open_]
  exact Nat.add_le_add_left le _

/-- The expressions at the occurrences are those among the nodes. -/
theorem map_occurrences (n : Node) (above : List Node) :
    (n.occurrences above).map Occurrence.expr = n.own.filterMap expr? := by
  induction n using Node.inductionOn generalizing above with
  | step n ih =>
    have self : (n.expr?.toList.map fun e => (⟨e, ⟨n :: above⟩⟩ : Occurrence)).map Occurrence.expr =
        n.expr?.toList := by
      rw [List.map_map]
      exact List.map_id _
    have own_self : (n :: if n.isNested then [] else n.children.flatMap own).filterMap expr? =
        n.expr?.toList ++ (if n.isNested then [] else n.children.flatMap own).filterMap expr? := by
      rw [List.filterMap_cons]
      cases n.expr? <;> rfl
    rw [occurrences_eq, own_eq, List.map_append, self, own_self]
    congr 1
    split
    · rfl
    · rw [List.map_flatMap, List.filterMap_flatMap]
      exact List.flatMap_congr fun c hc => ih c hc (n :: above)

/-- A part of a body without `try`, all of whose written locals are among
`names`. -/
structure Plain (names : List String) (n : Node) : Prop where
  noTry : ∀ m ∈ n.own, m.isTry = false
  known : ∀ m ∈ n.own, ∀ x ∈ m.written?, x ∈ names

theorem Plain.child {names : List String} (h : n.Plain names) (open_ : n.isNested = false)
    (mem : c ∈ n.children) : c.Plain names :=
  ⟨fun m hm => h.noTry m (mem_own_of_child open_ mem hm),
    fun m hm => h.known m (mem_own_of_child open_ mem hm)⟩

/-- A part of a body, below `above`, whose expressions stand at `nodes`. -/
structure Fits (names : List String) (nodes : List Occurrence) (above : List Node) (n : Node) :
    Prop where
  plain : n.Plain names
  inside : ∀ o ∈ n.occurrences above, o ∈ nodes

theorem Fits.child {names : List String} {nodes : List Occurrence}
    (h : n.Fits names nodes above) (open_ : n.isNested = false) (mem : c ∈ n.children) :
    c.Fits names nodes (n :: above) :=
  ⟨h.plain.child open_ mem, fun o ho => h.inside o (mem_occurrences_of_child open_ mem ho)⟩

end Node

namespace Block

/-- The distinct locals that a body declares or assigns. -/
def localNames (body : Block) : List String :=
  ((Node.block body).own.filterMap Node.written?).dedup

/-- No expression of a body stands at two places of it. -/
def Unshared (body : Block) : Prop :=
  ((Node.block body).own.filterMap Node.expr?).Pairwise fun a b => a.id ≠ b.id

end Block

variable {α β γ δ : Type}

/-! ## What a walk answers and offers -/

namespace FlowRun

/-- The trace after an expression was offered. -/
def offerTo (run : FlowRun) (t : Trace) (node : Occurrence) : Trace :=
  if t.offered.any (·.expr.same node.expr) then t
  else
    { t with
      offered := t.offered ++ [node]
      sinks := if run.spec.isSink node then t.sinks ++ [node] else t.sinks }

theorem foldl_offerTo_guards (run : FlowRun) (log : List Occurrence) (t : Trace)
    (guards : List (Occurrence × Bool)) :
    log.foldl run.offerTo { t with guards } = { log.foldl run.offerTo t with guards } := by
  induction log generalizing t with
  | nil => rfl
  | cons node rest ih =>
    have step : run.offerTo { t with guards } node = { run.offerTo t node with guards } := by
      unfold offerTo
      by_cases seen : t.offered.any (·.expr.same node.expr) = true
      · rw [if_pos seen, if_pos seen]
      · rw [if_neg seen, if_neg seen]
    rw [List.foldl_cons, List.foldl_cons, step, ih]

/-- Whatever was found before, the walk answers `a` and offers `log`. -/
def Yields (run : FlowRun) (walk : FlowM α) (a : α) (log : List Occurrence) : Prop :=
  ∃ guards, ∀ t, walk t = (a, { log.foldl run.offerTo t with guards := t.guards ++ guards })

variable {run : FlowRun}

theorem yields_pure (a : α) : run.Yields (pure a) a [] :=
  ⟨[], fun t => by rw [List.append_nil]; rfl⟩

theorem Yields.bind {walk : FlowM α} {next : α → FlowM β} {a : α} {b : β}
    {log more : List Occurrence} (first : run.Yields walk a log)
    (second : run.Yields (next a) b more) : run.Yields (walk >>= next) b (log ++ more) := by
  obtain ⟨guards₁, run₁⟩ := first
  obtain ⟨guards₂, run₂⟩ := second
  refine ⟨guards₁ ++ guards₂, fun t => ?_⟩
  show StateT.bind walk next t = _
  simp only [StateT.bind, run₁]
  show next a _ = _
  rw [run₂, foldl_offerTo_guards, List.foldl_append, List.append_assoc]

/-- A step that neither answers nor offers anything. -/
theorem Yields.bind_silent {walk : FlowM α} {next : α → FlowM β} {a : α} {b : β}
    {log : List Occurrence} (first : run.Yields walk a []) (second : run.Yields (next a) b log) :
    run.Yields (walk >>= next) b log :=
  first.bind second

theorem yields_isDone (whole : run.stopAtFirst = false) : run.Yields run.isDone false [] := by
  refine ⟨[], fun t => ?_⟩
  rw [List.append_nil]
  show (run.stopAtFirst && !t.sinks.isEmpty, t) = (false, t)
  rw [whole, Bool.false_and]

theorem yields_offer (here : List Node) (e : Expr) :
    run.Yields (run.offer here e) () [⟨e, ⟨here⟩⟩] := by
  refine ⟨[], fun t => ?_⟩
  show ((), run.offerTo t ⟨e, ⟨here⟩⟩) = _
  rw [List.append_nil]
  show _ = ((), { run.offerTo t ⟨e, ⟨here⟩⟩ with guards := t.guards })
  unfold offerTo
  split <;> rfl

end FlowRun

/-! ## States and courses -/

/-- The state is right about courses with these locals: a local is live if it
holds the value on one of them. -/
structure Covers (names : List String) (s : FlowState) (lives : Set Live) : Prop where
  within : s.Within names
  nonempty : lives.Nonempty
  live : ∀ x, s.isLive x = true ↔ ∃ live ∈ lives, live x = true

/-- The same for a point that no course may come to. -/
def CoversOption (names : List String) (s : Option FlowState) (lives : Set Live) : Prop :=
  match s with
  | some s => Covers names s lives
  | none => lives = ∅

variable {names : List String} {s : FlowState} {lives : Set Live}

theorem covers_self (within : s.Within names) : Covers names s {s.isLive} :=
  ⟨within, ⟨_, rfl⟩, fun _ => ⟨fun h => ⟨_, rfl, h⟩, fun ⟨_, same, h⟩ => same ▸ h⟩⟩

theorem Covers.join {a b : FlowState} {lives₁ lives₂ : Set Live} (first : Covers names a lives₁)
    (second : Covers names b lives₂) : Covers names (a.join b) (lives₁ ∪ lives₂) := by
  refine ⟨first.within.join second.within, first.nonempty.inl, fun x => ?_⟩
  rw [FlowState.isLive_join, Bool.or_eq_true, first.live, second.live]
  constructor
  · intro h
    rcases h with ⟨live, mem, h⟩ | ⟨live, mem, h⟩
    · exact ⟨live, .inl mem, h⟩
    · exact ⟨live, .inr mem, h⟩
  · intro h
    obtain ⟨live, mem | mem, h⟩ := h
    · exact .inl ⟨live, mem, h⟩
    · exact .inr ⟨live, mem, h⟩

/-- Merging states puts courses together. -/
theorem CoversOption.merge {a b : Option FlowState} {lives₁ lives₂ : Set Live}
    (first : CoversOption names a lives₁) (second : CoversOption names b lives₂) :
    CoversOption names (FlowState.merge a b) (lives₁ ∪ lives₂) := by
  cases a with
  | none =>
    rw [show lives₁ = ∅ from first, Set.empty_union]
    exact second
  | some a =>
    cases b with
    | none =>
      rw [show lives₂ = ∅ from second, Set.union_empty]
      exact first
    | some b => exact Covers.join first second

namespace Ways

/-- Where courses with some locals can end. -/
def ends (ways : Ways α) (lives : Set Live) : Set (α × Live) :=
  {p | ∃ live ∈ lives, ∃ r ∈ ways live, p = (r.value, r.live)}

/-- What carries the value on one of the courses with some locals. -/
def carries (ways : Ways α) (lives : Set Live) : Set Occurrence :=
  {o | ∃ live ∈ lives, ∃ r ∈ ways live, o ∈ r.carried}

/-- There always is a way. -/
def Total (ways : Ways α) : Prop := ∀ live, (ways live).Nonempty

theorem ends_empty (ways : Ways α) : ways.ends ∅ = ∅ := by
  ext p
  exact ⟨fun ⟨_, mem, _⟩ => mem, False.elim⟩

theorem carries_empty (ways : Ways α) : ways.carries ∅ = ∅ := by
  ext o
  exact ⟨fun ⟨_, mem, _⟩ => mem, False.elim⟩

theorem total_pure (a : α) : Total (pure a : Ways α) := fun live => ⟨⟨a, live, []⟩, rfl⟩

theorem Total.bind {first : Ways α} {rest : α → Ways β} (h : first.Total)
    (hrest : ∀ a, (rest a).Total) : (first >>= rest).Total := by
  intro live
  obtain ⟨a, ha⟩ := h live
  obtain ⟨b, hb⟩ := hrest a.value a.live
  exact ⟨_, a, ha, b, hb, rfl⟩

theorem Total.either {first : Ways α} (h : first.Total) (second : Ways α) :
    (either first second).Total := fun live => (h live).inl

theorem ends_pure (a : α) (lives : Set Live) :
    (pure a : Ways α).ends lives = {p | p.1 = a ∧ p.2 ∈ lives} := by
  ext ⟨b, live⟩
  constructor
  · intro h
    obtain ⟨live', mem, r, rfl, same⟩ := h
    obtain ⟨rfl, rfl⟩ := Prod.mk.inj same
    exact ⟨rfl, mem⟩
  · intro h
    obtain ⟨rfl, mem⟩ := h
    exact ⟨live, mem, _, rfl, rfl⟩

theorem carries_pure (a : α) (lives : Set Live) : (pure a : Ways α).carries lives = ∅ := by
  ext o
  constructor
  · intro h
    obtain ⟨live, mem, r, rfl, ho⟩ := h
    exact (List.not_mem_nil ho).elim
  · exact False.elim

/-- What follows a first part that is followed by the same in any case. -/
theorem ends_then (first : Ways α) (rest : Ways β) (lives : Set Live) :
    (first >>= fun _ => rest).ends lives = rest.ends (Prod.snd '' first.ends lives) := by
  ext p
  constructor
  · intro h
    obtain ⟨live, mem, _, ⟨a, ha, b, hb, rfl⟩, rfl⟩ := h
    exact ⟨a.live, ⟨_, ⟨live, mem, a, ha, rfl⟩, rfl⟩, b, hb, rfl⟩
  · intro h
    obtain ⟨_, ⟨_, ⟨live, mem, a, ha, rfl⟩, rfl⟩, b, hb, rfl⟩ := h
    exact ⟨live, mem, _, ⟨a, ha, b, hb, rfl⟩, rfl⟩

theorem carries_then (first : Ways α) {rest : Ways β} (total : rest.Total) (lives : Set Live) :
    (first >>= fun _ => rest).carries lives =
      first.carries lives ∪ rest.carries (Prod.snd '' first.ends lives) := by
  ext o
  constructor
  · intro h
    obtain ⟨live, mem, _, ⟨a, ha, b, hb, rfl⟩, ho⟩ := h
    rcases List.mem_append.mp ho with ho | ho
    · exact .inl ⟨live, mem, a, ha, ho⟩
    · exact .inr ⟨a.live, ⟨_, ⟨live, mem, a, ha, rfl⟩, rfl⟩, b, hb, ho⟩
  · intro h
    rcases h with ⟨live, mem, a, ha, ho⟩ | ⟨_, ⟨_, ⟨live, mem, a, ha, rfl⟩, rfl⟩, b, hb, ho⟩
    · obtain ⟨b, hb⟩ := total a.live
      exact ⟨live, mem, _, ⟨a, ha, b, hb, rfl⟩, List.mem_append_left _ ho⟩
    · exact ⟨live, mem, _, ⟨a, ha, b, hb, rfl⟩, List.mem_append_right _ ho⟩

theorem ends_map (ways : Ways α) (g : α → β) (lives : Set Live) :
    (ways >>= fun a => pure (g a)).ends lives = (fun p => (g p.1, p.2)) '' ways.ends lives := by
  ext p
  constructor
  · intro h
    obtain ⟨live, mem, _, ⟨a, ha, b, rfl, rfl⟩, rfl⟩ := h
    exact ⟨_, ⟨live, mem, a, ha, rfl⟩, rfl⟩
  · intro h
    obtain ⟨_, ⟨live, mem, a, ha, rfl⟩, rfl⟩ := h
    exact ⟨live, mem, _, ⟨a, ha, _, rfl, rfl⟩, rfl⟩

theorem carries_map (ways : Ways α) (g : α → β) (lives : Set Live) :
    (ways >>= fun a => pure (g a)).carries lives = ways.carries lives := by
  ext o
  constructor
  · intro h
    obtain ⟨live, mem, _, ⟨a, ha, b, rfl, rfl⟩, ho⟩ := h
    rw [List.append_nil] at ho
    exact ⟨live, mem, a, ha, ho⟩
  · intro h
    obtain ⟨live, mem, a, ha, ho⟩ := h
    exact ⟨live, mem, _, ⟨a, ha, _, rfl, rfl⟩, List.mem_append_left _ ho⟩

/-- What carries the value in two parts does not depend on how their values are
put together. -/
theorem carries_both (first : Ways α) (rest : Ways β) (f : α → β → γ) (lives : Set Live) :
    (first >>= fun a => rest >>= fun b => pure (f a b)).carries lives =
      (first >>= fun _ => rest).carries lives := by
  ext o
  constructor
  · intro h
    obtain ⟨live, mem, _, ⟨a, ha, _, ⟨b, hb, _, rfl, rfl⟩, rfl⟩, ho⟩ := h
    rw [List.append_nil] at ho
    exact ⟨live, mem, _, ⟨a, ha, b, hb, rfl⟩, ho⟩
  · intro h
    obtain ⟨live, mem, _, ⟨a, ha, b, hb, rfl⟩, ho⟩ := h
    refine ⟨live, mem, _, ⟨a, ha, _, ⟨b, hb, _, rfl, rfl⟩, rfl⟩, ?_⟩
    rwa [List.append_nil]

/-- Two parts end where the second one ends. -/
theorem snd_ends_both (first : Ways α) (rest : Ways β) (f : α → β → γ) (lives : Set Live) :
    Prod.snd '' (first >>= fun a => rest >>= fun b => pure (f a b)).ends lives =
      Prod.snd '' rest.ends (Prod.snd '' first.ends lives) := by
  ext live'
  constructor
  · intro h
    obtain ⟨_, ⟨live, mem, _, ⟨a, ha, _, ⟨b, hb, _, rfl, rfl⟩, rfl⟩, rfl⟩, rfl⟩ := h
    exact ⟨_, ⟨a.live, ⟨_, ⟨live, mem, a, ha, rfl⟩, rfl⟩, b, hb, rfl⟩, rfl⟩
  · intro h
    obtain ⟨_, ⟨_, ⟨_, ⟨live, mem, a, ha, rfl⟩, rfl⟩, b, hb, rfl⟩, rfl⟩ := h
    exact ⟨_, ⟨live, mem, _, ⟨a, ha, _, ⟨b, hb, _, rfl, rfl⟩, rfl⟩, rfl⟩, rfl⟩

theorem ends_either (first second : Ways α) (lives : Set Live) :
    (either first second).ends lives = first.ends lives ∪ second.ends lives := by
  ext p
  constructor
  · intro h
    obtain ⟨live, mem, r, hr | hr, rfl⟩ := h
    · exact .inl ⟨live, mem, r, hr, rfl⟩
    · exact .inr ⟨live, mem, r, hr, rfl⟩
  · intro h
    rcases h with ⟨live, mem, r, hr, rfl⟩ | ⟨live, mem, r, hr, rfl⟩
    · exact ⟨live, mem, r, .inl hr, rfl⟩
    · exact ⟨live, mem, r, .inr hr, rfl⟩

theorem carries_either (first second : Ways α) (lives : Set Live) :
    (either first second).carries lives = first.carries lives ∪ second.carries lives := by
  ext o
  constructor
  · intro h
    obtain ⟨live, mem, r, hr | hr, ho⟩ := h
    · exact .inl ⟨live, mem, r, hr, ho⟩
    · exact .inr ⟨live, mem, r, hr, ho⟩
  · intro h
    rcases h with ⟨live, mem, r, hr, ho⟩ | ⟨live, mem, r, hr, ho⟩
    · exact ⟨live, mem, r, .inl hr, ho⟩
    · exact ⟨live, mem, r, .inr hr, ho⟩

end Ways

/-! ## Exactness -/

/-- From a state that covers courses, the walk answers what `agrees` with where
these can end, and offers what carries the value on one of them. What it offers
stands at one of `nodes`. -/
structure Exact (run : FlowRun) (names : List String) (nodes : List Occurrence)
    (agrees : β → Set (α × Live) → Prop) (walk : FlowState → FlowM β) (ways : Ways α) : Prop where
  total : ways.Total
  walks : ∀ s, s.Within names → ∃ b log, run.Yields (walk s) b log ∧ (∀ o ∈ log, o ∈ nodes) ∧
    ∀ lives, Covers names s lives →
      agrees b (ways.ends lives) ∧ ∀ o, o ∈ log ↔ o ∈ ways.carries lives

/-- The answer is the state afterwards. -/
def AgreesState (names : List String) (s : FlowState) (ends : Set (α × Live)) : Prop :=
  Covers names s (Prod.snd '' ends)

/-- The answer is the state afterwards, and whether the value carries the flow
on one of the courses. -/
structure AgreesValue (names : List String) (r : Bool × FlowState) (ends : Set (Bool × Live)) :
    Prop where
  state : AgreesState names r.2 ends
  value : r.1 = true ↔ ∃ p ∈ ends, p.1 = true

/-- Where a local is assigned, it holds the value on exactly the courses that
assign it. -/
theorem AgreesValue.store {r : Bool × FlowState} {ends : Set (Bool × Live)} {name : String}
    (agree : AgreesValue names r ends) (known : name ∈ names) :
    Covers names (r.2.assign name r.1) ((fun p => p.2.assign name p.1) '' ends) := by
  refine ⟨agree.state.within.assign known _, ?_, fun x => ?_⟩
  · obtain ⟨_, p, mem, _⟩ := agree.state.nonempty
    exact ⟨_, p, mem, rfl⟩
  · rw [FlowState.isLive_assign, Set.exists_mem_image]
    by_cases same : x = name
    · subst same
      simp only [if_true, Live.assign_self]
      exact agree.value
    · simp only [if_neg same, Live.assign_of_ne _ same]
      rw [agree.state.live, Set.exists_mem_image]

/-- A value that carries the flow on one of two ways. -/
theorem AgreesValue.union (a b : Bool × FlowState) (ends₁ ends₂ : Set (Bool × Live))
    (first : AgreesValue names a ends₁) (second : AgreesValue names b ends₂) :
    AgreesValue names (a.1 || b.1, a.2.join b.2) (ends₁ ∪ ends₂) := by
  refine ⟨?_, ?_⟩
  · show Covers names (a.2.join b.2) _
    rw [Set.image_union]
    exact Covers.join first.state second.state
  · rw [Bool.or_eq_true, first.value, second.value]
    constructor
    · intro h
      rcases h with ⟨p, mem, on⟩ | ⟨p, mem, on⟩
      · exact ⟨p, .inl mem, on⟩
      · exact ⟨p, .inr mem, on⟩
    · intro h
      obtain ⟨p, mem | mem, on⟩ := h
      · exact .inl ⟨p, mem, on⟩
      · exact .inr ⟨p, mem, on⟩

namespace Exact

variable {run : FlowRun} {nodes : List Occurrence}
  {agrees : β → Set (α × Live) → Prop} {agrees' : δ → Set (γ × Live) → Prop}
  {walk : FlowState → FlowM β} {ways : Ways α}

theorem congr {walk' : FlowState → FlowM β} {ways' : Ways α}
    (h : Exact run names nodes agrees walk ways) (walks : ∀ s, walk' s = walk s)
    (same : ways' = ways) : Exact run names nodes agrees walk' ways' := by
  subst same
  exact ⟨h.total, fun s within => walks s ▸ h.walks s within⟩

/-- A walk that answers at once. -/
theorem answer {f : FlowState → β} {a : α}
    (h : ∀ s lives, Covers names s lives → agrees (f s) {p | p.1 = a ∧ p.2 ∈ lives}) :
    Exact run names nodes agrees (fun s => pure (f s)) (pure a) := by
  refine ⟨Ways.total_pure a, fun s within => ⟨f s, [], FlowRun.yields_pure _, ?_, ?_⟩⟩
  · intro o ho
    cases ho
  · intro lives covers
    rw [Ways.ends_pure, Ways.carries_pure]
    exact ⟨h s lives covers, fun o => ⟨fun ho => (List.not_mem_nil ho).elim, False.elim⟩⟩

/-- A walk goes on where another ended. -/
theorem seq {walk' : FlowState → FlowM δ} {ways' : Ways γ} (state : β → FlowState)
    (covers : ∀ b ends, agrees b ends → AgreesState names (state b) ends)
    (first : Exact run names nodes agrees walk ways)
    (second : Exact run names nodes agrees' walk' ways') :
    Exact run names nodes agrees' (fun s => walk s >>= fun b => walk' (state b))
      (ways >>= fun _ => ways') := by
  refine ⟨first.total.bind fun _ => second.total, fun s within => ?_⟩
  obtain ⟨b, log, yields, inside, right⟩ := first.walks s within
  have between := covers b _ (right _ (covers_self within)).1
  obtain ⟨d, more, yields', inside', right'⟩ := second.walks (state b) between.within
  refine ⟨d, log ++ more, yields.bind yields', ?_, fun lives h => ?_⟩
  · intro o ho
    exact (List.mem_append.mp ho).elim (inside o) (inside' o)
  · obtain ⟨agree, carried⟩ := right lives h
    obtain ⟨agree', carried'⟩ := right' _ (covers b _ agree)
    rw [Ways.ends_then, Ways.carries_then _ second.total]
    refine ⟨agree', fun o => ?_⟩
    rw [List.mem_append, carried, carried', Set.mem_union]

/-- Evaluating for the state alone, and going on. -/
theorem afterValue {walk : FlowState → FlowM (Bool × FlowState)} {ways : Ways Bool}
    {walk' : FlowState → FlowM δ} {ways' : Ways γ}
    (first : Exact run names nodes (AgreesValue names) walk ways)
    (second : Exact run names nodes agrees' walk' ways') :
    Exact run names nodes agrees' (fun s => walk s >>= fun r => walk' r.2)
      (ways >>= fun _ => ways') :=
  seq Prod.snd (fun _ _ h => h.state) first second

theorem afterState {walk : FlowState → FlowM FlowState} {ways : Ways Unit}
    {walk' : FlowState → FlowM δ} {ways' : Ways γ}
    (first : Exact run names nodes (AgreesState names) walk ways)
    (second : Exact run names nodes agrees' walk' ways') :
    Exact run names nodes agrees' (fun s => walk s >>= walk') (ways >>= fun _ => ways') :=
  seq id (fun _ _ h => h) first second

/-- Both of two walks from the same state, where one of two ways is taken. -/
theorem fork {walk₁ walk₂ : FlowState → FlowM β} {ways₁ ways₂ : Ways α} (meet : β → β → β)
    (union : ∀ a b ends₁ ends₂, agrees a ends₁ → agrees b ends₂ →
      agrees (meet a b) (ends₁ ∪ ends₂))
    (first : Exact run names nodes agrees walk₁ ways₁)
    (second : Exact run names nodes agrees walk₂ ways₂) :
    Exact run names nodes agrees
      (fun s => walk₁ s >>= fun a => walk₂ s >>= fun b => pure (meet a b))
      (Ways.either ways₁ ways₂) := by
  refine ⟨first.total.either _, fun s within => ?_⟩
  obtain ⟨a, log₁, yields₁, inside₁, right₁⟩ := first.walks s within
  obtain ⟨b, log₂, yields₂, inside₂, right₂⟩ := second.walks s within
  refine ⟨meet a b, log₁ ++ (log₂ ++ []), yields₁.bind (yields₂.bind (FlowRun.yields_pure _)),
    ?_, fun lives h => ?_⟩
  · intro o ho
    rw [List.append_nil] at ho
    exact (List.mem_append.mp ho).elim (inside₁ o) (inside₂ o)
  · obtain ⟨agree₁, carried₁⟩ := right₁ lives h
    obtain ⟨agree₂, carried₂⟩ := right₂ lives h
    rw [Ways.ends_either, Ways.carries_either]
    refine ⟨union a b _ _ agree₁ agree₂, fun o => ?_⟩
    rw [List.append_nil, List.mem_append, carried₁, carried₂, Set.mem_union]

/-- The answer of a walk, seen otherwise. -/
theorem map (f : β → δ) (g : α → γ)
    (transport : ∀ b ends, agrees b ends → agrees' (f b) ((fun p => (g p.1, p.2)) '' ends))
    (h : Exact run names nodes agrees walk ways) :
    Exact run names nodes agrees' (fun s => walk s >>= fun b => pure (f b))
      (ways >>= fun a => pure (g a)) := by
  refine ⟨h.total.bind fun a => Ways.total_pure (g a), fun s within => ?_⟩
  obtain ⟨b, log, yields, inside, right⟩ := h.walks s within
  refine ⟨f b, log ++ [], yields.bind (FlowRun.yields_pure _), ?_, fun lives covers => ?_⟩
  · rw [List.append_nil]
    exact inside
  · obtain ⟨agree, carried⟩ := right lives covers
    rw [Ways.ends_map, Ways.carries_map, List.append_nil]
    exact ⟨transport b _ agree, carried⟩

end Exact

end JavaMend
