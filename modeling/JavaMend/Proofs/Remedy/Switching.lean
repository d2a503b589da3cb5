import JavaMend.Proofs.Remedy.Hardened

/-!
# The last switch counts

A property of an `XMLInputFactory` is what the last call on it makes it. The pass writes
its calls behind the last one that stands in the block as a statement, so where it
switches external entities off, they stay off (`XmlInput.pass_switchedOff`).

It does not switch them off where some call does already, and that call need not be the
last: it may be followed by one that switches them on, or stand where it is not always
reached. The last switch of such a factory is what it was, and has to be safe by itself.
-/

namespace JavaMend

namespace Hardening

variable {H : Hardening} {above : List Node} {n out : Node}

/-- What became a block was one. -/
theorem hardens_of_appended {b' : Block} (h : Node.Appended H.plan above n (.block b')) :
    ∃ b parts, n = .block b ∧ H.Hardens b above b' parts := by
  cases h with
  | around open_ _ label =>
    cases n with
    | block => cases open_
    | _ => cases label
  | block parts _ before after visited written =>
    exact ⟨_, parts, rfl, before, after, visited, written⟩

/-- The bodies in what is written have calls only. -/
theorem Hardens.allBodies_written {b out : Block} {parts : List Appendage} {p : Appendage} {s : Stmt}
    {Q : Block → Prop} (h : H.Hardens b above out parts) (lawful : H.Lawful)
    (calls : ∀ b : Block, (∀ s ∈ b.stmts, ∃ e, s.form = .expr e) → Q b) (mem : p ∈ parts)
    (inside : s ∈ p.written) : (Node.stmt s).AllBodies Q := by
  rcases h.written_cases lawful mem inside with ⟨e, isCall⟩ | ⟨body, isBlock, allCalls⟩
  · exact Node.allBodies_expression isCall
  · obtain ⟨id, _⟩ := s
    cases isBlock
    refine Node.all_iff.mpr ⟨fun _ b' mem => ?_, fun c mem => ?_⟩
    · cases List.mem_singleton.mp mem
      exact calls body allCalls
    · cases List.mem_singleton.mp mem
      exact Node.allBodies_calls allCalls

/-- What holds of each body after hardening, if it follows for one that was hardened and
holds of one that has calls only. -/
theorem allBodies_of_appended {P Q : Block → Prop} (lawful : H.Lawful)
    (calls : ∀ b : Block, (∀ s ∈ b.stmts, ∃ e, s.form = .expr e) → Q b)
    (step : ∀ b above out parts, (⟨.block b :: above⟩ : Path).bodyOwner? = none →
      H.Hardens b above out parts → H.Single b → P b → Q out)
    (h : Node.Appended H.plan above n out) (single : n.All fun m => ∀ b, m = .block b → H.Single b)
    (all : n.AllBodies P) : out.AllBodies Q := by
  induction h with
  | @around above n out open_ pairs label before after visited kept ih =>
    have child {p : Node × Node} (hp : p ∈ pairs) : p.1 ∈ n.children :=
      before ▸ List.mem_map_of_mem hp
    refine Node.all_iff.mpr ⟨fun noClass b' mem => ?_, fun c mem => ?_⟩
    · rw [after] at mem
      obtain ⟨p, hp, at_⟩ := List.mem_map.mp mem
      have became := visited p hp
      rw [at_] at became
      obtain ⟨b, parts, isBlock, hardens⟩ := hardens_of_appended became
      have inside : .block b ∈ n.children := isBlock ▸ child hp
      have owner : (⟨.block b :: n :: above⟩ : Path).bodyOwner? = none := by
        have same : (⟨.block b' :: out :: above⟩ : Path).bodyOwner? =
            (⟨.block b :: n :: above⟩ : Path).bodyOwner? := Path.bodyOwner?_of_label label
        rw [← same]
        show out.class?.map _ = none
        rw [noClass]
        rfl
      have noClass' : n.class? = none := Option.map_eq_none_iff.mp owner
      exact step b (n :: above) b' parts owner hardens ((single.child inside).self b rfl)
        (all.self noClass' b inside)
    · rw [after] at mem
      obtain ⟨p, hp, rfl⟩ := List.mem_map.mp mem
      exact ih p hp (single.child (child hp)) (all.child (child hp))
  | @block above b out parts isStatic before after visited written kept ih =>
    have hardens : H.Hardens b above out parts := ⟨before, after, visited, written⟩
    refine Node.all_iff.mpr ⟨fun _ b' mem => ?_, fun c mem => ?_⟩
    · obtain ⟨s, -, at_⟩ := List.mem_map.mp mem
      cases at_
    · obtain ⟨s, hs, rfl⟩ := List.mem_map.mp mem
      rw [after] at hs
      obtain ⟨p, hp, inside⟩ := List.mem_flatMap.mp hs
      rcases List.mem_cons.mp inside with rfl | inside
      · have child : Node.stmt p.old ∈ (Node.block b).children :=
          List.mem_map_of_mem (before ▸ List.mem_map_of_mem hp)
        exact ih p hp (single.child child) (all.child child)
      · exact hardens.allBodies_written lawful calls hp inside

end Hardening

namespace XmlInput

/-! ## Switches -/

/-- The value to which a statement sets the support of external entities of a local. -/
def entitySwitch? (name : String) (s : Stmt) : Option Bool := do
  let call ← s.expression?
  guard (call.callsLocal name && CallMatcher.standard.acceptsAny call setProperty)
  guard (call.args.head?.bind Property.of? == some .externalEntities)
  let value ← call.args[1]?
  let .boolean on ← value.unparen.literal? | none
  return on

/-- What the last switch among some statements sets it to. -/
def lastSwitch? (name : String) (stmts : List Stmt) : Option Bool :=
  (stmts.filterMap (entitySwitch? name)).getLast?

variable {dtdsRequired : Bool} {f g : Factory} {name : String} {s : Stmt}

/-- A switch is a call that sets a property of the local. -/
theorem exists_call_of_switch {on : Bool} (switch : entitySwitch? name s = some on) :
    ∃ e, s.form = .expr e ∧ e.callsLocal name = true ∧
      CallMatcher.standard.acceptsAny e setProperty = true := by
  obtain ⟨e, isCall, switch⟩ := Option.bind_eq_some_iff.mp switch
  obtain ⟨_, calls, -⟩ := Option.bind_eq_some_iff.mp switch
  obtain ⟨calls, accepted⟩ := Bool.and_eq_true_iff.mp ((Option.guard_eq_some' _).mp calls)
  refine ⟨e, ?_, calls, accepted⟩
  obtain ⟨id, form⟩ := s
  cases form with
  | expr e' =>
    cases isCall
    rfl
  | _ => cases isCall

/-- What is made for external entities switches them off. -/
theorem entitySwitch?_of_made (made : (hardening dtdsRequired).Made f none Property.externalEntities s) :
    entitySwitch? f.held.name s = some false := by
  obtain ⟨call, key, ⟨id, ty, _⟩, isCall, receives, accepted, args, names, rfl⟩ :=
    disables_of_made made
  have calls : call.callsLocal f.held.name = true := receives
  unfold entitySwitch? Stmt.expression?
  simp [isCall, calls, accepted, args, names, Expr.unparen, Expr.literal?]

/-- What is made switches nothing on. -/
theorem eq_false_of_made {property : Property} {on : Bool}
    (made : (hardening dtdsRequired).Made f none property s) (switch : entitySwitch? name s = some on) :
    on = false := by
  obtain ⟨call, key, ⟨id, ty, _⟩, isCall, receives, accepted, args, names, rfl⟩ :=
    disables_of_made made
  unfold entitySwitch? Stmt.expression? at switch
  simp [isCall, args, Expr.unparen, Expr.literal?, Option.bind_eq_some_iff] at switch
  exact switch.2.2

/-- The visit of a block leaves the switches of its statements alone. -/
theorem entitySwitch?_of_appended {plan : Block → Path → List Addition} {above : List Node} {s' : Stmt}
    (h : Node.Appended plan above (.stmt s) (.stmt s')) :
    entitySwitch? name s' = entitySwitch? name s := by
  have label : s'.form.blank = s.form.blank := Node.Label.stmt.inj h.label
  by_cases isCall : ∃ e, s.form = .expr e
  · obtain ⟨e, isCall⟩ := isCall
    rw [Node.stmt.inj (h.eq_of_idle (Node.idle_expression isCall _))]
  · have none_ : s.expression? = none := by
      unfold Stmt.expression?
      split
      next e form => exact (isCall ⟨e, form⟩).elim
      next => rfl
    have none' : s'.expression? = none := by
      unfold Stmt.expression?
      split
      next e' form' =>
        rw [form'] at label
        revert label isCall
        cases s.form <;> simp [StmtForm.blank]
      next => rfl
    unfold entitySwitch?
    rw [none_, none']

/-! ## Last switches -/

theorem lastSwitch?_append (stmts stmts' : List Stmt) :
    lastSwitch? name (stmts ++ stmts') = (lastSwitch? name stmts').or (lastSwitch? name stmts) := by
  unfold lastSwitch?
  rw [List.filterMap_append, List.getLast?_append]

theorem lastSwitch?_eq_none {stmts : List Stmt} :
    lastSwitch? name stmts = none ↔ ∀ s ∈ stmts, entitySwitch? name s = none := by
  unfold lastSwitch?
  rw [List.getLast?_eq_none_iff, List.filterMap_eq_nil_iff]

theorem exists_of_lastSwitch? {stmts : List Stmt} {on : Bool} (last : lastSwitch? name stmts = some on) :
    ∃ s ∈ stmts, entitySwitch? name s = some on :=
  List.mem_filterMap.mp (List.mem_of_getLast? last)

/-- Nothing among the statements switches entities on. -/
def Off (name : String) (stmts : List Stmt) : Prop :=
  ∀ s ∈ stmts, ∀ on, entitySwitch? name s = some on → on = false

theorem Off.lastSwitch?_cases {stmts : List Stmt} (off : Off name stmts) :
    lastSwitch? name stmts = none ∨ lastSwitch? name stmts = some false := by
  cases last : lastSwitch? name stmts with
  | none => exact .inl rfl
  | some on =>
    obtain ⟨s, mem, switch⟩ := exists_of_lastSwitch? last
    rw [off s mem on switch]
    exact .inr rfl

theorem Off.lastSwitch? {stmts : List Stmt} (off : Off name stmts) (mem : s ∈ stmts)
    (switch : entitySwitch? name s = some false) : lastSwitch? name stmts = some false := by
  refine off.lastSwitch?_cases.resolve_left fun none_ => ?_
  rw [lastSwitch?_eq_none.mp none_ s mem] at switch
  cases switch

/-- Statements of a block, with what was written behind them: their switches are what they
were, and none that was written switches entities on. -/
structure Kept (name : String) (qs : List Appendage) : Prop where
  visited : ∀ q ∈ qs, entitySwitch? name q.visited = entitySwitch? name q.old
  off : ∀ q ∈ qs, Off name q.written

namespace Kept

variable {qs : List Appendage}

theorem of_subset {more : List Appendage} (kept : Kept name more) (fewer : qs ⊆ more) : Kept name qs :=
  ⟨fun q mem => kept.visited q (fewer mem), fun q mem => kept.off q (fewer mem)⟩

/-- The last switch of all is the last that there was, or one that was written. -/
theorem lastSwitch?_cases (kept : Kept name qs) :
    lastSwitch? name (qs.flatMap (·.stmts)) = some false ∨
      lastSwitch? name (qs.flatMap (·.stmts)) = lastSwitch? name (qs.map (·.old)) := by
  induction qs with
  | nil => exact .inr rfl
  | cons q qs ih =>
    have own : lastSwitch? name q.stmts = some false ∨
        lastSwitch? name q.stmts = lastSwitch? name [q.old] := by
      show lastSwitch? name ([q.visited] ++ q.written) = _ ∨
        lastSwitch? name ([q.visited] ++ q.written) = _
      rw [lastSwitch?_append]
      rcases (kept.off q List.mem_cons_self).lastSwitch?_cases with none_ | off
      · rw [none_, Option.none_or]
        refine .inr ?_
        unfold lastSwitch?
        rw [List.filterMap_cons, List.filterMap_cons, kept.visited q List.mem_cons_self]
      · rw [off]
        exact .inl rfl
    rw [List.flatMap_cons, lastSwitch?_append, List.map_cons, ← List.singleton_append,
      lastSwitch?_append]
    rcases ih (kept.of_subset fun q mem => List.mem_cons_of_mem _ mem) with off | same
    · rw [off]
      exact .inl rfl
    · rw [same]
      cases lastSwitch? name (qs.map (·.old)) with
      | none => rwa [Option.none_or, Option.none_or]
      | some on => exact .inr rfl

/-- Where nothing was a switch, nothing switches entities on. -/
theorem off_flatMap (kept : Kept name qs) (none_ : ∀ q ∈ qs, entitySwitch? name q.old = none) :
    Off name (qs.flatMap (·.stmts)) := by
  intro s mem on switch
  obtain ⟨q, hq, mem⟩ := List.mem_flatMap.mp mem
  rcases List.mem_cons.mp mem with rfl | mem
  · rw [kept.visited q hq, none_ q hq] at switch
    cases switch
  · exact kept.off q hq s mem on switch

end Kept

/-! ## The pass -/

/-- The last switch of every local factory of the block, `none` without any, is as allowed. -/
def Switched (allowed : Option Bool → Prop) (b : Block) : Prop :=
  ∀ f ∈ Factory.declaredIn .standard creation b.stmts,
    allowed (lastSwitch? f.held.name f.following)

/-- So it is at least for every local factory that some later call on it switches entities
off for. -/
def SwitchedWell (allowed : Option Bool → Prop) (b : Block) : Prop :=
  ∀ f ∈ Factory.declaredIn .standard creation b.stmts,
    (∃ call ∈ f.calls none f.following, CallMatcher.standard.acceptsAny call setProperty = true ∧
      sets .externalEntities false call = true) →
    allowed (lastSwitch? f.held.name f.following)

instance (allowed : Option Bool → Prop) [DecidablePred allowed] :
    DecidablePred (SwitchedWell allowed) := fun b => by unfold SwitchedWell; infer_instance

section

variable {b out : Block} {above : List Node} {parts : List Appendage}

/-- A body that was hardened. -/
theorem kept_of_hardens (h : (hardening dtdsRequired).Hardens b above out parts)
    (isLocal : (⟨.block b :: above⟩ : Path).bodyOwner? = none) (name : String) : Kept name parts where
  visited q mem := entitySwitch?_of_appended (h.visited q mem)
  off q mem s inside on switch := by
    rcases h.writes mem with nothing | ⟨g, -, writes⟩
    · rw [nothing] at inside
      cases inside
    · unfold Hardening.Writes at writes
      rw [isLocal] at writes
      obtain ⟨property, -, made⟩ := exists_of_forall₂ writes inside
      exact eq_false_of_made made switch

/-- What is written for a factory whose entities were left open stands behind the last
switch there was, and ends with entities off. -/
theorem lastSwitch?_of_open {pre post : List Appendage} {p : Appendage}
    (h : (hardening dtdsRequired).Hardens b above out (pre ++ p :: post))
    (isLocal : (⟨.block b :: above⟩ : Path).bodyOwner? = none)
    (single : (hardening dtdsRequired).Single b)
    (hf : f ∈ Factory.declaredIn .standard creation b.stmts) (declared : f.declaration = p.old)
    (old : f.following = post.map (·.old))
    (lacks : Property.externalEntities ∈ (hardening dtdsRequired).missing ⟨.block b :: above⟩ f) :
    lastSwitch? f.held.name (p.written ++ post.flatMap (·.stmts)) = some false := by
  have kept := kept_of_hardens h isLocal f.held.name
  obtain ⟨a, found⟩ := Option.isSome_iff_exists.mp
    (Hardening.addition?_isSome.mpr (List.ne_nil_of_mem lacks))
  obtain ⟨front, back, olds, behind⟩ := Hardening.exists_behind found isLocal
  rw [declared, old] at olds
  have olds : (p :: post).map (·.old) = front ++ a.anchor :: back := olds
  obtain ⟨before, rest, split, -, here⟩ := List.map_eq_append_iff.mp olds
  obtain ⟨q, after, rfl, anchor, rfl⟩ := List.map_eq_cons_iff.mp here
  have inside {r : Appendage} (mem : r ∈ q :: after) : r ∈ pre ++ p :: post :=
    List.mem_append_right _ (split ▸ List.mem_append_right _ mem)
  -- Behind the anchor, nothing was a switch.
  have off : Off f.held.name (q.written ++ after.flatMap (·.stmts)) := by
    have kept' : Kept f.held.name after := kept.of_subset fun r mem => inside (List.mem_cons_of_mem _ mem)
    refine List.forall_mem_append.mpr ⟨kept.off q (inside List.mem_cons_self),
      kept'.off_flatMap fun r mem => ?_⟩
    cases switch : entitySwitch? f.held.name r.old with
    | none => rfl
    | some on =>
      obtain ⟨e, isCall, calls, accepted⟩ := exists_call_of_switch switch
      have refused := behind r.old (List.mem_map_of_mem mem) e isCall calls
      exact (Bool.false_ne_true (refused.symm.trans accepted)).elim
  obtain ⟨g, name, more, writes⟩ := h.writes_of_anchor (hardening_lawful dtdsRequired) single hf found
    (inside List.mem_cons_self) anchor
  unfold Hardening.Writes at writes
  rw [isLocal] at writes
  obtain ⟨s, hs, made⟩ := exists_of_forall₂ writes.flip (more lacks)
  have last := off.lastSwitch? (List.mem_append_left _ hs) (name ▸ entitySwitch?_of_made made)
  -- What stands before the anchor does not matter.
  obtain ⟨first, following⟩ : ∃ first, p.written ++ post.flatMap (·.stmts) =
      first ++ (q.written ++ after.flatMap (·.stmts)) := by
    cases before with
    | nil =>
      obtain ⟨rfl, rfl⟩ := List.cons.inj split
      exact ⟨[], rfl⟩
    | cons _ before =>
      obtain ⟨rfl, rfl⟩ := List.cons.inj split
      refine ⟨p.written ++ before.flatMap (·.stmts) ++ [q.visited], ?_⟩
      simp [Appendage.stmts]
  rw [following, lastSwitch?_append, last]
  rfl

/-- In a body that was hardened, the last switch of every factory is off, or what it was. -/
theorem switched_of_hardens {allowed : Option Bool → Prop} (safe : allowed (some false))
    (h : (hardening dtdsRequired).Hardens b above out parts)
    (isLocal : (⟨.block b :: above⟩ : Path).bodyOwner? = none)
    (single : (hardening dtdsRequired).Single b) (well : SwitchedWell allowed b) :
    Switched allowed out := by
  intro g hg
  obtain ⟨pre, p, post, rfl, declared, new, hf⟩ := h.declared (hardening_lawful dtdsRequired) hg
  rw [new]
  by_cases lacks : Property.externalEntities ∈ (hardening dtdsRequired).missing ⟨.block b :: above⟩
      { g with following := post.map (·.old) }
  · rw [lastSwitch?_of_open (f := { g with following := post.map (·.old) }) h isLocal single hf
      declared rfl lacks]
    exact safe
  · have kept := kept_of_hardens h isLocal g.held.name
    have before : allowed (lastSwitch? g.held.name (post.map (·.old))) := by
      refine well _ hf ?_
      by_contra none_
      refine lacks ?_
      unfold Hardening.missing
      rw [isLocal]
      refine mem_leftOpen.mpr ⟨fun call mem accepted => ?_, Property.noConfusion⟩
      exact Bool.eq_false_iff.mpr fun off => none_ ⟨call, mem, accepted, off⟩
    have later : Kept g.held.name post :=
      kept.of_subset fun q mem => List.mem_append_right _ (List.mem_cons_of_mem _ mem)
    have behind := kept.off p (List.mem_append_right _ List.mem_cons_self)
    rw [lastSwitch?_append]
    rcases later.lastSwitch?_cases with off | same
    · rw [off]
      exact safe
    · rw [same]
      cases last : lastSwitch? g.held.name (post.map (·.old)) with
      | some on =>
        rw [last] at before
        exact before
      | none =>
        rw [Option.none_or]
        rcases behind.lastSwitch?_cases with none_ | off
        · rw [none_, ← last]
          exact before
        · rw [off]
          exact safe

end

/-- The pass for `XMLInputFactory` leaves external entities switched off: in every body,
the last statement that switches them for a local factory switches them off. Where some call
switches them off before, it has to be so before. Whether a body without such a statement
will do is left to `allowed`. -/
theorem pass_switchedOff {allowed : Option Bool → Prop} (safe : allowed (some false)) {env : PassEnv}
    (matches_ : env.matcher = .standard) (standard : env.splicer = .standard)
    (externalDtds : List String) {unit : CompilationUnit} {next : NodeId}
    (distinct : ((Node.unit unit).subtree.map Node.id).Nodup)
    (old : ∀ n ∈ (Node.unit unit).subtree, n.id < next)
    (single : ∀ s, .stmt s ∈ (Node.unit unit).subtree →
      (Factory.ofDeclaration .standard creation s []).length ≤ 1)
    (well : (Node.unit unit).AllBodies (SwitchedWell allowed)) :
    ∃ out used, XmlInput.pass env externalDtds unit next = (.ok out, used) ∧
      (Node.unit out.unit).AllBodies (Switched allowed) := by
  obtain ⟨out, used, changed, ran, -, appended, classes, -⟩ :=
    (remedy_appends matches_ !externalDtds.isEmpty).succeeds (remedy_succeeds env _)
      (fun _ _ => XmlInput.notes fun _ _ _ _ _ _ _ _ _ => Factory.fits_accounting)
      standard (.of_distinct distinct old)
  refine ⟨out, used, ran, .unit ?_ classes⟩
  refine Hardening.allBodies_of_appended (hardening_lawful _) (fun b calls f mem => ?_)
    (fun b above out parts isLocal hardens single well =>
      switched_of_hardens safe hardens isLocal single well)
    appended (Hardening.single_of_distinct distinct single) well
  rw [Factory.declaredIn_of_calls calls] at mem
  cases mem

/-- A method with two factories, one of which has entities switched on and the other one on
and then off. -/
theorem pass_switchedOff_twoFactories :
    let ty : Ty := .known Fqn.xmlInputFactory
    let declares (id : NodeId) (name : String) : Stmt :=
      ⟨id, .declare ⟨[], "XMLInputFactory", [⟨id + 1, name, ty, some ⟨id + 2, ty,
        .call (some ⟨id + 3, ty, .ident "XMLInputFactory" none⟩) "newInstance" []
          (some Jdk.xmlInputFactoryNewInstance)⟩⟩]⟩⟩
    let switches (id : NodeId) (name : String) (on : Bool) : Stmt := ⟨id, .expr ⟨id + 1, .void,
      .call (some ⟨id + 2, ty, .ident name none⟩) "setProperty"
        [⟨id + 3, .string, .literal (.string Property.externalEntities.key)⟩,
          ⟨id + 4, .boolean, .literal (.boolean on)⟩] (some Jdk.xmlInputFactorySetProperty)⟩⟩
    let method : Stmt := ⟨3, .method ⟨[], some "void", "m", [], []⟩ (some ⟨4, false,
      [declares 5 "f", switches 10 "f" true, declares 15 "g", switches 20 "g" true,
        switches 25 "g" false]⟩)⟩
    let unit : CompilationUnit := ⟨0, none, [], [⟨1, ⟨[], "A", .known "A"⟩, ⟨2, false, [method]⟩⟩]⟩
    ∃ out used, XmlInput.pass ⟨.standard, ⟨64, 8⟩, .standard⟩ [] unit 30 = (.ok out, used) ∧
      (Node.unit out.unit).AllBodies (Switched (· = some false)) := by
  intro ty declares switches method unit
  have distinct : ((Node.unit unit).subtree.map Node.id).Nodup := by decide +kernel
  have old : ∀ n ∈ (Node.unit unit).subtree, n.id < 30 := by decide +kernel
  have single : ∀ n ∈ (Node.unit unit).subtree, ∀ s ∈ n.stmt?,
      (Factory.ofDeclaration .standard creation s []).length ≤ 1 := by decide +kernel
  have well : (Node.unit unit).AllBodies (SwitchedWell (· = some false)) := by decide +kernel
  exact @pass_switchedOff (· = some false) rfl _ rfl rfl [] unit 30 distinct old
    (fun s mem => single _ mem s rfl) well

end XmlInput

end JavaMend
