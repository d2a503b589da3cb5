import JavaMend.Proofs.Remedy.Extracting
import JavaMend.Proofs.Remedy.Naming

/-!
# Hardening redeclares no local

The pass for `DocumentBuilderFactory` declares locals, under names that are not taken at
their block. Blocks are left from the inside out, and what is taken is what the tree before
the visit tells: what the pass has declared further in is not among it. The names of a block
and of one further in can therefore be one name, and where the inner block stands behind the
outer local, that local is declared again.

It does not come to this if no factory is declared further in behind the declaration of
another one (`DocumentBuilder.FactoriesApart`). A node then stands in a region of what the
old nodes around it bring in, or nothing is declared in it (`DocumentBuilder.Allows`).
-/

namespace JavaMend

/-! ## Regions in which a node is well-scoped -/

section

variable {n : Node} {r : Region}

/-- A node in which nothing is declared is well-scoped anywhere. -/
theorem Node.wellScoped_of_silent (silent : n.declaredNames = []) : n.WellScoped r := by
  induction n using Node.inductionOn generalizing r with
  | step n ih =>
    rw [Node.declaredNames_eq, List.append_eq_nil_iff, List.flatMap_eq_nil_iff] at silent
    refine Node.wellScoped_iff.mpr ⟨fun v at_ => ?_, fun p mem => ?_⟩
    · subst at_
      cases silent.1
    · have child := Node.mem_children_of_scopes mem
      exact ih p.2 child (silent.2 p.2 child)

theorem Region.not_mem_inner {x : String} (free : x ∉ r.names) : x ∉ r.inner.names := by
  cases r with
  | members => exact List.not_mem_nil
  | code locals => exact free

/-- Nodes are well-scoped in turn if each is behind those before it. -/
theorem Region.wellScoped_inTurn_flatMap {α : Type} {items : List α} {f : α → List Node}
    (each : ∀ pre a post, items = pre ++ a :: post →
      ∀ p ∈ (r.declaring ((pre.flatMap f).flatMap Node.declares)).inTurn (f a), p.2.WellScoped p.1) :
    ∀ p ∈ r.inTurn (items.flatMap f), p.2.WellScoped p.1 := by
  induction items generalizing r with
  | nil => nofun
  | cons a items ih =>
    rw [List.flatMap_cons, Region.inTurn_append, List.forall_mem_append]
    refine ⟨?_, ih fun pre a' post split => ?_⟩
    · have first := each [] a items rfl
      rwa [List.flatMap_nil, List.flatMap_nil, Region.declaring_nil] at first
    · have later := each (a :: pre) a' post (by rw [split]; rfl)
      rwa [List.flatMap_cons, List.flatMap_append, ← Region.declaring_declaring] at later

/-- More names in scope do not matter to a tree that does not declare them. -/
theorem Node.WellScoped.declaring {n : Node} {names names' more : List String}
    (h : n.WellScoped (r.declaring names)) (subset : names' ⊆ names ++ more)
    (new : ∀ x ∈ more, x ∉ n.declaredNames) : n.WellScoped (r.declaring names') := by
  cases r with
  | members => exact h
  | code locals =>
    induction more generalizing names with
    | nil =>
      -- Some name or other is not declared in the tree.
      refine h.adds (.code fun y mem => .inl ?_) (leastFreeName_not_mem "" n.declaredNames)
      rw [List.append_nil] at subset
      exact List.append_subset.mpr
        ⟨List.subset_append_left _ _, fun x inside => List.mem_append_right _ (subset inside)⟩ mem
    | cons x more ih =>
      have first : n.WellScoped ((Region.code locals).declaring (names ++ [x])) := by
        refine h.adds ?_ (new x List.mem_cons_self)
        rw [← Region.declaring_declaring]
        exact .declaring_self x _
      exact ih (by simpa using subset) (fun y mem => new y (List.mem_cons_of_mem _ mem)) first

end

/-- What stands behind a place that is not in front of another one stands behind both. -/
theorem subset_of_split {α : Type} {front back pre post : List α} {a d : α}
    (distinct : (front ++ d :: back).Nodup) (split : pre ++ a :: post = front ++ d :: back)
    (mem : a ∈ d :: back) : post ⊆ back := by
  have apart : a ∉ front := fun early => List.disjoint_of_nodup_append distinct early mem
  rcases List.append_eq_append_iff.mp split with ⟨between, rfl, rest⟩ | ⟨between, rfl, rest⟩
  · cases between with
    | nil =>
      obtain ⟨-, rfl⟩ := List.cons.inj rest
      exact List.Subset.refl _
    | cons first between =>
      obtain ⟨rfl, -⟩ := List.cons.inj rest
      exact (apart (List.mem_append_right _ List.mem_cons_self)).elim
  · cases between with
    | nil =>
      obtain ⟨-, rfl⟩ := List.cons.inj rest
      exact List.Subset.refl _
    | cons first between =>
      obtain ⟨-, rfl⟩ := List.cons.inj rest
      exact fun b mem => List.mem_append_right _ (List.mem_cons_of_mem _ mem)

namespace DocumentBuilder

/-! ## What is written, and its region -/

section

variable {feature exception : String} {ws : List Stmt} {r : Region}

/-- A local and its guard are well-scoped where their names are free. -/
theorem Guards.wellScoped (h : Guards feature exception ws) (local_ : feature ∉ r.names)
    (caught : exception ∉ r.names) (apart : feature ≠ exception) :
    ∀ p ∈ r.inTurn (ws.map .stmt), p.2.WellScoped p.1 := by
  cases h with
  | @intro declaration guard_ typeName v body clause declares name guards parameter silent silent' =>
    have declared : (Node.stmt declaration).declares = [feature] := by
      show declaration.declaredNames = _
      simp [Stmt.declaredNames, declares, name]
    rw [List.map_cons, List.map_cons, Region.inTurn, Region.inTurn, declared]
    refine List.forall_mem_cons.mpr ⟨Stmt.wellScoped_declare declares (name ▸ local_),
      List.forall_mem_singleton.mpr ?_⟩
    have free : clause.parameter.name ∉ (r.declaring [feature]).inner.names := by
      refine Region.not_mem_inner fun mem => ?_
      rw [parameter] at mem
      rcases Region.mem_names_declaring mem with mem | mem
      · exact caught mem
      · exact apart (List.mem_singleton.mp mem).symm
    obtain ⟨id, _⟩ := guard_
    cases guards
    refine Node.wellScoped_iff.mpr ⟨fun _ => Node.noConfusion, fun p mem => ?_⟩
    obtain ⟨group, inGroups, mem⟩ := List.mem_flatMap.mp mem
    have cases_ : group = [.block body] ∨ group = [.var clause.parameter, .block clause.body] := by
      simpa [Node.groups, Stmt.groups, CatchClause.children] using inGroups
    rcases cases_ with rfl | rfl
    · cases List.mem_singleton.mp mem
      exact Node.wellScoped_of_silent silent
    · rcases List.mem_cons.mp mem with rfl | mem
      · exact Node.wellScoped_var free
      · cases List.mem_singleton.mp mem
        exact Node.wellScoped_of_silent silent'

theorem Inserts.wellScoped {owner : Option Ty} (h : Inserts owner feature exception ws)
    (local_ : feature ∉ r.names) (caught : exception ∉ r.names) (apart : feature ≠ exception) :
    ∀ p ∈ r.inTurn (ws.map .stmt), p.2.WellScoped p.1 := by
  cases owner with
  | none => exact Guards.wellScoped h local_ caught apart
  | some ty =>
    obtain ⟨⟨id, _⟩, body, rfl, ⟨⟩, guards⟩ := h
    refine List.forall_mem_singleton.mpr (Node.wellScoped_iff.mpr ⟨nofun, fun p mem => ?_⟩)
    obtain ⟨group, inGroups, mem⟩ := List.mem_flatMap.mp mem
    cases List.mem_singleton.mp inGroups
    cases List.mem_singleton.mp mem
    rw [Node.wellScoped_block]
    exact guards.wellScoped (Region.not_mem_inner local_) (Region.not_mem_inner caught) apart

end

/-! ## Factories that are apart -/

/-- Does a block inside of the node have a local that is a new factory? Methods and classes
inside of it have locals of their own. -/
def holdsFactory (matcher : CallMatcher) (n : Node) : Bool :=
  !n.opensScope && ((n.block?.any fun b => !(Factory.declaredIn matcher creation b.stmts).isEmpty) ||
    n.children.attach.any fun ⟨c, _⟩ => holdsFactory matcher c)
termination_by sizeOf n
decreasing_by exact Node.sizeOf_lt_of_mem_children ‹_›

/-- Behind a statement of the block that declares a factory, none is declared further in. -/
def FactoriesApart (matcher : CallMatcher) (b : Block) : Prop :=
  b.stmts.Pairwise fun s t => Factory.ofDeclaration matcher creation s [] ≠ [] →
    holdsFactory matcher (.stmt t) = false

instance (matcher : CallMatcher) : DecidablePred (FactoriesApart matcher) := fun b => by
  unfold FactoriesApart
  infer_instance

section

variable {matcher : CallMatcher} {n c : Node} {b : Block} {r : Region}

theorem holdsFactory_child (quiet : holdsFactory matcher n = false) (open_ : n.opensScope = false)
    (mem : c ∈ n.children) : holdsFactory matcher c = false := by
  rw [holdsFactory, open_] at quiet
  simp only [Bool.not_false, Bool.true_and, Bool.or_eq_false_iff, List.any_eq_false] at quiet
  exact Bool.eq_false_iff.mpr (quiet.2 ⟨c, mem⟩ (List.mem_attach _ _))

theorem declaredIn_of_quiet (quiet : holdsFactory matcher (.block b) = false) :
    Factory.declaredIn matcher creation b.stmts = [] := by
  rw [holdsFactory] at quiet
  have open_ : (Node.block b).opensScope = false := rfl
  rw [open_] at quiet
  simp only [Bool.not_false, Bool.true_and, Bool.or_eq_false_iff] at quiet
  simpa [Node.block?] using quiet.1

/-- Methods and classes do not see the locals around them. -/
theorem scopes_of_opensScope (opens : n.opensScope = true) : n.scopes r = n.scopes .members := by
  have region : n.label.region r = n.label.region .members := by
    cases n with
    | stmt s =>
      obtain ⟨id, form⟩ := s
      cases form <;> first | rfl | cases opens
    | cls c => rfl
    | _ => cases opens
  unfold Node.scopes
  rw [region]

end

/-! ## A block to which configurations were appended -/

/-- The region of a node allows for what is declared in the node by the pass: no more is in
scope than the nodes around it bring in, or the pass declares nothing in it. -/
def Allows (matcher : CallMatcher) (above : List Node) (r : Region) (n : Node) : Prop :=
  r.InSight above n ∨ holdsFactory matcher n = false

/-- A block that was hardened. -/
structure Hardens (env : PassEnv) (dtdsRequired : Bool) (b : Block) (above : List Node) (out : Block)
    (parts : List Appendage) : Prop where
  before : b.stmts = parts.map (·.old)
  after : out.stmts = parts.flatMap (·.stmts)
  declares : ∀ p ∈ parts, p.visited.declaredNames = p.old.declaredNames
  written : ∀ p ∈ parts,
    Addition.Written (Addition.last? (plan env dtdsRequired b ⟨.block b :: above⟩) p.old) p.written

namespace Hardens

variable {env : PassEnv} {dtdsRequired : Bool} {b out : Block} {above : List Node}
  {parts pre post : List Appendage} {p q : Appendage} {r : Region} {x : String}

/-- The names that are declared by what is written behind some statements. -/
def added (parts : List Appendage) : List String :=
  parts.flatMap fun p => p.written.flatMap Stmt.declaredNames

/-- What is written behind a statement is written for a choice of names. -/
theorem chosen (h : Hardens env dtdsRequired b above out parts) (mem : p ∈ parts) :
    p.written = [] ∨ ∃ c ∈ choices env dtdsRequired b ⟨.block b :: above⟩,
      (c.addition env dtdsRequired ⟨.block b :: above⟩
        (factsOf env ⟨.block b :: above⟩)).anchor.id = p.old.id ∧
      Inserts (⟨.block b :: above⟩ : Path).bodyOwner? c.feature c.exception p.written := by
  have written := h.written p mem
  cases last : Addition.last? (plan env dtdsRequired b ⟨.block b :: above⟩) p.old with
  | none =>
    rw [last] at written
    generalize p.written = ws at written ⊢
    cases written
    exact .inl rfl
  | some a =>
    rw [last] at written
    obtain ⟨inside, at_⟩ := Addition.last?_mem last
    obtain ⟨c, hc, rfl⟩ := List.mem_map.mp inside
    refine .inr ⟨c, hc, eq_of_beq at_, ?_⟩
    generalize p.written = ws at written ⊢
    cases written with
    | made _ next => exact c.inserts _ next

theorem exists_choice (h : Hardens env dtdsRequired b above out (pre ++ p :: post)) (mem : x ∈ added pre) :
    ∃ q ∈ pre, ∃ c ∈ choices env dtdsRequired b ⟨.block b :: above⟩,
      (c.addition env dtdsRequired ⟨.block b :: above⟩
        (factsOf env ⟨.block b :: above⟩)).anchor.id = q.old.id ∧
      (⟨.block b :: above⟩ : Path).bodyOwner? = none ∧ x = c.feature := by
  obtain ⟨q, hq, mem⟩ := List.mem_flatMap.mp mem
  rcases h.chosen (List.mem_append_left _ hq) with nothing | ⟨c, hc, at_, inserts⟩
  · rw [nothing] at mem
    cases mem
  · exact ⟨q, hq, c, hc, at_, inserts.declares mem⟩

/-- Behind what was declared, nothing is declared further in. -/
theorem quiet_of_added (h : Hardens env dtdsRequired b above out (pre ++ p :: post))
    (distinct : (b.stmts.map (·.id)).Nodup)
    (apart : (⟨.block b :: above⟩ : Path).bodyOwner? = none → FactoriesApart env.matcher b)
    (mem : x ∈ added pre) : holdsFactory env.matcher (.stmt p.old) = false := by
  obtain ⟨q, hq, c, hc, at_, isLocal, -⟩ := h.exists_choice mem
  obtain ⟨among, -⟩ := choose_free hc
  obtain ⟨front, s, split, own⟩ := Factory.mem_declaredIn.mp among
  obtain ⟨-, rfl, isFactory⟩ := Factory.mem_ofDeclaration.mp own
  have declares : Factory.ofDeclaration env.matcher creation c.factory.declaration [] ≠ [] :=
    List.ne_nil_of_mem (Factory.mem_ofDeclaration.mpr ⟨rfl, rfl, isFactory⟩ :
      { c.factory with following := [] } ∈ _)
  -- The statement in front of which nothing was declared is the declaration or follows it.
  have anchored : q.old ∈ c.factory.declaration :: c.factory.following := by
    have anchor : (lastFeatureStmt? env c.factory).getD c.factory.declaration ∈
        c.factory.declaration :: c.factory.following := by
      cases last : lastFeatureStmt? env c.factory with
      | none => exact List.mem_cons_self
      | some s => exact List.mem_cons_of_mem _ (lastFeatureStmt?_mem s last)
    have same : (lastFeatureStmt? env c.factory).getD c.factory.declaration = q.old := by
      refine List.inj_on_of_nodup_map distinct (split ▸ List.mem_append_right _ anchor) ?_ ?_
      · rw [h.before]
        exact List.mem_map_of_mem (List.mem_append_left _ hq)
      · unfold Choice.addition at at_
        rw [isLocal] at at_
        exact at_
    exact same ▸ anchor
  obtain ⟨early, late, rfl⟩ := List.append_of_mem hq
  have stmts : early.map (·.old) ++ q.old :: (late ++ p :: post).map (·.old) =
      front ++ c.factory.declaration :: c.factory.following := by
    rw [← split, h.before]
    simp
  have behind : p.old ∈ c.factory.following :=
    subset_of_split (split ▸ distinct.of_map) stmts anchored
      (List.mem_map_of_mem (List.mem_append_right _ List.mem_cons_self))
  have pairs := apart isLocal
  unfold FactoriesApart at pairs
  rw [split] at pairs
  exact (List.pairwise_cons.mp (List.pairwise_append.mp pairs).2.1).1 _ behind declares

/-- The names that are chosen for a place are not declared in front of it. -/
theorem free_of_added (h : Hardens env dtdsRequired b above out (pre ++ p :: post))
    (distinct : (b.stmts.map (·.id)).Nodup) {c : Choice}
    (hc : c ∈ choices env dtdsRequired b ⟨.block b :: above⟩)
    (at_ : (c.addition env dtdsRequired ⟨.block b :: above⟩
      (factsOf env ⟨.block b :: above⟩)).anchor.id = p.old.id) :
    c.feature ∉ added pre ∧ c.exception ∉ added pre := by
  refine ⟨fun mem => ?_, fun mem => ?_⟩
  · obtain ⟨q, hq, c', hc', at_', -, same⟩ := h.exists_choice mem
    obtain rfl := List.inj_on_of_nodup_map (choose_nodup _ _ _) hc hc' same
    rw [h.before, List.map_map, List.map_append, List.map_cons] at distinct
    exact List.disjoint_of_nodup_append distinct (List.mem_map_of_mem hq)
      (List.mem_cons.mpr (.inl (at_'.symm.trans at_)))
  · obtain ⟨q, -, c', hc', -, -, same⟩ := h.exists_choice mem
    exact (choose_free hc').2.ne (choose_free hc).2 same.symm

/-- What is declared in front of a place: what was, and what was added. -/
theorem declares_subset (h : Hardens env dtdsRequired b above out (pre ++ p :: post)) :
    (pre.flatMap fun q => q.stmts.map Node.stmt).flatMap Node.declares ⊆
      (pre.map (·.old)).flatMap Stmt.declaredNames ++ added pre := by
  intro x mem
  obtain ⟨n, hn, mem⟩ := List.mem_flatMap.mp mem
  obtain ⟨q, hq, hn⟩ := List.mem_flatMap.mp hn
  obtain ⟨s, hs, rfl⟩ := List.mem_map.mp hn
  rcases List.mem_cons.mp hs with rfl | hs
  · refine List.mem_append_left _ (List.mem_flatMap.mpr ⟨q.old, List.mem_map_of_mem hq, ?_⟩)
    rw [← h.declares q (List.mem_append_left _ hq)]
    exact mem
  · exact List.mem_append_right _
      (List.mem_flatMap.mpr ⟨q, hq, List.mem_flatMap.mpr ⟨s, hs, mem⟩⟩)

/-- What was declared in front of a place is declared in the block. -/
theorem declared_subset (h : Hardens env dtdsRequired b above out (pre ++ p :: post)) :
    (pre.map (·.old)).flatMap Stmt.declaredNames ⊆ (Node.block b).bindings := by
  intro x mem
  obtain ⟨s, hs, mem⟩ := List.mem_flatMap.mp mem
  obtain ⟨q, hq, rfl⟩ := List.mem_map.mp hs
  refine List.mem_flatMap.mpr ⟨q.old, ?_, mem⟩
  rw [h.before]
  exact List.mem_map_of_mem (List.mem_append_left _ hq)

theorem old_mem (h : Hardens env dtdsRequired b above out (pre ++ p :: post)) : p.old ∈ b.stmts := by
  rw [h.before]
  exact List.mem_map_of_mem (List.mem_append_right _ List.mem_cons_self)

/-- The region behind what some statements became. -/
abbrev regionBehind (r : Region) (pre : List Appendage) : Region :=
  r.declaring ((pre.flatMap fun q => q.stmts.map Node.stmt).flatMap Node.declares)

/-- Either nothing was added in front of a statement, or nothing is added further in. -/
theorem allows_behind (h : Hardens env dtdsRequired b above out (pre ++ p :: post))
    (distinct : (b.stmts.map (·.id)).Nodup)
    (apart : (⟨.block b :: above⟩ : Path).bodyOwner? = none → FactoriesApart env.matcher b)
    (allows : Allows env.matcher above r (.block b)) :
    Allows env.matcher (.block b :: above) (regionBehind r pre) (.stmt p.old) := by
  rcases allows with sight | quiet
  · by_cases nothing : added pre = []
    · refine .inl fun _ _ y mem => ?_
      rw [List.flatMap_cons, List.mem_append]
      rcases Region.mem_names_declaring mem with outer | mem
      · exact .inr (sight rfl rfl y outer)
      · have inFront := h.declares_subset mem
        rw [nothing, List.append_nil] at inFront
        exact .inl (h.declared_subset inFront)
    · obtain ⟨x, mem⟩ := List.exists_mem_of_ne_nil _ nothing
      exact .inr (h.quiet_of_added distinct apart mem)
  · exact .inr (holdsFactory_child quiet rfl (List.mem_map_of_mem h.old_mem))

/-- What is added in front of a statement leaves it well-scoped: it is not declared in the
block. -/
theorem wellScoped_behind (h : Hardens env dtdsRequired b above out (pre ++ p :: post))
    (before : (Node.block b).WellScoped r) : (Node.stmt p.old).WellScoped (regionBehind r pre) := by
  have there : (Node.stmt p.old).WellScoped
      (r.declaring ((pre.map (·.old)).flatMap Stmt.declaredNames)) := by
    rw [Node.wellScoped_block, h.before, List.map_append, List.map_append, Region.inTurn_append,
      List.forall_mem_append] at before
    have here := before.2 _ List.mem_cons_self
    rwa [List.flatMap_map] at here
  refine there.declaring h.declares_subset fun x mem declared => ?_
  obtain ⟨q, -, c, hc, -, -, rfl⟩ := h.exists_choice mem
  exact (choose_free hc).2.feature (List.mem_append_left _
    (Node.mem_declaredNames_of_child (List.mem_map_of_mem h.old_mem) declared))

/-- What is free at the block and was not added in front of a statement is free behind it. -/
theorem free_behind (h : Hardens env dtdsRequired b above out (pre ++ p :: post))
    (sight : r.InSight above (.block b)) (free : x ∉ (⟨.block b :: above⟩ : Path).takenNames)
    (notAdded : x ∉ added pre) :
    x ∉ ((regionBehind r pre).declaring (Node.stmt p.visited).declares).names := by
  have taken (inSight : x ∈ (Node.block b).bindings ++ above.flatMap (·.bindings)) : False :=
    free (List.mem_append_right _ inSight)
  intro mem
  rcases Region.mem_names_declaring mem with mem | mem
  · rcases Region.mem_names_declaring mem with mem | mem
    · exact taken (List.mem_append_right _ (sight rfl rfl x mem))
    · rcases List.mem_append.mp (h.declares_subset mem) with mem | mem
      · exact taken (List.mem_append_left _ (h.declared_subset mem))
      · exact notAdded mem
  · refine taken (List.mem_append_left _ (List.mem_flatMap.mpr ⟨p.old, h.old_mem, ?_⟩))
    rw [← h.declares p (List.mem_append_right _ List.mem_cons_self)]
    exact mem

/-- A block that was hardened is well-scoped, if its statements are that were visited. -/
theorem wellScoped (h : Hardens env dtdsRequired b above out parts)
    (distinct : (b.stmts.map (·.id)).Nodup)
    (apart : (⟨.block b :: above⟩ : Path).bodyOwner? = none → FactoriesApart env.matcher b)
    (allows : Allows env.matcher above r (.block b)) (before : (Node.block b).WellScoped r)
    (visited : ∀ p ∈ parts, ∀ r, Allows env.matcher (.block b :: above) r (.stmt p.old) →
      (Node.stmt p.old).WellScoped r → (Node.stmt p.visited).WellScoped r) :
    (Node.block out).WellScoped r := by
  have stmts : (parts.flatMap (·.stmts)).map Node.stmt = parts.flatMap fun p => p.stmts.map .stmt :=
    List.map_flatMap
  rw [Node.wellScoped_block, h.after, stmts]
  refine Region.wellScoped_inTurn_flatMap fun pre p post split => ?_
  subst split
  have inside : p ∈ pre ++ p :: post := List.mem_append_right _ List.mem_cons_self
  show ∀ q ∈ Region.inTurn _ (.stmt p.visited :: p.written.map .stmt), _
  rw [Region.inTurn]
  refine List.forall_mem_cons.mpr ⟨visited p inside _ (h.allows_behind distinct apart allows)
    (h.wellScoped_behind before), ?_⟩
  rcases h.chosen inside with nothing | ⟨c, hc, at_, inserts⟩
  · rw [nothing]
    exact fun q none => (List.not_mem_nil none).elim
  · obtain ⟨free, freeException⟩ := h.free_of_added distinct hc at_
    obtain ⟨among, chosen⟩ := choose_free hc
    have sight : r.InSight above (.block b) := by
      refine allows.resolve_right fun quiet => ?_
      rw [declaredIn_of_quiet quiet] at among
      cases among
    exact inserts.wellScoped (h.free_behind sight chosen.feature free)
      (h.free_behind sight chosen.exception freeException) (chosen.ne chosen)

end Hardens

/-! ## The pass -/

section

variable {env : PassEnv} {dtdsRequired : Bool} {above : List Node} {n out : Node} {r : Region}

/-- Appending declares nothing for what stands behind the node. -/
theorem declares_of_appended {plan : Block → Path → List Addition}
    (h : Node.Appended plan above n out) : out.declares = n.declares := by
  induction h with
  | around open_ pairs label before after visited kept ih =>
    refine Node.declares_refilled label ?_
    rw [before, after, List.forall₂_map_left_iff, List.forall₂_map_right_iff, List.forall₂_same]
    exact ih
  | block => rfl

/-- A node in which factories were configured is well-scoped. -/
theorem wellScoped_of_appended (h : Node.Appended (plan env dtdsRequired) above n out)
    (distinct : (n.subtree.map Node.id).Nodup) (apart : n.AllBodies (FactoriesApart env.matcher))
    (here : ∀ b, n = .block b → (⟨n :: above⟩ : Path).bodyOwner? = none →
      FactoriesApart env.matcher b)
    (allows : Allows env.matcher above r n) (before : n.WellScoped r) : out.WellScoped r := by
  induction h generalizing r with
  | @around above n out open_ pairs label children after visited kept ih =>
    refine before.refilled (Allows env.matcher (n :: above)) label (fun p mem => ?_) ?_
    · by_cases opens : n.opensScope = true
      · rw [scopes_of_opensScope opens] at mem
        have sight : Region.members.InSight above n := fun _ _ => nofun
        exact .inl (sight.below mem)
      · refine allows.imp (·.below mem) fun quiet => ?_
        exact holdsFactory_child quiet (Bool.eq_false_iff.mpr opens) (Node.mem_children_of_scopes mem)
    · rw [children, after, List.forall₂_map_left_iff, List.forall₂_map_right_iff, List.forall₂_same]
      intro p hp
      have child : p.1 ∈ n.children := children ▸ List.mem_map_of_mem hp
      refine ⟨fun r allows before => ?_, declares_of_appended (visited p hp)⟩
      refine ih p hp (Node.distinct_child distinct child) (apart.child child) (fun b at_ noOwner => ?_)
        allows before
      have noClass : n.class? = none := Option.map_eq_none_iff.mp noOwner
      exact apart.self noClass b (at_ ▸ child)
  | @block above b out parts isStatic children after visited written kept ih =>
    have hardens : Hardens env dtdsRequired b above out parts :=
      ⟨children, after, fun p mem => declares_of_appended (visited p mem), written⟩
    refine hardens.wellScoped (Node.distinct_stmts distinct) (here b rfl) allows before
      fun p mem r allows before => ?_
    have child : .stmt p.old ∈ (Node.block b).children :=
      List.mem_map_of_mem (children ▸ List.mem_map_of_mem mem)
    exact ih p mem (Node.distinct_child distinct child) (apart.child child) nofun allows before

/-- Hardening factories redeclares no local, if no factory is declared further in behind
the declaration of another one. -/
theorem pass_wellScoped_of_apart (standard : env.splicer = .standard) (externalDtds : List String)
    {unit : CompilationUnit} {next : NodeId} (distinct : ((Node.unit unit).subtree.map Node.id).Nodup)
    (old : ∀ n ∈ (Node.unit unit).subtree, n.id < next)
    (apart : (Node.unit unit).AllBodies (FactoriesApart env.matcher))
    (wellScoped : (Node.unit unit).WellScoped .members) :
    ∃ out used, DocumentBuilder.pass env externalDtds unit next = (.ok out, used) ∧
      (Node.unit out.unit).WellScoped .members := by
  obtain ⟨out, used, changed, ran, -, appended, classes, -⟩ :=
    (remedy_appends env !externalDtds.isEmpty).succeeds (remedy_succeeds env _)
      (fun _ _ => notes fun _ _ _ _ _ _ _ _ _ _ _ => Factory.fits_accounting)
      standard (.of_distinct distinct old)
  refine ⟨out, used, ran, ?_⟩
  have sight : Region.members.InSight [] (.unit unit) := fun _ _ => nofun
  have kept := wellScoped_of_appended appended distinct apart nofun (.inl sight) wellScoped
  rw [Node.wellScoped_unit] at kept ⊢
  rwa [classes]

/-- `{ DocumentBuilderFactory a = …; } DocumentBuilderFactory b = …, then c = …;` where a
parameter is called `FEATURE`. -/
theorem pass_wellScoped_of_apart_threeFactories :
    let ty : Ty := .known Fqn.documentBuilderFactory
    let declares (id : NodeId) (name : String) : Stmt :=
      ⟨id, .declare ⟨[], "DocumentBuilderFactory", [⟨id + 1, name, ty, some ⟨id + 2, ty,
        .call (some ⟨id + 3, ty, .ident "DocumentBuilderFactory" none⟩) "newInstance" []
          (some Jdk.documentBuilderFactoryNewInstance)⟩⟩]⟩⟩
    let inner : Stmt := ⟨5, .block ⟨6, false, [declares 7 "a"]⟩⟩
    let method : Stmt := ⟨3, .method ⟨[], some "void", "m", [.ofType .string "FEATURE"], []⟩
      (some ⟨4, false, [inner, declares 11 "b", declares 15 "c"]⟩)⟩
    let unit : CompilationUnit := ⟨0, none, [], [⟨1, ⟨[], "A", .known "A"⟩, ⟨2, false, [method]⟩⟩]⟩
    let env : PassEnv := ⟨.standard, ⟨64, 8⟩, .standard⟩
    ∃ out used, DocumentBuilder.pass env [] unit 19 = (.ok out, used) ∧
      (Node.unit out.unit).WellScoped .members := by
  intro ty declares inner method unit env
  have distinct : ((Node.unit unit).subtree.map Node.id).Nodup := by decide +kernel
  have old : ∀ n ∈ (Node.unit unit).subtree, n.id < 19 := by decide +kernel
  have apart : (Node.unit unit).AllBodies (FactoriesApart .standard) := by decide +kernel
  have wellScoped : (Node.unit unit).WellScoped .members := by decide +kernel
  exact pass_wellScoped_of_apart rfl [] distinct old apart wellScoped

end

end DocumentBuilder

end JavaMend
