import JavaMend.Proofs.Remedy.Following
import JavaMend.Proofs.TempFiles.Commuting

/-!
# What the passes for temporary files note

The pass that makes directories notes the fixes of all the sites of a block when it leaves
the block (`TempDirectory.remedy_follows`). The pass that makes files replaces a call when
it comes to it, unless its state claims the call (`TempFile.remedy_follows`). That state
only grows: it holds the calls of all the blocks that were entered so far
(`TempFile.Knows`). As no node stands at two places, it claims a call only if the nearest
block does.
-/

namespace JavaMend

/-! ## Paths -/

namespace Path

/-- A path of two nodes at least leads to a node below a child of the root. -/
theorem genuine_below_root {front : List Node} {c root : Node}
    (genuine : GenuineList (front ++ [c] ++ [root])) :
    c ∈ root.children ∧ GenuineList (front ++ [c]) ∧
      ∃ m, (front ++ [c] ++ [root]).head? = some m ∧ (front ++ [c]).head? = some m ∧ m ∈ c.subtree := by
  have split : GenuineList (front ++ c :: [root]) := by simpa using genuine
  have child : GenuineList (c :: [root]) := genuineList_right split
  cases front with
  | nil => exact ⟨child.1, trivial, c, rfl, rfl, Node.mem_subtree_self⟩
  | cons m front =>
    have inside : GenuineList (m :: (front ++ [c])) := genuineList_left genuine
    have last : (m :: (front ++ [c])).getLast? = some c := by
      rw [← List.cons_append, List.getLast?_concat]
    exact ⟨child.1, inside, m, rfl, rfl,
      (Node.subtree_sublist_of_genuine inside last).subset Node.mem_subtree_self⟩

/-- In a tree in which no node stands at two places, each node has one path. -/
theorem genuine_unique {front front' : List Node} {root : Node}
    (genuine : GenuineList (front ++ [root])) (genuine' : GenuineList (front' ++ [root]))
    (distinct : (root.subtree.map Node.id).Nodup)
    (same : (front ++ [root]).head?.map Node.id = (front' ++ [root]).head?.map Node.id) :
    front = front' := by
  induction front using List.reverseRecOn generalizing front' root with
  | nil =>
    rcases List.eq_nil_or_concat' front' with rfl | ⟨front', c, rfl⟩
    · rfl
    · obtain ⟨child, -, m, first, -, below⟩ := genuine_below_root genuine'
      rw [first] at same
      exact (Node.id_ne_of_below distinct child below (Option.some.inj same).symm).elim
  | append_singleton front c ih =>
    obtain ⟨child, inside, m, first, first', below⟩ := genuine_below_root genuine
    rw [first] at same
    rcases List.eq_nil_or_concat' front' with rfl | ⟨front', d, rfl⟩
    · exact (Node.id_ne_of_below distinct child below (Option.some.inj same)).elim
    · obtain ⟨child', inside', k, second, second', below'⟩ := genuine_below_root genuine'
      rw [second] at same
      cases Node.eq_of_inside distinct child child' below below' (Option.some.inj same)
      rw [ih inside inside' (Node.distinct_child distinct child) (by rw [first', second', same])]

/-- The same for paths that begin with the node. -/
theorem above_unique {n root : Node} {above above' : List Node} (genuine : GenuineList (n :: above))
    (genuine' : GenuineList (n :: above')) (last : (n :: above).getLast? = some root)
    (last' : (n :: above').getLast? = some root) (distinct : (root.subtree.map Node.id).Nodup) :
    above = above' := by
  obtain ⟨front, split⟩ := List.getLast?_eq_some_iff.mp last
  obtain ⟨front', split'⟩ := List.getLast?_eq_some_iff.mp last'
  rw [split] at genuine
  rw [split'] at genuine'
  cases genuine_unique genuine genuine' distinct (by rw [← split, ← split']; rfl)
  exact (List.cons.inj (split.trans split'.symm)).2

end Path

/-! ## What a replacement is made of -/

theorem Expr.mem_partsOf {es : List Expr} {m : Node}
    (mem : m ∈ Expr.partsOf (fun _ => false) es) : ∃ e ∈ es, m ∈ (Node.expr e).subtree := by
  induction es with
  | nil => exact (Multiset.notMem_zero _ mem).elim
  | cons e es ih =>
    rw [Expr.partsOf_cons, Multiset.mem_add] at mem
    rcases mem with here | mem
    · rw [Expr.parts, Node.parts_all] at here
      exact ⟨e, List.mem_cons_self, Multiset.mem_coe.mp here⟩
    · obtain ⟨e', mem, below⟩ := ih mem
      exact ⟨e', List.mem_cons_of_mem _ mem, below⟩

/-- What is made of the arguments of a call is new but for what stands in them. -/
theorem Fresh.Spends.old {make : Fresh (Option Expr)} {e new : Expr} {next mark : NodeId}
    (spends : make.Spends (Expr.partsOf (fun _ => false) e.args)
      fun new => Expr.partsOf (fun _ => false) new.toList)
    (made : (make next).1 = some new) (le : mark ≤ next) :
    ∀ m ∈ (Node.expr new).subtree, m.id < mark → ∃ c ∈ (Node.expr e).children, m ∈ c.subtree := by
  intro m mem old
  obtain ⟨fresh, drawn, paid⟩ := spends next
  have inside : m ∈ Expr.partsOf (fun _ => false) (some new).toList := by
    simpa [Expr.parts, Node.parts_all] using mem
  rw [← made] at inside
  rcases Multiset.mem_add.mp (Multiset.mem_of_le paid inside) with taken | new
  · obtain ⟨arg, mem, below⟩ := Expr.mem_partsOf taken
    exact ⟨.expr arg, List.mem_map_of_mem (Expr.mem_children_of_args mem), below⟩
  · exact absurd old (Nat.not_lt_of_le (Nat.le_trans le (drawn.within m new).1))

/-! ## Top-level classes -/

namespace TempDirectory

/-- The nearest node is a top-level class if and only if the place says so. -/
theorem inClass_place {R : Rewriting Place} (h : R.OfCreations) (outside : R.outside = .outermost)
    (above : List Node) :
    (R.place above).inClass = (above.head?.bind Node.cls?).isSome := by
  cases above with
  | nil =>
    show R.outside.inClass = _
    rw [outside]
    rfl
  | cons n above =>
    show (R.inside (R.place above) n).inClass = _
    rw [h.inside, Place.inClass_inside]
    rfl

theorem belowClass_ok {σ : Type} {n : Node} {above : List Node} {below : Bool}
    {site site' : Site Note σ} (path : site.cursor.path = ⟨n :: above⟩)
    (ran : (belowClass : PassM σ Bool) site = .ok below site') :
    site' = site ∧ below = (above.head?.bind Node.cls?).isSome := by
  unfold belowClass at ran
  obtain ⟨_, _, ran₁, ran⟩ := VisitM.ok_of_bind ran
  cases ran₁
  cases ran
  rw [path]
  exact ⟨rfl, rfl⟩

end TempDirectory

/-! ## Files -/

namespace TempFile

open TempDirectory Rewriting

variable {unit : CompilationUnit} {mark : NodeId} {above : List Node} {own : State} {n : Node}
  {e : Expr}

/-- The state on a path holds the calls that the places around claim, and only calls of sites
of the unit. -/
structure Knows (unit : CompilationUnit) (above : List Node) (own : State) : Prop where
  around : ∀ outer, outer <:+ above → ∀ site ∈ (filing.place outer).sites, site.create.id ∈ own
  sites : ∀ id ∈ own, ∃ b up, Path.GenuineList (.block b :: up) ∧
    (Node.block b :: up).getLast? = some (.unit unit) ∧
    ∃ site ∈ (filing.place (.block b :: up)).sites, site.create.id = id

theorem Knows.outward (h : Knows unit (n :: above) own) : Knows unit above own where
  around outer suffix := h.around outer (suffix.trans (List.suffix_cons n above))
  sites := h.sites

/-- Only a block has sites of its own. -/
theorem Knows.enter_node (h : Knows unit above own) (open_ : n.block? = none) :
    Knows unit (n :: above) own where
  around outer suffix site mem := by
    rcases List.suffix_cons_iff.mp suffix with rfl | suffix
    · have same : (filing.place (n :: above)).sites = (filing.place above).sites := by
        cases n with
        | block b => cases open_
        | _ => rfl
      exact h.around above List.suffix_rfl site (same ▸ mem)
    · exact h.around outer suffix site mem
  sites := h.sites

theorem Knows.enter_block {b : Block} (h : Knows unit above own)
    (genuine : Path.GenuineList (.block b :: above))
    (last : (Node.block b :: above).getLast? = some (.unit unit)) :
    Knows unit (.block b :: above)
      ((filing.place (.block b :: above)).sites.map (·.create.id) ++ own) where
  around outer suffix site mem := by
    rcases List.suffix_cons_iff.mp suffix with rfl | suffix
    · exact List.mem_append_left _ (List.mem_map_of_mem mem)
    · exact List.mem_append_right _ (h.around outer suffix site mem)
  sites id mem := by
    rcases List.mem_append.mp mem with here | mem
    · obtain ⟨site, found, same⟩ := List.mem_map.mp here
      exact ⟨b, above, genuine, last, site, found, same⟩
    · exact h.sites id mem

/-- The state claims a call if and only if the nearest block does. -/
theorem Knows.contains (h : Knows unit above own) (genuine : Path.GenuineList (.expr e :: above))
    (last : (Node.expr e :: above).getLast? = some (.unit unit))
    (distinct : ((Node.unit unit).subtree.map Node.id).Nodup) (creation : isCreation e = true) :
    own.contains e.id = (filing.place above).claims e := by
  rw [Bool.eq_iff_iff, List.contains_iff_mem]
  constructor
  · intro mem
    obtain ⟨b, up, genuine', last', site, found, same⟩ := h.sites e.id mem
    have of := siteOf_inside found
    have first : Node.stmt site.createStmt ∈ (Node.block b).children := List.mem_map_of_mem of.createMem
    have below : Node.expr site.create ∈ (Node.unit unit).subtree :=
      (Node.subtree_sublist_of_genuine genuine' last').subset
        (Node.mem_subtree_of_child first (create_mem (sites_inside found)))
    have here : Node.expr e ∈ (Node.unit unit).subtree :=
      (Node.subtree_sublist_of_genuine genuine last).subset Node.mem_subtree_self
    cases Node.eq_of_id distinct below here same
    -- The call gives way on its path from the block on, and it has no other path.
    have gives : making.gives (making.place (.block b :: up)) site.create = true :=
      Bool.and_eq_true_iff.mpr ⟨creation, claims_of_mem found⟩
    have plain : (making.place (.block b :: up)).inClass = false :=
      Place.inClass_inside.trans (rfl : (Node.block b).cls?.isSome = false)
    have child : Path.GenuineList (.stmt site.createStmt :: .block b :: up) := ⟨first, genuine'⟩
    obtain ⟨path, genuine'', last'', gives'⟩ := (of.outermost plain gives).exists_path child
    rw [List.getLast?_cons_cons, last'] at last''
    cases Path.above_unique genuine'' genuine last'' last distinct
    exact (Bool.and_eq_true_iff.mp gives').2
  · intro claims
    obtain ⟨site, mem, same⟩ := List.any_eq_true.mp claims
    rw [← eq_of_beq same]
    exact h.around above List.suffix_rfl site mem

/-- Entering a block, the state takes up the calls of its sites. -/
theorem enter_block {env : PassEnv} (matcher : env.matcher = .standard) {b : Block}
    {hand : Multiset Node} {ws : List (Node × List PendingFix)} {was : Prop}
    (comes : filing.Comes False unit mark (.block b) above) :
    VisitM.Triple
      (fun site => filing.Order (Knows unit) unit ws was above site ∧
        (filing.ledger unit mark).Holds (.block b :: above) hand site)
      ((remedy env).enter (.block b)) fun goOn site =>
        (filing.Order (Knows unit) unit ws was (.block b :: above) site ∧
          (filing.ledger unit mark).Holds (.block b :: above) hand site) ∧ goOn = true := by
  rintro site goOn site' ⟨order, holds⟩ ran
  have knows := order.knows.enter_block comes.stands.genuine comes.root
  unfold remedy at ran
  dsimp only at ran
  obtain ⟨below, site₁, ran₁, ran⟩ := VisitM.ok_of_bind ran
  obtain ⟨rfl, inClass⟩ := belowClass_ok holds.outward ran₁
  have here : (filing.place (.block b :: above)).sites =
      if below then [] else TempDirectory.sites .standard b := by
    rw [inClass, ← inClass_place filing_ofCreations rfl above]
    rfl
  rw [here] at knows
  cases below with
  | true =>
    cases ran
    exact ⟨⟨{ order with knows := knows }, holds⟩, rfl⟩
  | false =>
    cases ran
    rw [matcher]
    exact ⟨⟨{ order with knows := knows }, holds.of_waiting rfl (Nat.le_refl _) le_rfl⟩, rfl⟩

section

variable {env : PassEnv} {hand : Multiset Node} {ws : List (Node × List PendingFix)} {was : Prop}

/-- A call that gives way is replaced where the visit comes to it. -/
theorem checkCreation_notes (comes : filing.Comes False unit mark (.expr e) above)
    (gives : filing.gives (filing.place above) e = true) :
    VisitM.Triple
      (fun site => filing.Order (Knows unit) unit ws was above site ∧
        (filing.ledger unit mark).Holds (.expr e :: above) hand site)
      (checkCreation e) fun goOn site =>
        (filing.Order (Knows unit) unit ws was above site ∧
          (filing.ledger unit mark).Holds (.expr e :: above) hand site) ∧
        goOn = false ∧ Noted (nearestFixes site.cursor.waiting) e.id := by
  have free : filing.Free above := comes.free.resolve_left id
  have creation := (Bool.and_eq_true_iff.mp gives).1
  obtain ⟨anchor, -, -, -, found, -⟩ := comes.anchored free gives
  rintro site goOn site' ⟨order, holds⟩ ran
  unfold checkCreation at ran
  obtain ⟨path, _, ran₁, ran⟩ := VisitM.ok_of_bind ran
  cases ran₁
  obtain ⟨answer, site₂, ran₂, ran⟩ := VisitM.ok_of_bind ran
  obtain ⟨-, extra, -, paid, holds₂⟩ :=
    Regime.fresh_holds (replacement?_spends (fun _ => false) e) holds ran₂
  obtain ⟨used, made, rfl⟩ := VisitM.ok_of_fresh ran₂
  have made : (replacement? e site.next).1 = answer := by rw [made]
  have some : answer.isSome = true := by
    rw [← made, isSome_replacement?]
    exact (Bool.and_eq_true_iff.mp creation).2
  obtain ⟨new, rfl⟩ := Option.isSome_iff_exists.mp some
  simp only [holds.outward, found] at ran
  obtain ⟨_, site₃, ran₃, ran⟩ := VisitM.ok_of_bind ran
  cases ran
  obtain ⟨makes, late⟩ := makes_of_replacement? made
  have budget : (Node.expr new).parts (fun _ => false) ≤
      (Node.expr e).parts (fun _ => false) + extra := by
    refine le_trans (by simpa [Expr.parts] using paid) ?_
    gcongr
    exact e.partsOf_args_le (fun _ => false)
  obtain ⟨known, noted⟩ := replaceHere_notes comes free gives (fun _ _ => rfl) makes
    (Nat.le_trans holds.owns.le late)
    ((replacement?_spends (fun _ => false) e).old made holds.owns.le) budget
    ⟨order.next used, holds₂⟩ ran₃
  exact ⟨known, rfl, noted⟩

/-- A call with too few arguments stays as it is. -/
theorem checkCreation_passes (few : ¬ 2 ≤ e.args.length) {goOn : Bool} {site site' : Site Note State}
    (ran : checkCreation e site = .ok goOn site') :
    goOn = true ∧ ∃ used, site.next ≤ used ∧ site' = { site with next := used } := by
  unfold checkCreation at ran
  obtain ⟨path, _, ran₁, ran⟩ := VisitM.ok_of_bind ran
  cases ran₁
  obtain ⟨answer, site₂, ran₂, ran⟩ := VisitM.ok_of_bind ran
  obtain ⟨used, made, rfl⟩ := VisitM.ok_of_fresh ran₂
  have none_ : answer.isSome = false := by
    have answered := isSome_replacement? e site.next
    rw [made, decide_eq_false few] at answered
    exact answered
  have le : site.next ≤ used := by
    obtain ⟨_, drawn, -⟩ := replacement?_spends (fun _ => false) e site.next
    rw [made] at drawn
    exact drawn.le
  cases answer with
  | some new => cases none_
  | none =>
    have passes : (pure true : PassM State Bool) { site with next := used } = .ok goOn site' := by
      rw [← ran]
      cases site.cursor.path.anchor? <;> rfl
    cases passes
    exact ⟨rfl, used, le, rfl⟩

/-- The pass for temporary files follows the rewriting. -/
theorem remedy_follows (matcher : env.matcher = .standard)
    (distinct : ((Node.unit unit).subtree.map Node.id).Nodup) :
    filing.Follows (Knows unit) False unit mark (remedy env) where
  sparing := filing_sparing
  outward _ _ _ h := h.outward
  enter n above hand ws was comes := by
    cases n with
    | block b =>
      rintro site goOn site' held ran
      obtain ⟨known, rfl⟩ := enter_block matcher comes held ran
      refine ⟨known, ?_⟩
      intro given
      cases given
    | expr e =>
      rintro site goOn site' ⟨order, holds⟩ ran
      have down {site : Site Note State} (order : filing.Order (Knows unit) unit ws was above site) :
          filing.Order (Knows unit) unit ws was (.expr e :: above) site :=
        { order with knows := order.knows.enter_node rfl }
      unfold remedy at ran
      dsimp only at ran
      obtain ⟨own, _, ran₁, ran⟩ := VisitM.ok_of_bind ran
      cases ran₁
      have claims (creation : isCreation e = true) := order.knows.contains comes.stands.genuine
        comes.root distinct creation
      split at ran
      next looks =>
        obtain ⟨accepted, unclaimed⟩ := Bool.and_eq_true_iff.mp looks
        rw [matcher] at accepted
        by_cases enough : 2 ≤ e.args.length
        · have creation : isCreation e = true :=
            Bool.and_eq_true_iff.mpr ⟨accepted, decide_eq_true enough⟩
          have gives : filing.gives (filing.place above) e = true := by
            rw [claims creation] at unclaimed
            exact Bool.and_eq_true_iff.mpr ⟨creation, unclaimed⟩
          obtain ⟨⟨order', holds'⟩, rfl, noted⟩ := checkCreation_notes comes gives ⟨order, holds⟩ ran
          exact ⟨⟨down order', holds'⟩, e, rfl, gives, noted⟩
        · obtain ⟨rfl, used, le, rfl⟩ := checkCreation_passes enough ran
          refine ⟨⟨down (order.next used), holds.of_waiting rfl le le_rfl⟩, fun given => ?_⟩
          have creation := (Bool.and_eq_true_iff.mp given).1
          exact enough (of_decide_eq_true (Bool.and_eq_true_iff.mp creation).2)
      next passes =>
        cases ran
        refine ⟨⟨down order, holds⟩, fun given => passes ?_⟩
        obtain ⟨creation, unclaimed⟩ := Bool.and_eq_true_iff.mp given
        rw [matcher, claims creation]
        exact Bool.and_eq_true_iff.mpr ⟨accepted_of_isCreation creation, unclaimed⟩
    | _ =>
      rintro site goOn site' ⟨order, holds⟩ ran
      cases ran
      refine ⟨⟨{ order with knows := order.knows.enter_node rfl }, holds⟩, ?_⟩
      intro given
      cases given
  leave b above hand ws was comes := by
    rintro site _ site' held ran
    cases ran
    refine ⟨held, ?_, False.elim⟩
    intro s _ drops
    cases drops

end

end TempFile

/-! ## Directories -/

namespace TempDirectory

open Rewriting

/-- What gives way in a node below a class gives way at the place of the node. -/
theorem gives_of_outermost {R : Rewriting Place} (h : R.OfCreations) {p : Place} {e : Expr} {n : Node}
    (plain : p.inClass = false) (inner : Inner n) (outermost : R.Outermost e p n) :
    R.gives p e = true := by
  induction outermost with
  | here gives => exact gives
  | under _ open_ mem _ ih =>
    rw [h.inside_open plain open_ inner.1] at ih
    exact ih plain (inner.child mem)

/-- What waits for a site: its call is to be replaced, its other statements are to be
removed. -/
structure Awaits (fixes : List PendingFix) (site : DirectorySite) : Prop where
  replaces : Noted fixes site.create.id
  deletes : Removing fixes site.deleteStmt.id
  makes : Removing fixes site.mkdirStmt.id

theorem Awaits.grown {site : DirectorySite} {before after : List (Node × List PendingFix)}
    (h : Awaits (nearestFixes before) site) (grown : Grown before after) :
    Awaits (nearestFixes after) site :=
  ⟨grown.noted h.replaces, grown.removing h.deletes, grown.removing h.makes⟩

section

variable {unit : CompilationUnit} {mark : NodeId} {b : Block} {above : List Node}
  {knows : List Node → Unit → Prop} {ws : List (Node × List PendingFix)} {was : Prop}
  {more hand : Multiset Node} {target : DirectorySite}

/-- Noting a fix for a statement of the current block. -/
theorem noteFix_notes {fix : PendingFix} (member : fix.anchor ∈ b.stmts)
    (keeps : VisitM.Triple ((making.ledger unit mark).Holds (.block b :: above) more)
      (PassM.noteFix fix : PassM Unit Bool)
      fun _ => (making.ledger unit mark).Holds (.block b :: above) hand)
    {site site' : Site Note Unit} {noted : Bool}
    (order : making.Order knows unit ws was (.block b :: above) site)
    (holds : (making.ledger unit mark).Holds (.block b :: above) more site)
    (ran : PassM.noteFix fix site = .ok noted site') :
    making.Order knows unit ws was (.block b :: above) site' ∧
      (making.ledger unit mark).Holds (.block b :: above) hand site' ∧
      Grown site.cursor.waiting site'.cursor.waiting ∧ fix ∈ nearestFixes site'.cursor.waiting := by
  have holds' := keeps holds ran
  cases ran
  obtain ⟨⟨_, fixes⟩, back, waiting, rfl, -⟩ := List.map_eq_cons_iff.mp holds.path
  have split : site.cursor.waiting = [] ++ (.block b, fixes) :: back := waiting
  obtain ⟨order', grown, here⟩ := order.noteFix split (fun p none => nomatch none) member
  exact ⟨order', holds', grown, here⟩

/-- Noting the fixes of a site. -/
theorem noteSite_notes (comes : making.Comes True unit mark (.block b) above)
    (mem : target ∈ (making.place (.block b :: above)).sites) :
    VisitM.Triple
      (fun site => making.Order knows unit ws was (.block b :: above) site ∧
        (making.ledger unit mark).Holds (.block b :: above) hand site)
      (noteSite target) fun _ site =>
        (making.Order knows unit ws was (.block b :: above) site ∧
          (making.ledger unit mark).Holds (.block b :: above) hand site) ∧
        (isCreation target.create = true → Awaits (nearestFixes site.cursor.waiting) target) := by
  have of := siteOf_inside mem
  have among := siteAmong_of_mem (sites_inside mem)
  rintro site _ site' ⟨order, holds⟩ ran
  unfold noteSite at ran
  obtain ⟨answer, site₁, ran₁, ran⟩ := VisitM.ok_of_bind ran
  obtain ⟨-, extra, -, paid, holds₁⟩ :=
    Regime.fresh_holds (replacement?_spends (fun _ => false) target.create) holds ran₁
  obtain ⟨used, made, rfl⟩ := VisitM.ok_of_fresh ran₁
  have made : (replacement? target.create site.next).1 = answer := by rw [made]
  have answered := isSome_replacement? target.create site.next
  rw [made] at answered
  cases answer with
  | none =>
    cases ran
    refine ⟨⟨order.next used, holds₁.weaken (Multiset.le_add_left _ _)⟩, fun creation => ?_⟩
    cases answered.trans (Bool.and_eq_true_iff.mp creation).2
  | some new =>
    have creation : isCreation target.create = true :=
      Bool.and_eq_true_iff.mpr ⟨among.accepted, answered.symm⟩
    have gives : making.gives (making.place (.block b :: above)) target.create = true :=
      Bool.and_eq_true_iff.mpr ⟨creation, claims_of_mem mem⟩
    have plain : (making.place (.block b :: above)).inClass = false :=
      Place.inClass_inside.trans (rfl : (Node.block b).cls?.isSome = false)
    obtain ⟨makes, late⟩ := makes_of_replacement? made
    have replaces : making.Fits mark (.block b :: above)
        ⟨target.createStmt, target.create, none, .replace new [Fqn.files]⟩ :=
      .replace makes (Nat.le_trans holds.owns.le late)
        ((replacement?_spends (fun _ => false) target.create).old made holds.owns.le)
        (of.outermost plain gives) of.steps_create
    -- The other statements of the site are dropped.
    have removes {s : Stmt} (unbound : binding? .standard s = none)
        (step : target.deleteStmt = s ∨ target.mkdirStmt = s) :
        making.Fits mark (.block b :: above) ⟨s, target.create, none, .remove⟩ := by
      refine .remove (Bool.and_eq_true_iff.mpr ⟨by rw [unbound]; rfl,
        List.any_eq_true.mpr ⟨target, mem, Bool.and_eq_true_iff.mpr ⟨creation, ?_⟩⟩⟩)
      rw [Bool.or_eq_true, beq_iff_eq, beq_iff_eq]
      exact step.imp (congrArg Stmt.id) (congrArg Stmt.id)
    have inTree : Node.expr target.create ∈ (making.ledger unit mark).tree := by
      refine comes.stands.mem_tree (Node.mem_subtree_of_child ?_ among.create)
      exact List.mem_map_of_mem among.createStmt
    have budget : (Node.expr new).parts (fun _ => false) ≤
        (Node.expr target.create).parts (fun _ => false) + extra := by
      refine le_trans (by simpa [Expr.parts] using paid) ?_
      gcongr
      exact target.create.partsOf_args_le (fun _ => false)
    obtain ⟨_, site₂, ran₂, ran⟩ := VisitM.ok_of_bind ran
    obtain ⟨_, site₃, ran₃, ran⟩ := VisitM.ok_of_bind ran
    obtain ⟨_, site₄, ran₄, ran⟩ := VisitM.ok_of_bind ran
    cases ran
    obtain ⟨order₂, holds₂, -, here₂⟩ := noteFix_notes among.createStmt
      ((Regime.near_here among.createStmt replaces).note_replace rfl inTree (fun _ => rfl) budget)
      (order.next used) holds₁ ran₂
    obtain ⟨order₃, holds₃, grown₃, here₃⟩ := noteFix_notes among.deleteStmt
      ((Regime.near_here among.deleteStmt (removes of.deletes (.inl rfl))).note_plain
        FixTag.noConfusion FixTag.noConfusion rfl _) order₂ holds₂ ran₃
    obtain ⟨order₄, holds₄, grown₄, here₄⟩ := noteFix_notes among.mkdirStmt
      ((Regime.near_here among.mkdirStmt (removes of.makes (.inr rfl))).note_plain
        FixTag.noConfusion FixTag.noConfusion rfl _) order₃ holds₃ ran₄
    refine ⟨⟨order₄, holds₄⟩, fun _ => ⟨?_, ?_, _, here₄, rfl, rfl⟩⟩
    · exact grown₄.noted (grown₃.noted ⟨_, here₂, rfl, rfl⟩)
    · exact grown₄.removing ⟨_, here₃, rfl, rfl⟩

/-- Noting the fixes of some sites. -/
theorem forM_notes (comes : making.Comes True unit mark (.block b) above)
    {targets : List DirectorySite}
    (all : ∀ target ∈ targets, target ∈ (making.place (.block b :: above)).sites) :
    VisitM.Triple
      (fun site => making.Order knows unit ws was (.block b :: above) site ∧
        (making.ledger unit mark).Holds (.block b :: above) hand site)
      (targets.forM noteSite) fun _ site =>
        (making.Order knows unit ws was (.block b :: above) site ∧
          (making.ledger unit mark).Holds (.block b :: above) hand site) ∧
        ∀ target ∈ targets, isCreation target.create = true →
          Awaits (nearestFixes site.cursor.waiting) target := by
  induction targets generalizing ws with
  | nil =>
    rintro site _ site' held ran
    cases ran
    exact ⟨held, fun target none => nomatch none⟩
  | cons target targets ih =>
    rintro site _ site' held ran
    change (noteSite target >>= fun _ => targets.forM noteSite) site = _ at ran
    obtain ⟨_, site₁, ran₁, ran⟩ := VisitM.ok_of_bind ran
    obtain ⟨⟨order, holds⟩, first⟩ := noteSite_notes comes (all target List.mem_cons_self) held ran₁
    obtain ⟨⟨order', holds'⟩, later⟩ := ih (fun t mem => all t (List.mem_cons_of_mem _ mem))
      ⟨⟨order.legible, order.asked, order.since, Grown.refl _, order.knows⟩, holds⟩ ran
    have known : making.Order knows unit ws was (.block b :: above) site' :=
      { order' with grown := order.grown.trans order'.grown }
    refine ⟨⟨known, holds'⟩, fun t mem creation => ?_⟩
    rcases List.mem_cons.mp mem with rfl | mem
    · exact (first creation).grown order'.grown
    · exact later t mem creation

/-- The pass for temporary directories follows the rewriting. -/
theorem remedy_follows {env : PassEnv} (matcher : env.matcher = .standard)
    (distinct : ((Node.unit unit).subtree.map Node.id).Nodup) :
    making.Follows (fun _ _ => True) True unit mark (remedy env) where
  sparing := making_sparing
  outward _ _ _ _ := trivial
  enter n above hand ws was comes := by
    rintro site goOn site' ⟨order, holds⟩ ran
    cases ran
    exact ⟨⟨{ order with knows := trivial }, holds⟩, fun _ => trivial⟩
  leave b above hand ws was comes := by
    rintro site _ site' ⟨order, holds⟩ ran
    -- What waits for each site is all that has to.
    have settled {fixes : List PendingFix}
        (awaits : ∀ target ∈ (making.place (.block b :: above)).sites,
          isCreation target.create = true → Awaits fixes target) :
        (∀ s ∈ b.stmts, making.drops (making.place (.block b :: above)) s = true →
          Removing fixes s.id) ∧
        (True → ∀ s ∈ b.stmts, ∀ e,
          making.Outermost e (making.place (.block b :: above)) (.stmt s) → Noted fixes e.id) := by
      constructor
      · intro s inside drops
        obtain ⟨target, mem, step⟩ := List.any_eq_true.mp (Bool.and_eq_true_iff.mp drops).2
        obtain ⟨creation, step⟩ := Bool.and_eq_true_iff.mp step
        have waits := awaits target mem creation
        rcases Bool.or_eq_true_iff.mp step with same | same
        · rw [← eq_of_beq same]
          exact waits.deletes
        · rw [← eq_of_beq same]
          exact waits.makes
      · intro _ s inside e outermost
        have plain : (making.place (.block b :: above)).inClass = false :=
          Place.inClass_inside.trans (rfl : (Node.block b).cls?.isSome = false)
        have gives := gives_of_outermost making_ofCreations plain ⟨rfl, rfl⟩ outermost
        obtain ⟨target, mem, -, rfl⟩ :=
          site_of_gives (comes.own distinct) inside outermost.mem gives
        exact (awaits target mem (Bool.and_eq_true_iff.mp gives).1).replaces
    unfold remedy at ran
    dsimp only at ran
    obtain ⟨below, site₁, ran₁, ran⟩ := VisitM.ok_of_bind ran
    obtain ⟨rfl, inClass⟩ := belowClass_ok holds.outward ran₁
    have here : (making.place (.block b :: above)).sites =
        if below then [] else TempDirectory.sites .standard b := by
      rw [inClass, ← inClass_place making_ofCreations rfl above]
      rfl
    cases below with
    | true =>
      cases ran
      refine ⟨⟨order, holds⟩, settled fun target mem => ?_⟩
      rw [here] at mem
      cases mem
    | false =>
      rw [matcher] at ran
      obtain ⟨held, awaits⟩ :=
        forM_notes comes (fun target mem => here ▸ mem) ⟨order, holds⟩ ran
      exact ⟨held, settled fun target mem => awaits target (here ▸ mem)⟩

end

end TempDirectory

end JavaMend
