import JavaMend.Proofs.Remedy.Entries
import JavaMend.Proofs.Remedy.Guarded
import JavaMend.Proofs.Remedy.Made
import JavaMend.Proofs.Tree.Members

/-!
# Class bodies stay class bodies

To the fixes a class body is a block like any other, so each remedy has to see to it that
what it writes next to a field is a member. Where the classes of a unit are in order,
they stay in order (`CatalogEntry.run_orderly`): the configuration of a factory that a
field holds goes into an initializer, random strings are drawn by a new method, and a
guard is never written next to a field, since a flow query does not follow a value through
the body of a class.

Cookies are the exception. The flag of a cookie is set right after its declaration, be it
a local or a field, so the fields that hold a new cookie are excluded.
-/

namespace JavaMend

/-! ## Fields -/

/-- The variable that an expression initializes holds it, and above the expression there is
nothing but parentheses up to the variable. -/
theorem Path.variableAround?_cases {e x : Expr} {above : List Node} {v : Variable}
    (genuine : GenuineList (.expr x :: above)) (inside : x.unparen = e.unparen)
    (found : variableAround? e above = some v) :
    ∃ between init rest, above = between ++ .var v :: rest ∧ (∀ n ∈ between, n.block? = none) ∧
      v.init = some init ∧ init.unparen = e.unparen ∧ init.unparen.same e = true := by
  induction above generalizing x with
  | nil => cases found
  | cons n above ih =>
    unfold variableAround? at found
    split at found
    next id ty inner _ heq =>
      cases heq
      obtain ⟨c, mem, same⟩ := List.mem_map.mp genuine.1
      cases same
      cases List.mem_singleton.mp mem
      have outside : Expr.unparen ⟨id, ty, .parens x⟩ = e.unparen := by
        rw [Expr.unparen]
        exact inside
      obtain ⟨between, init, rest, rfl, open_, held⟩ := ih genuine.2 outside found
      refine ⟨_ :: between, init, rest, rfl, fun n mem => ?_, held⟩
      rcases List.mem_cons.mp mem with rfl | mem
      · rfl
      · exact open_ n mem
    next v' _ heq =>
      cases heq
      split at found
      next same =>
        cases found
        have init : v.init = some x := by
          obtain ⟨init, mem, same⟩ := List.mem_map.mp genuine.1
          cases same
          exact Option.mem_toList.mp mem
        rw [init] at same
        exact ⟨[], x, above, rfl, fun n none => (List.not_mem_nil none).elim, init, inside, same⟩
      next => cases found
    next => cases found

/-- Going outward from a node that is no expression to a block of members, there is
nothing on the way but the declaration of a field. -/
theorem Path.field_of_genuine {n : Node} {between above : List Node} {b : Block}
    (genuine : GenuineList (n :: between ++ .block b :: above)) (plain : n.expr? = none)
    (open_ : ∀ m ∈ n :: between, m.block? = none) (members : ∀ s ∈ b.stmts, s.isMember = true) :
    (∃ s ∈ b.stmts, n = .stmt s) ∨
      ∃ s ∈ b.stmts, ∃ decl, s.declaration? = some decl ∧ ∃ v ∈ decl.vars, n = .var v := by
  induction between generalizing n with
  | nil =>
    obtain ⟨s, mem, same⟩ := List.mem_map.mp genuine.1
    exact .inl ⟨s, mem, same.symm⟩
  | cons parent between ih =>
    have up := ih genuine.2 (Node.expr?_of_child genuine.1 plain)
      fun m mem => open_ m (List.mem_cons_of_mem _ mem)
    have closed := open_ n List.mem_cons_self
    rcases up with ⟨s, mem, rfl⟩ | ⟨s, mem, decl, declares, v, -, rfl⟩
    · -- The only members whose parts are no blocks are fields.
      have child := genuine.1
      have member := members s mem
      obtain ⟨id, form⟩ := s
      cases form with
      | declare decl =>
        obtain ⟨v, inside, rfl⟩ := List.mem_map.mp child
        exact .inr ⟨_, mem, decl, rfl, v, inside, rfl⟩
      | method head body =>
        obtain ⟨body', -, rfl⟩ := List.mem_map.mp child
        cases closed
      | cls head body =>
        cases List.mem_singleton.mp child
        cases closed
      | block body =>
        cases List.mem_singleton.mp child
        cases closed
      | _ => cases member
    · obtain ⟨init, -, rfl⟩ := List.mem_map.mp genuine.1
      cases plain

/-- Nodes that are no blocks stand before the nearest block. -/
theorem Path.split_before_block {closed rest front up : List Node} {b : Block}
    (same : closed ++ rest = front ++ .block b :: up) (none : ∀ n ∈ closed, n.block? = none) :
    ∃ between, front = closed ++ between ∧ rest = between ++ .block b :: up := by
  rcases List.append_eq_append_iff.mp same with ⟨between, rfl, rest⟩ | ⟨tail, rfl, rest⟩
  · exact ⟨between, rfl, rest⟩
  · cases tail with
    | nil => exact ⟨[], by simp, rest.symm⟩
    | cons n tail =>
      obtain ⟨rfl, -⟩ := List.cons.inj rest
      cases none _ (List.mem_append_right _ List.mem_cons_self)

/-- An expression that initializes a variable, where the nearest block is a class body,
initializes a field. -/
theorem Path.mem_fieldInits {e : Expr} {above front up : List Node} {b : Block} {v : Variable}
    (genuine : GenuineList (.expr e :: above)) (split : .expr e :: above = front ++ .block b :: up)
    (open_ : ∀ n ∈ front, n.block? = none) (body : b.isClassBody = true)
    (found : (⟨.expr e :: above⟩ : Path).initialized? = some v) :
    ∃ init ∈ b.fieldInits, init.unparen = e.unparen ∧ init.unparen.same e = true := by
  obtain ⟨between, init, rest, rfl, closed, held, unwrapped, same⟩ :=
    variableAround?_cases genuine rfl found
  refine ⟨init, ?_, unwrapped, same⟩
  have before : ∀ n ∈ .expr e :: between, n.block? = none := by
    intro n mem
    rcases List.mem_cons.mp mem with rfl | mem
    · rfl
    · exact closed n mem
  obtain ⟨mid, rfl, after⟩ := split_before_block split before
  cases mid with
  | nil => cases after
  | cons n mid =>
    obtain ⟨rfl, rfl⟩ := List.cons.inj after
    have whole : GenuineList ((.expr e :: between) ++ .var v :: (mid ++ .block b :: up)) := genuine
    have outer : GenuineList (.var v :: mid ++ .block b :: up) := genuineList_right whole
    have members := (Block.isClassBody_iff.mp body).2
    rcases field_of_genuine outer rfl (fun m mem => open_ m (List.mem_append_right _ mem)) members
      with ⟨s, -, here⟩ | ⟨s, mem, decl, declares, v', inside, here⟩
    · cases here
    · cases here
      refine List.mem_flatMap.mpr ⟨s, mem, List.mem_filterMap.mpr ⟨v, ?_, held⟩⟩
      rw [declares]
      exact List.mem_flatMap.mpr ⟨decl, List.mem_cons_self, inside⟩

/-! ## Constructions in fields -/

/-- The body of a class that is no `static` initializer is not the body of a method or an
initializer. -/
theorem Path.startsWithBody_class {up : List Node} {b : Block} {owner : Node}
    (isClass : owner.class?.isSome) (static : b.isStatic = false) :
    startsWithBody (.block b :: owner :: up) = false := by
  have plain : (false || (b.isStatic || false)) = false := by rw [static]; rfl
  cases owner with
  | cls decl => exact plain
  | stmt s =>
    obtain ⟨id, form⟩ := s
    cases form with
    | cls head body => exact plain
    | _ => cases isClass
  | _ => cases isClass

/-- Going outward, the body of a class that is no `static` initializer is passed by. -/
theorem Path.outerBody?_go_class {front up : List Node} {b : Block} {owner : Node}
    (open_ : ∀ n ∈ front, n.block? = none) (isClass : owner.class?.isSome)
    (static : b.isStatic = false) :
    outerBody?.go (front ++ .block b :: owner :: up) = outerBody?.go (owner :: up) := by
  induction front with
  | nil =>
    rcases outerBody?_go_cons (.block b) (owner :: up) with ⟨starts, -⟩ | ⟨-, further⟩
    · rw [startsWithBody_class isClass static] at starts
      cases starts
    · exact further
  | cons n front ih =>
    rcases outerBody?_go_cons n (front ++ .block b :: owner :: up) with ⟨-, body, rfl, -⟩ |
      ⟨-, further⟩
    · cases open_ _ List.mem_cons_self
    · rw [List.cons_append, further]
      exact ih fun m mem => open_ m (List.mem_cons_of_mem _ mem)

/-- Where ids are distinct, an expression stands in one place. -/
theorem Node.copies_le_one {n : Node} {e : Expr} (distinct : (n.subtree.map Node.id).Nodup) :
    n.copies e ≤ 1 := by
  calc n.copies e ≤ n.subtree.countP (fun m => m.id == e.id) := by
        refine List.countP_mono_left fun m _ same => ?_
        exact beq_iff_eq.mpr (Node.id_of_same same)
    _ = (n.subtree.map Node.id).count e.id := by
        rw [List.count, List.countP_map]
        rfl
    _ ≤ 1 := List.nodup_iff_count_le_one.mp distinct e.id

/-- An expression stands at no more places of a node than of one above it. -/
theorem Path.copies_le_above {n m : Node} {front back : List Node} {e : Expr}
    (genuine : GenuineList (n :: front ++ m :: back)) : n.copies e ≤ m.copies e := by
  have whole : n :: front ++ m :: back = n :: (front ++ [m]) ++ back := by simp
  rw [whole] at genuine
  refine copies_le_of_genuine (genuineList_left genuine) ?_
  rw [← List.cons_append, List.getLast?_concat]

/-- A construction in a field of a class reaches the creation of no file: a flow query does
not go into the class. -/
theorem PathTraversal.Guarding.reachesSink_of_field {G : Regime} {env : PassEnv} {e : Expr}
    {above front up : List Node} {b : Block} {owner : Node} (drawn : Drawn 0 G.mark G.tree)
    (stands : G.Stands (.expr e) above)
    (split : .expr e :: above = front ++ .block b :: owner :: up)
    (open_ : ∀ n ∈ front, n.block? = none) (isClass : owner.class?.isSome)
    (static : b.isStatic = false) : reachesSink env ⟨.expr e :: above⟩ e = false := by
  refine reachesSink_eq_false rfl fun index body found => ?_
  have further : Path.outerBody?.go (owner :: up) = some (index, body) := by
    rw [← Path.outerBody?_go_class open_ isClass static, ← split]
    exact found
  have genuine := stands.genuine
  rw [split] at genuine
  have around : Path.GenuineList (owner :: up) := by
    have tail : front ++ .block b :: owner :: up = (front ++ [.block b]) ++ owner :: up := by simp
    rw [tail] at genuine
    exact Path.genuineList_right genuine
  obtain ⟨outer, genuineOuter, last, -⟩ := Path.outerBody?_go_around around further
  have once : (Node.block body).copies e ≤ 1 := by
    refine Node.copies_le_one ?_
    have inside := stands.body index body found
    rw [Node.parts_all] at inside
    rw [← Multiset.coe_nodup, ← Multiset.map_coe]
    exact Multiset.nodup_of_le (Multiset.map_le_map inside) drawn.distinct
  have here : 1 ≤ owner.copies e := by
    cases front with
    | nil => cases split
    | cons m front =>
      obtain rfl : .expr e = m := (List.cons.inj split).1
      have self : 1 ≤ (Node.expr e).copies e := by
        rw [Node.copies_eq, if_pos (Node.same_self _)]
        exact Nat.le_add_left _ _
      refine Nat.le_trans self (Path.copies_le_above (?_ :
        Path.GenuineList (.expr e :: (front ++ [.block b]) ++ owner :: up)))
      simpa using genuine
  have kind : owner.expr? = none := by
    cases owner <;> first | rfl | cases isClass
  exact FlowRun.idle_around kind genuineOuter last once here (FlowRun.idle_class isClass)

/-! ## The regime -/

/-- What a fix may write: statements without classes that are out of order, and only
members into the body of a class. -/
structure PendingFix.Orderly (bad : Expr → Bool) (path : List Node) (fix : PendingFix) : Prop where
  written : ∀ s ∈ fix.kind.written, (Node.stmt s).Orderly
  members : ∀ b above, path = .block b :: above → b.IsBodyBelow bad above →
    fix.kind.tag ≠ .guardAfter ∧ ∀ s ∈ fix.kind.written, s.isMember = true

/-- What a statement may become in the first of some nodes. -/
structure Segment.Orderly (bad : Expr → Bool) (path : List Node) (s : Stmt) (seg : Segment) :
    Prop where
  orderly : (Node.stmt s).Tidy bad → ∀ t ∈ seg.stmts, (Node.stmt t).Orderly
  members : ∀ b above, path = .block b :: above → b.IsBodyBelow bad above → s.isMember = true →
    ∀ t ∈ seg.stmts, t.isMember = true

/-- The regime under which classes stay in order. -/
def Regime.orderly (bad hidden : Expr → Bool) (tree : Multiset Node) (mark : NodeId) : Regime where
  hidden := hidden
  tree := tree
  mark := mark
  fits := PendingFix.Orderly bad
  became := Node.Kept bad
  segment := Segment.Orderly bad

/-- A statement in which expressions were replaced. -/
structure Stmt.Recast (s s' : Stmt) : Prop where
  orderly : (Node.stmt s).Orderly → (Node.stmt s').Orderly
  member : s'.isMember = s.isMember

theorem Stmt.Recast.of_kept {s s' : Stmt}
    (kept : Node.Kept (fun _ => false) [] (.stmt s) (.stmt s')) : s.Recast s' :=
  ⟨fun orderly => kept.orderly orderly.tidy, kept.member⟩

/-- A node that is rebuilt around children that are kept wherever they stand. -/
theorem Node.Kept.rebuilt (m m' : Node) (news : List Node) (refilled : m.Refilled m' news)
    (children : List.Forall₂ (fun c c' => ∀ above, Node.Kept (fun _ => false) above c c') m.children
      news) (above : List Node) : Node.Kept (fun _ => false) above m m' :=
  .refilled refilled (children.imp fun _ _ kept => kept (m :: above))

theorem Stmt.replaceExpr?_recast {s s' : Stmt} {target new : Expr} {next used : NodeId}
    (coherent : (Node.stmt s).Coherent)
    (only : ∀ m ∈ (Node.stmt s).subtree, m.same (.expr target) = true → m = .expr target)
    (h : s.replaceExpr? target new next = (some s', used)) : s.Recast s' :=
  .of_kept <| Node.replaceExpr?_keeps (fun m above => .self _ above m)
    (fun m m' news _ => Node.Kept.rebuilt m m' news) (fun _ => .expr target new) coherent only
    (Nat.zero_le _) (Stmt.replaceExpr?_node h) []

theorem Stmt.replaceAlike?_recast {s s' : Stmt} {target new : Expr} {next used : NodeId}
    (h : s.replaceAlike? target new next = (some s', used)) : s.Recast s' :=
  .of_kept <| Node.replaceAlike?_keeps (fun m above => .self _ above m) Node.Kept.rebuilt
    (fun e _ _ => .expr e new) (Stmt.replaceAlike?_node h) []

namespace Regime

variable {bad hidden : Expr → Bool} {tree : Multiset Node} {mark : NodeId}

/-- There is no class in a declaration. -/
theorem orderly_declare {modifiers : List Modifier} {ty : Ty} {name : String} {init : Expr}
    {next used : NodeId} {declaration : Stmt}
    (made : Stmt.mkDeclare modifiers ty name (some init) next = (declaration, used)) :
    (Node.stmt declaration).Orderly ∧ declaration.isMember = true := by
  cases made
  refine ⟨Node.orderly_of_children rfl fun c mem => ?_, rfl⟩
  cases List.mem_singleton.mp mem
  refine Node.orderly_of_children rfl fun c mem => ?_
  cases List.mem_singleton.mp mem
  exact Node.orderly_expr init

/-- There is no class in a guard. -/
theorem orderly_guard {variant : GuardVariant} {thrown : ThrownException} {message : String}
    {tainted parent : Expr} {next used : NodeId} {guard : Stmt}
    (made : mkGuard variant thrown message tainted parent next = (guard, used)) :
    (Node.stmt guard).Orderly := by
  cases made
  refine Node.orderly_of_children rfl fun c mem => ?_
  rcases List.mem_cons.mp mem with rfl | mem
  · exact Node.orderly_expr _
  · cases List.mem_singleton.mp mem
    refine Node.orderly_of_children rfl fun c mem => ?_
    cases List.mem_singleton.mp mem
    refine Node.orderly_block fun s mem => ?_
    cases List.mem_singleton.mp mem
    refine Node.orderly_of_children rfl fun c mem => ?_
    cases List.mem_singleton.mp mem
    exact Node.orderly_expr _

/-- Applying a fix keeps what a statement becomes in order. -/
theorem segment_orderly {path : List Node} {fix : PendingFix} {front back before after : List Stmt}
    {core : Stmt} {core' : Option Stmt} {next used : NodeId} (fits : fix.Orderly bad path)
    (kept : Segment.Orderly bad path fix.anchor ⟨front, some core, back⟩)
    (step : FixStep next used fix core before core' after)
    (replaces : fix.kind.tag = .replace → (Node.stmt core).Coherent ∧
      ∀ m ∈ (Node.stmt core).subtree, m.same (.expr fix.tainted) = true → m = .expr fix.tainted) :
    Segment.Orderly bad path fix.anchor ⟨front ++ before, core', after ++ back⟩ := by
  -- What is new in the segment is made of the statement that was there, or has no classes.
  have new : ∀ t ∈ before ++ core'.toList ++ after, core.Recast t ∨ (Node.stmt t).Orderly ∧
      (t.isMember = true ∨ t ∈ fix.kind.written ∨ fix.kind.tag = .guardAfter) := by
    have same : core.Recast core := ⟨fun h => h, rfl⟩
    cases step with
    | extract kind above below hread hchanged hdeclaration =>
      intro t mem
      simp only [Option.toList, List.append_nil, List.mem_append, List.mem_singleton] at mem
      rcases mem with rfl | rfl
      · obtain ⟨orderly, member⟩ := orderly_declare hdeclaration
        exact .inr ⟨orderly, .inl member⟩
      · exact .inl (Stmt.replaceAlike?_recast hchanged)
    | guardAfter kind hparent above below hguard =>
      intro t mem
      simp only [Option.toList, List.nil_append, List.mem_append, List.mem_singleton] at mem
      rcases mem with rfl | rfl
      · exact .inl same
      · exact .inr ⟨orderly_guard hguard, .inr (.inr (by rw [kind]; rfl))⟩
    | replace kind below hchanged =>
      intro t mem
      cases List.mem_singleton.mp mem
      obtain ⟨coherent, only⟩ := replaces (by rw [kind]; rfl)
      exact .inl (Stmt.replaceExpr?_recast coherent only hchanged)
    | insertAfter kind =>
      intro t mem
      rcases List.mem_append.mp mem with mem | mem
      · cases List.mem_singleton.mp mem
        exact .inl same
      · have written : t ∈ fix.kind.written := by rw [kind]; exact mem
        exact .inr ⟨fits.written t written, .inr (.inl written)⟩
    | insertBefore kind =>
      intro t mem
      rw [List.append_nil] at mem
      rcases List.mem_append.mp mem with mem | mem
      · have written : t ∈ fix.kind.written := by rw [kind]; exact mem
        exact .inr ⟨fits.written t written, .inr (.inl written)⟩
      · cases List.mem_singleton.mp mem
        exact .inl same
    | remove kind =>
      intro t none
      cases none
  have core_mem : core ∈ Segment.stmts ⟨front, some core, back⟩ := by simp [Segment.stmts]
  refine ⟨fun tidy t mem => ?_, fun b above at_ body member t mem => ?_⟩
  · rcases Segment.mem_stmts_of_step mem with mem | mem
    · exact kept.orderly tidy t mem
    · rcases new t mem with recast | ⟨orderly, -⟩
      · exact recast.orderly (kept.orderly tidy core core_mem)
      · exact orderly
  · rcases Segment.mem_stmts_of_step mem with mem | mem
    · exact kept.members b above at_ body member t mem
    · obtain ⟨noGuard, written⟩ := fits.members b above at_ body
      rcases new t mem with recast | ⟨-, isMember | isWritten | isGuard⟩
      · rw [recast.member]
        exact kept.members b above at_ body member core core_mem
      · exact isMember
      · exact written t isWritten
      · exact (noGuard isGuard).elim

theorem orderly_lawful (drawn : Drawn 0 mark tree) : (orderly bad hidden tree mark).Lawful where
  drawn := drawn
  became_self above n := .self bad above n
  became_refilled _ _ _ _ refilled children :=
    .refilled refilled (children.imp fun _ _ became => became.became)
  segment_visited b above s s' mem became := by
    have kept : Node.Kept bad (.block b :: above) (.stmt s) (.stmt s') := became.became
    refine ⟨fun tidy t here => ?_, fun _ _ _ _ member t here => ?_⟩
    · cases List.mem_singleton.mp here
      exact kept.orderly tidy
    · cases List.mem_singleton.mp here
      have same : s'.isMember = s.isMember := kept.member
      rw [same]
      exact member
  segment_step _ _ _ _ _ _ _ _ _ _ anchored kept _ step replaces :=
    segment_orderly anchored.fits kept step replaces
  became_repaired b out above parts anchors static stmts segments := by
    have of_mem {t : Stmt} (mem : t ∈ out.stmts) : ∃ s ∈ b.stmts, ∃ seg : Segment, t ∈ seg.stmts ∧
        Segment.Orderly bad (.block b :: above) s seg := by
      rw [stmts] at mem
      obtain ⟨p, inside, mem⟩ := List.mem_flatMap.mp mem
      exact ⟨p.1, anchors ▸ List.mem_map_of_mem inside, p.2, mem, segments p inside⟩
    refine ⟨fun tidy => Node.orderly_block fun t mem => ?_, rfl, fun b₁ b₂ here here' body => ?_⟩
    · obtain ⟨s, inside, seg, mem, kept⟩ := of_mem mem
      exact kept.orderly (tidy.child (List.mem_map_of_mem inside)) t mem
    · cases here
      cases here'
      obtain ⟨owner, up, head, at_, isClass, tidy⟩ := body
      obtain ⟨plain, members⟩ := Block.isClassBody_iff.mp (tidy.self _ isClass).1
      refine Block.isClassBody_iff.mpr ⟨static.trans plain, fun t mem => ?_⟩
      obtain ⟨s, inside, seg, mem, kept⟩ := of_mem mem
      exact kept.members b above rfl ⟨owner, up, head, at_, isClass, tidy⟩ (members s inside) t mem

end Regime

/-! ## Fixes that fit -/

section

variable {bad hidden : Expr → Bool} {tree : Multiset Node} {mark : NodeId} {path : List Node}
  {fix : PendingFix}

/-- A fix that writes no statements and is no guard. -/
theorem PendingFix.Orderly.plain (nothing : fix.kind.written = []) (noGuard : fix.kind.tag ≠ .guardAfter) :
    fix.Orderly bad path where
  written s mem := by
    rw [nothing] at mem
    cases mem
  members b above _ _ := by
    refine ⟨noGuard, fun s mem => ?_⟩
    rw [nothing] at mem
    cases mem

theorem Regime.fitsNear_replace {anchor : Stmt} {tainted new : Expr} {imports : List String} :
    (orderly bad hidden tree mark).FitsNear path ⟨anchor, tainted, none, .replace new imports⟩ :=
  fun _ _ _ _ _ => PendingFix.Orderly.plain rfl FixTag.noConfusion

/-- A fix that writes members fits anywhere. -/
theorem PendingFix.Orderly.of_members (sound : ∀ s ∈ fix.kind.written, s.Sound fun _ => True)
    (members : ∀ s ∈ fix.kind.written, s.isMember = true) (noGuard : fix.kind.tag ≠ .guardAfter) :
    fix.Orderly bad path where
  written s mem := Node.orderly_of_sound (sound s mem)
  members _ _ _ _ := ⟨noGuard, members⟩

/-- The body of a class has an owner. -/
theorem Path.bodyOwner?_of_class {b : Block} {above : List Node} (body : b.IsBodyBelow bad above) :
    (⟨.block b :: above⟩ : Path).bodyOwner? ≠ none := by
  obtain ⟨owner, up, head, rfl, isClass, -⟩ := body
  simp [bodyOwner?, parent?, isClass]

/-- The configuration of a factory goes into an initializer if a field holds the factory. -/
theorem Factory.fits_orderly {b : Block} {above : List Node} {f : Factory} {last : Option Stmt}
    {stmts : List Stmt} (sound : ∀ s ∈ stmts, s.Sound fun _ => True) :
    f.Fits (.orderly bad hidden tree mark) (.block b :: above)
      (⟨.block b :: above⟩ : Path).bodyOwner? last stmts := by
  cases owner : (⟨.block b :: above⟩ : Path).bodyOwner? with
  | some ty =>
    intro next
    refine PendingFix.Orderly.of_members (fun s mem => ?_) (fun s mem => ?_) FixTag.noConfusion
    · cases List.mem_singleton.mp mem
      exact mkFieldInitializer_sound sound next
    · cases List.mem_singleton.mp mem
      rfl
  | none =>
    refine ⟨fun s mem => Node.orderly_of_sound (sound s mem), fun b' above' at_ body => ?_⟩
    cases at_
    exact (Path.bodyOwner?_of_class body owner).elim

/-- What is in the parentheses around an expression of the tree is the expression. -/
theorem Regime.Stands.unparen_eq {G : Regime} {e init : Expr} {above : List Node}
    (stands : G.Stands (.expr e) above) (drawn : Drawn 0 G.mark G.tree)
    (unwrapped : init.unparen = e.unparen) (same : init.unparen.same e = true) : init.unparen = e := by
  have ids := Node.id_of_same (show (Node.expr init.unparen).same (.expr e) = true from same)
  rw [unwrapped] at ids ⊢
  refine Node.expr.inj (Multiset.inj_on_of_nodup_map drawn.distinct _ ?_ _ ?_ ids)
  · exact stands.mem_tree (TempDirectory.mem_subtree_unparen e)
  · exact stands.mem_tree Node.mem_subtree_self

/-- Setting the flag of a cookie fits, unless a field holds the cookie. -/
theorem Cookie.fits_orderly {matcher : CallMatcher} {e : Expr} {above : List Node} {v : Variable}
    {anchor : Stmt} {next : NodeId} (drawn : Drawn 0 mark tree)
    (stands : (Regime.orderly (matcher.acceptsAny · creation) hidden tree mark).Stands (.expr e) above)
    (new : matcher.acceptsAny e creation = true)
    (initialized : (⟨.expr e :: above⟩ : Path).initialized? = some v) :
    (Regime.orderly (matcher.acceptsAny · creation) hidden tree mark).FitsNear (.expr e :: above)
      ⟨anchor, e, none, .insertAfter [(mkEnable v next).1]⟩ := by
  intro front b up split open_
  refine ⟨fun s mem => ?_, fun b' above' at_ body => ?_⟩
  · cases List.mem_singleton.mp mem
    have sound : (mkEnable v).Gives (Stmt.Sound fun _ => True) := mkEnable_sound v
    exact Node.orderly_of_sound (sound next)
  · cases at_
    obtain ⟨owner, up, head, rfl, isClass, tidy⟩ := body
    obtain ⟨classBody, fields⟩ := tidy.self _ isClass
    obtain ⟨init, mem, unwrapped, same⟩ :=
      Path.mem_fieldInits stands.genuine split open_ classBody initialized
    have refused : matcher.acceptsAny init.unparen creation = false := fields init mem
    rw [stands.unparen_eq drawn unwrapped same, new] at refused
    cases refused

namespace PathTraversal

/-- A fix for a construction fits: a guard is not written next to a field. -/
theorem Guarding.fits_orderly {env : PassEnv} {settings : PathSettings} {e parent : Expr}
    {above : List Node} {anchor : Stmt} {next : NodeId} {tainted : Expr} {directory : Option Expr}
    {kind : FixKind} (drawn : Drawn 0 mark tree)
    (stands : (Regime.orderly bad hidden tree mark).Stands (.expr e) above)
    (reaches : reachesSink env ⟨.expr e :: above⟩ e = true)
    (made : (fixFor? settings ⟨.expr e :: above⟩ e parent next).1 = some (tainted, directory, kind)) :
    (Regime.orderly bad hidden tree mark).FitsNear (.expr e :: above)
      ⟨anchor, tainted, directory, kind⟩ := by
  intro front b up split open_
  rcases fixFor?_cases made with ⟨v, variant, -, -, -, -, rfl⟩ | ⟨-, -, -, ending, rfl⟩
  · refine ⟨fun s none => (List.not_mem_nil none).elim, fun b' above' at_ body => ?_⟩
    cases at_
    obtain ⟨owner, up, head, rfl, isClass, tidy⟩ := body
    have static := (Block.isClassBody_iff.mp (tidy.self _ isClass).1).1
    have misses : reachesSink env ⟨.expr e :: above⟩ e = false :=
      reachesSink_of_field drawn stands split open_ (isClass ▸ rfl) static
    rw [misses] at reaches
    cases reaches
  · exact PendingFix.Orderly.plain rfl FixTag.noConfusion

theorem treats_orderly (env : PassEnv) (settings : PathSettings) :
    Treats (.orderly (fun _ => false) hidden tree mark)
      (fun _ => .orderly (fun _ => false) hidden tree mark)
      (.orderly (fun _ => false) hidden tree mark) (.orderly (fun _ => false) hidden tree mark) env
      settings where
  lawful_complete _ _ drawn := Regime.orderly_lawful drawn
  lawful_split _ _ _ drawn := Regime.orderly_lawful drawn
  lawful _ _ _ drawn := Regime.orderly_lawful drawn
  completes _ _ _ := PartialPath.notes (fun _ => rfl) fun _ _ _ _ _ _ _ _ => Regime.fitsNear_replace
  splits _ _ _ := Normalize.notes (fun _ => rfl) fun _ _ _ _ _ _ _ _ _ => Regime.fitsNear_replace
  guards _ _ _ drawn := Guarding.notes newRead_covers
    fun _ _ _ _ _ _ _ _ _ stands _ _ reaches made => Guarding.fits_orderly drawn stands reaches made
  completed _ _ _ _ kept := kept
  guarded block above above' split out body _ first second := by
    have first : Node.Kept (fun _ => false) above (.block block) (.block split) := first
    have second : Node.Kept (fun _ => false) above' (.block split) (.block out) := second
    refine ⟨fun tidy => second.orderly (first.orderly tidy).tidy, rfl, fun b b' here _ isBody => ?_⟩
    cases here
    obtain ⟨owner, up, head, rfl, isClass, tidy⟩ := isBody
    have static := (Block.isClassBody_iff.mp (tidy.self _ isClass).1).1
    rw [Path.startsWithBody_class (isClass ▸ rfl) static] at body
    cases body

end PathTraversal

/-- The initializers of fields after which the remediation writes a statement. -/
def Remediation.misplaces (matcher : CallMatcher) : Remediation → Expr → Bool
  | cookieSecure => (matcher.acceptsAny · Cookie.creation)
  | _ => fun _ => false

theorem Remediation.supports_orderly {r : Remediation} {env : PassEnv} (drawn : Drawn 0 mark tree)
    (id : String) :
    (Regime.orderly (r.misplaces env.matcher) (r.repeats mark) tree mark).Supports
      (fun _ => .orderly (r.misplaces env.matcher) (r.repeats mark) tree mark)
      (.orderly (r.misplaces env.matcher) (r.repeats mark) tree mark)
      (.orderly (r.misplaces env.matcher) (r.repeats mark) tree mark) env id r := by
  cases r with
  | pathTraversal => exact ⟨rfl, PathTraversal.treats_orderly env⟩
  | cookieSecure =>
    exact Cookie.notes (fun _ => rfl)
      (fun e above v anchor next stands new initialized _ =>
        Cookie.fits_orderly drawn stands new initialized)
      fun _ _ _ _ _ _ _ => Regime.fitsNear_replace
  | secureRandom => exact Random.notes (fun _ => rfl) fun _ _ _ _ _ _ => Regime.fitsNear_replace
  | secureRandomSeed =>
    exact Seed.notes fun _ _ _ _ _ _ => PendingFix.Orderly.plain rfl FixTag.noConfusion
  | xmlInputFactory =>
    exact fun _ => XmlInput.notes fun _ _ _ _ _ next _ _ _ =>
      Factory.fits_orderly (XmlInput.mkSettings_sound _ _ _ trivial next)
  | documentBuilderFactory =>
    exact fun _ => DocumentBuilder.notes fun _ _ _ _ _ _ _ next _ _ _ =>
      Factory.fits_orderly (DocumentBuilder.mkSettings_sound _ _ _ _ _ _ trivial trivial trivial
        (fun _ => trivial) next)
  | transformerFactory =>
    exact Transformer.notes fun _ _ _ _ _ next _ _ _ =>
      Factory.fits_orderly (Transformer.mkSettings_sound _ _ _ trivial next)
  | secureTempFile =>
    exact TempFile.notes (fun _ => rfl) fun _ _ _ _ _ _ _ _ _ => Regime.fitsNear_replace
  | tempDirectory =>
    exact TempDirectory.notes (fun _ => rfl)
      (fun _ _ _ _ _ _ _ _ => PendingFix.Orderly.plain rfl FixTag.noConfusion)
      fun _ _ _ _ _ => PendingFix.Orderly.plain rfl FixTag.noConfusion
  | randomStringUtils =>
    refine RandomString.notes (fun _ => rfl) (fun _ _ _ _ _ _ _ => Regime.fitsNear_replace) ?_ ?_
      fun _ _ _ _ _ _ => PendingFix.Orderly.plain rfl FixTag.noConfusion
    · intro b above owner anchor call next owns
      refine PendingFix.Orderly.of_members (RandomString.mkHead_sound owner trivial next) ?_
        FixTag.noConfusion
      exact List.forall_mem_cons.mpr ⟨rfl, List.forall_mem_cons.mpr ⟨rfl,
        List.forall_mem_singleton.mpr rfl⟩⟩
    · intro b above owner anchor call utils next owns
      exact PendingFix.Orderly.of_members (List.forall_mem_singleton.mpr
        (RandomString.mkMethod_sound owner trivial next)) (List.forall_mem_singleton.mpr rfl)
        FixTag.noConfusion
  | privilegedCode => exact Privileged.notes id

end

/-- The expressions that initialize the fields of the classes below a node. -/
def Node.fieldInits (n : Node) : List Expr :=
  n.subtree.flatMap fun m => m.class?.toList.flatMap (·.2.fieldInits)

/-- Every pass of the built-in catalog succeeds and leaves only members in the bodies of
classes, if there were only members and if no field holds a new cookie when cookies are
treated. -/
theorem CatalogEntry.run_orderly [GlobCompiler] {entry : CatalogEntry}
    (builtin : entry ∈ Catalog.builtin.entries)
    {settings : RemediationSettings} (valid : settings.validate = .ok ()) {env : PassEnv}
    (standard : env.splicer = .standard) {unit : CompilationUnit} {next : NodeId}
    (distinct : ((Node.unit unit).subtree.map Node.id).Nodup)
    (old : ∀ n ∈ (Node.unit unit).subtree, n.id < next) (orderly : (Node.unit unit).Orderly)
    (fields : ∀ init ∈ (Node.unit unit).fieldInits,
      entry.remediation.misplaces env.matcher init.unparen = false) :
    ∃ out used, entry.run settings env unit next = (.ok out, used) ∧
      (Node.unit out.unit).Orderly := by
  have drawn := Drawn.of_distinct distinct old
  obtain ⟨out, used, ran, -, changed, kept, classes⟩ := run_mends standard
    (Regime.orderly_lawful drawn) rfl builtin valid
    (Remediation.supports_orderly drawn entry.id)
  have kept : Node.Kept (entry.remediation.misplaces env.matcher) [] (.unit unit) (.unit changed) := kept
  have tidy : (Node.unit unit).Tidy (entry.remediation.misplaces env.matcher) := by
    intro m mem c isClass
    refine ⟨orderly m mem c isClass, fun init inside => fields init ?_⟩
    refine List.mem_flatMap.mpr ⟨m, mem, List.mem_flatMap.mpr ⟨c, ?_, inside⟩⟩
    exact Option.mem_toList.mpr isClass
  refine ⟨out, used, ran, Node.orderly_of_children rfl fun c mem => ?_⟩
  refine (kept.orderly tidy).child (?_ : c ∈ (Node.unit changed).children)
  have same : (Node.unit out.unit).children = (Node.unit changed).children := by
    show out.unit.classes.map Node.cls = changed.classes.map Node.cls
    rw [classes]
  exact same ▸ mem

section

attribute [local instance] GlobCompiler.standard

/-- A class with a field and a method that makes a cookie:
`int n = 0; void m() { Cookie c = new Cookie("a", "b"); }` -/
theorem run_orderly_cookie :
    let text (id : NodeId) (value : String) : Expr := ⟨id, .string, .literal (.string value)⟩
    let field : Stmt := ⟨3, .declare ⟨[], "int", [⟨4, "n", .int, some ⟨5, .int, .literal (.int 0)⟩⟩]⟩⟩
    let cookie : Expr :=
      ⟨10, .known Fqn.cookie, .create "Cookie" [text 11 "a", text 12 "b"] (some Jdk.cookie)⟩
    let local_ : Stmt := ⟨8, .declare ⟨[], "Cookie", [⟨9, "c", .known Fqn.cookie, some cookie⟩]⟩⟩
    let method : Stmt := ⟨6, .method ⟨[], some "void", "m", [], []⟩ (some ⟨7, false, [local_]⟩)⟩
    let unit : CompilationUnit :=
      ⟨0, none, [], [⟨1, ⟨[], "A", .known "A"⟩, ⟨2, false, [field, method]⟩⟩]⟩
    (Node.unit unit).Orderly ∧ ∀ entry ∈ Catalog.builtin.get? "cookie-secure", ∃ out used,
      entry.run (.ofPreset .balanced) ⟨.standard, ⟨64, 8⟩, .standard⟩ unit 13 = (.ok out, used) ∧
        (Node.unit out.unit).Orderly := by
  intro text field cookie local_ method unit
  have orderly : (Node.unit unit).Orderly := by decide +kernel
  refine ⟨orderly, fun entry found => ?_⟩
  obtain ⟨builtin, cookies⟩ : entry ∈ Catalog.builtin.entries ∧
      entry.remediation = .cookieSecure := by
    cases found
    exact ⟨by decide +kernel, rfl⟩
  exact CatalogEntry.run_orderly builtin
    (by decide +kernel : (RemediationSettings.ofPreset .balanced).validate = .ok ())
    (rfl : PassEnv.splicer ⟨.standard, ⟨64, 8⟩, .standard⟩ = .standard)
    (by decide +kernel : ((Node.unit unit).subtree.map Node.id).Nodup)
    (by decide +kernel : ∀ n ∈ (Node.unit unit).subtree, n.id < 13) orderly
    (by rw [cookies]; decide +kernel)

end

end JavaMend
