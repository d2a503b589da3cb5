import JavaMend.Proofs.Patch.Scoping
import JavaMend.Proofs.Remedy.Guarded
import JavaMend.Proofs.Remedy.Mending
import JavaMend.Proofs.Remedy.Shedding

/-!
# Repairs that protect

A repair whose fixes are extractions and guards makes a block out of which both can be taken
again, one after the other, until the block is left that the repair began with
(`Repair.Shields`).

An extraction is undone by reading its name, so it must not catch reads that were there
before. Its name is none that is declared in the block or around it. So nothing in the block
reads it, provided that whatever the block reads under a name with the stem of extractions is
declared in one of these places (`Block.Knows`). What the fixes add reads no more than the
block did and the locals that they declare.
-/

namespace JavaMend

/-! ## What fixes write -/

namespace GuardVariant

variable (variant : GuardVariant) (path directory : Expr) (next : NodeId)

/-- A check asks whether one path starts with another. -/
theorem check_contains : ∃ id ty receiver method args m,
    (variant.check path directory next).1 = ⟨id, ty, .call receiver method args (some m)⟩ ∧
      PathTraversal.Guarding.pathStartsWith.any (·.accepts m) = true := by
  cases variant with
  | fileInString =>
    exact ⟨_, _, _, _, _, Jdk.pathStartsWithString, rfl, startsWith_contains (by simp)⟩
  | _ => exact ⟨_, _, _, _, _, Jdk.pathStartsWithPath, rfl, startsWith_contains (by simp)⟩

/-- A check reads what its operands read. -/
theorem localReads_check :
    (variant.check path directory next).1.localReads = path.localReads ++ directory.localReads := by
  have call (id : NodeId) (ty : Ty) (receiver argument : Expr) (method : String)
      (m : Option MethodRef) :
      (⟨id, ty, .call (some receiver) method [argument] m⟩ : Expr).localReads =
        receiver.localReads ++ argument.localReads := by
    rw [Expr.localReads_eq]
    simp [Expr.localName?, Expr.children, ExprForm.children]
  cases variant with
  | fileInFile =>
    refine (call _ _ _ _ _ _).trans (congrArg₂ (· ++ ·) ?_ ?_)
    · exact Expr.localReads_called.trans Expr.localReads_called
    · exact Expr.localReads_called.trans Expr.localReads_called
  | fileInString =>
    refine (call _ _ _ _ _ _).trans (congrArg (· ++ directory.localReads) ?_)
    exact Expr.localReads_called.trans Expr.localReads_called
  | pathInPath =>
    exact (call _ _ _ _ _ _).trans (congrArg₂ (· ++ ·) Expr.localReads_called Expr.localReads_called)

end GuardVariant

/-- A guard checks, and reads what its operands read. -/
theorem mkGuard_guards {variant : GuardVariant} {thrown : ThrownException} {message : String}
    {tainted parent : Expr} {guard : Stmt} {next used : NodeId}
    (made : mkGuard variant thrown message tainted parent next = (guard, used)) :
    guard.isContainmentGuard = true ∧
      (Node.stmt guard).localReads = tainted.localReads ++ parent.localReads := by
  obtain ⟨path, next₁, run₁, -, pathCopied⟩ := tainted.freshCopy_copies next
  obtain ⟨directory, next₂, run₂, -, directoryCopied⟩ := parent.freshCopy_copies next₁
  have reads := variant.localReads_check path directory next₂
  obtain ⟨id, ty, receiver, method, args, m, check, accepted⟩ :=
    variant.check_contains path directory next₂
  unfold mkGuard at made
  rw [Fresh.bind_of_eq run₁, Fresh.bind_of_eq run₂,
    Fresh.bind_of_eq (Prod.mk.eta (p := variant.check path directory next₂)).symm] at made
  rw [check] at made reads
  rw [pathCopied.reads, directoryCopied.reads] at reads
  cases made
  refine ⟨accepted, ?_⟩
  rw [← reads]
  have stmt (s : Stmt) : (Node.stmt s).localReads = (Node.stmt s).children.flatMap Node.localReads :=
    Node.localReads_of_plain rfl
  have block (b : Block) :
      (Node.block b).localReads = (Node.block b).children.flatMap Node.localReads :=
    Node.localReads_of_plain rfl
  simp [stmt, block, Node.children, Stmt.children, Node.localReads_expr, Expr.localReads_eq,
    Expr.localName?, Expr.children, ExprForm.children]

/-- A statement that declares one local declares its name and reads what its value reads. -/
theorem Stmt.localReads_declare {stmt : Stmt} {modifiers : List Modifier} {typeName : String}
    {v : Variable} {value : Expr} (form : stmt.form = .declare ⟨modifiers, typeName, [v]⟩)
    (init : v.init = some value) :
    (Node.stmt stmt).localReads = value.localReads ∧ v.name ∈ (Node.stmt stmt).declaredNames := by
  refine ⟨?_, Node.declares_subset _ ?_⟩
  · obtain ⟨id, _⟩ := stmt
    cases form
    rw [Node.localReads_of_plain rfl]
    show (Node.var v).localReads ++ [] = _
    rw [Node.localReads_of_plain rfl, List.append_nil]
    simp [Node.children, init, Node.localReads_expr]
  · show v.name ∈ stmt.declaredNames
    rw [Stmt.declaredNames, form]
    exact List.mem_singleton_self _

/-! ## Fixes -/

/-- A fix that protects: an extraction under a name with the stem, or a guard that reads no more
than the block at which it waits reads or declares. -/
inductive PendingFix.Protects (stem : String) : List Node → PendingFix → Prop where
  | extract {path : List Node} {fix : PendingFix} {ending : String}
      (kind : fix.kind = .extract (stem ++ ending)) : Protects stem path fix
  | guard {b : Block} {above : List Node} {fix : PendingFix} {variant : GuardVariant}
      {message : String} (kind : fix.kind = .guardAfter variant message)
      (reads : ∀ e, e = fix.tainted ∨ fix.parent = some e → ∀ x ∈ e.localReads,
        x ∈ (Node.block b).localReads ∨ x ∈ (Node.block b).declaredNames) :
      Protects stem (.block b :: above) fix

/-- The regime of visits that note such fixes. -/
def Regime.protecting (stem : String) (hidden : Expr → Bool) (tree : Multiset Node) (mark : NodeId) :
    Regime where
  hidden := hidden
  tree := tree
  mark := mark
  fits := PendingFix.Protects stem
  became _ _ _ := True
  segment _ _ _ := True

theorem Regime.protecting_lawful {stem : String} {hidden : Expr → Bool} {tree : Multiset Node}
    {mark : NodeId} (drawn : Drawn 0 mark tree) : (protecting stem hidden tree mark).Lawful where
  drawn := drawn
  became_self _ _ := trivial
  became_refilled _ _ _ _ _ _ := trivial
  segment_visited _ _ _ _ _ _ := trivial
  segment_step _ _ _ _ _ _ _ _ _ _ _ _ _ _ _ := trivial
  became_repaired _ _ _ _ _ _ _ _ := trivial

/-! ## Repairs -/

/-- A block as it was and as it is: what was added can be taken out again, what was declared
still is, and only what is declared now is read besides what was read. -/
structure Node.Shields (before after : Node) : Prop where
  sheds : after = before ∨ after.Sheds before
  declares : before.declaredNames ⊆ after.declaredNames
  reads : ∀ x ∈ after.localReads, x ∈ before.localReads ∨ x ∈ after.declaredNames

theorem Node.Shields.refl (n : Node) : n.Shields n :=
  ⟨.inl rfl, List.Subset.refl _, fun _ => .inl⟩

theorem Node.Shields.trans {a b c : Node} (first : a.Shields b) (second : b.Shields c) :
    a.Shields c where
  sheds := by
    rcases second.sheds with rfl | later
    · exact first.sheds
    · exact .inr (first.sheds.elim (fun same => same ▸ later) later.trans)
  declares := List.Subset.trans first.declares second.declares
  reads x mem := by
    rcases second.reads x mem with earlier | declared
    · exact (first.reads x earlier).imp_right fun declared => second.declares declared
    · exact .inr declared

namespace Repair

section

variable {σ : Type} {c c' : Repair} {before : Block} {above : List Node} {front back : List Stmt}
  {core : Stmt} {site site' : Site Note σ} {stem : String}

/-- Writing a guard that reads no more than the block did at first. -/
theorem shields_guard {variant : GuardVariant} {message : String} {tainted parent : Expr}
    (shields : (Node.block before).Shields (.block c.block))
    (split : c.block.stmts = front ++ core :: back) (first : core.id ∉ front.map (·.id))
    (reads : ∀ e, e = tainted ∨ e = parent → ∀ x ∈ e.localReads,
      x ∈ (Node.block before).localReads ∨ x ∈ (Node.block before).declaredNames)
    (ran : c.guardAfter .standard core tainted parent variant message site = .ok c' site') :
    c'.path = c.path ∧ (Node.block before).Shields (.block c'.block) := by
  obtain ⟨start, thrown, guard, built, -, made, rfl, -⟩ := ok_of_guardAfter split first ran
  obtain ⟨guards, operands⟩ := mkGuard_guards made
  have stmts {s : Stmt} : s ∈ front ++ [core, guard] ++ back ↔ s ∈ c.block.stmts ∨ s = guard := by
    rw [split]
    simp only [List.mem_append, List.mem_cons, List.not_mem_nil, or_false]
    tauto
  have kept : (Node.block c.block).declaredNames ⊆
      (Node.block ⟨built, c.block.isStatic, front ++ [core, guard] ++ back⟩).declaredNames := by
    intro x declared
    obtain ⟨s, mem, declared⟩ := Node.mem_declaredNames_block.mp declared
    exact Node.mem_declaredNames_block.mpr ⟨s, stmts.mpr (.inl mem), declared⟩
  have before : front ++ [core, guard] ++ back = (front ++ [core]) ++ guard :: back := by simp
  have after : c.block.stmts = (front ++ [core]) ++ back := by simp [split]
  have sheds : (Node.block ⟨built, c.block.isStatic, front ++ [core, guard] ++ back⟩).Sheds
      (.block c.block) :=
    .single (.guard rfl guards before after)
  refine ⟨rfl, .inr ?_, List.Subset.trans shields.declares kept, fun x mem => ?_⟩
  · exact shields.sheds.elim (fun same => same ▸ sheds) sheds.trans
  · obtain ⟨s, inside, mem⟩ := Node.mem_localReads_block.mp mem
    rcases stmts.mp inside with inside | same
    · have before := shields.reads x (Node.mem_localReads_block.mpr ⟨s, inside, mem⟩)
      exact before.imp_right fun declared => kept declared
    · rw [same, operands, List.mem_append] at mem
      refine Or.imp_right (fun declared => kept (shields.declares declared)) ?_
      exact mem.elim (reads tainted (.inl rfl) x) (reads parent (.inr rfl) x)

/-- Moving an expression of a statement into a local of a name that the block neither reads nor
declares. -/
theorem shields_declare {tainted read : Expr} {name : String} {changed declaration : Stmt}
    {named replaced declared : NodeId} (split : c.block.stmts = front ++ core :: back)
    (below : .expr tainted ∈ (Node.stmt core).subtree)
    (unread : name ∉ (Node.block c.block).localReads)
    (reads : read.form = .ident name none)
    (rewrites : core.replaceAlike? tainted read named = (some changed, replaced))
    (declares : Stmt.mkDeclare [.final] tainted.ty name (some tainted) replaced =
      (declaration, declared)) :
    (Node.block c.block).Shields
      (.block ⟨declared, c.block.isStatic, front ++ [declaration, changed] ++ back⟩) := by
  have stmts {s : Stmt} : s ∈ front ++ [declaration, changed] ++ back ↔
      s = declaration ∨ s = changed ∨ s ∈ front ++ back := by
    simp only [List.mem_append, List.mem_cons, List.not_mem_nil, or_false]
    tauto
  have old {s : Stmt} : s ∈ c.block.stmts ↔ s = core ∨ s ∈ front ++ back := by
    rw [split]
    simp only [List.mem_append, List.mem_cons]
    tauto
  have unreadIn {s : Stmt} (mem : s ∈ c.block.stmts) : name ∉ (Node.stmt s).localReads :=
    fun reads => unread (Node.mem_localReads_block.mpr ⟨s, mem, reads⟩)
  have extracted := Stmt.replaceAlike?_extracted reads rewrites
  obtain ⟨typeName, v, rfl, init, form⟩ : ∃ typeName v, v.name = name ∧ v.init = some tainted ∧
      declaration.form = .declare ⟨[.final], typeName, [v]⟩ := by
    cases declares
    exact ⟨_, _, rfl, rfl, rfl⟩
  obtain ⟨value, declared⟩ := Stmt.localReads_declare form init
  have outer : front ++ [declaration, changed] ++ back = front ++ declaration :: changed :: back := by
    simp
  refine ⟨.inr (.single (.final rfl form init outer split (.cons ?_ ?_))), ?_, ?_⟩
  · exact extracted.inlines (unreadIn (old.mpr (.inl rfl)))
  · refine List.forall₂_same.mpr fun s mem => .of_unread (unreadIn (old.mpr (.inr ?_)))
    exact List.mem_append_right _ mem
  · intro x mem
    obtain ⟨s, inside, mem⟩ := Node.mem_declaredNames_block.mp mem
    refine Node.mem_declaredNames_block.mpr ?_
    rcases old.mp inside with rfl | inside
    · refine ⟨changed, stmts.mpr (.inr (.inl rfl)), ?_⟩
      rwa [(Stmt.replaceAlike?_scopedAs rewrites).declaredNames]
    · exact ⟨s, stmts.mpr (.inr (.inr inside)), mem⟩
  · intro x mem
    have before {s : Stmt} (inside : s ∈ c.block.stmts) (mem : x ∈ (Node.stmt s).localReads) :
        x ∈ (Node.block c.block).localReads :=
      Node.mem_localReads_block.mpr ⟨s, inside, mem⟩
    obtain ⟨s, inside, here⟩ := Node.mem_localReads_block.mp mem
    rcases stmts.mp inside with same | same | inside
    · rw [same, value, ← Node.localReads_expr] at here
      exact .inl (before (old.mpr (.inl rfl)) (Node.localReads_subset_of_mem below here))
    · rcases extracted.reads x (same ▸ here) with here | rfl
      · exact .inl (before (old.mpr (.inl rfl)) here)
      · exact .inr (Node.mem_declaredNames_block.mpr ⟨declaration, stmts.mpr (.inl rfl), declared⟩)
    · exact .inl (before (old.mpr (.inr inside)) here)

variable (path : c.path = ⟨.block before :: above⟩)
  (genuine : Path.GenuineList (.block before :: above))
  (apart : Path.ToldApart (.block before :: above))
  (knows : before.Knows stem (above.flatMap (·.bindings)))
  (shields : (Node.block before).Shields (.block c.block))
  (split : c.block.stmts = front ++ core :: back) (first : core.id ∉ front.map (·.id))
include path genuine apart knows shields split first

/-- An extraction under a name with the stem. -/
theorem shields_extract {tainted : Expr} {ending : String}
    (below : .expr tainted ∈ (Node.stmt core).subtree)
    (ran : c.extract .standard core tainted (stem ++ ending) site = .ok c' site') :
    c'.path = c.path ∧ (Node.block before).Shields (.block c'.block) := by
  obtain ⟨here, start, name, read, named, replaced, current, free, reads, outcome⟩ :=
    ok_of_extract split first ran
  rcases outcome with ⟨-, rfl, -⟩ | ⟨changed, declaration, declared, rewrites, declares, rfl, -⟩
  · exact ⟨rfl, shields⟩
  have untaken := leastFreeName_not_mem (stem ++ ending) (here.takenNames ++ c.extracted)
  rw [← free, takenNames_currentPath path genuine apart current] at untaken
  simp only [List.mem_append, not_or] at untaken
  obtain ⟨⟨undeclared, -, unbound⟩, -⟩ := untaken
  have unread : name ∉ (Node.block c.block).localReads := by
    intro mem
    rcases shields.reads name mem with before | now
    · obtain ⟨suffix, long⟩ :=
        leastFreeName_eq_append (stem ++ ending) (here.takenNames ++ c.extracted)
      have stemmed : ∃ ending, name = stem ++ ending :=
        ⟨ending ++ suffix, by rw [free, long, String.append_assoc]⟩
      exact (knows name before stemmed).elim (fun old => undeclared (shields.declares old)) unbound
    · exact undeclared now
  refine ⟨rfl, shields.trans (shields_declare split below unread ?_ rewrites declares)⟩
  cases reads
  rfl

/-- Any fix that protects. -/
theorem shields_apply {fix : PendingFix} (fits : fix.Protects stem (.block before :: above))
    (resolved : c.resolve? fix.anchor = some core)
    (below : fix.kind.tag = .extract → .expr fix.tainted ∈ (Node.stmt core).subtree)
    (ran : apply .standard c fix site = .ok c' site') :
    c'.path = c.path ∧ (Node.block before).Shields (.block c'.block) := by
  unfold apply at ran
  simp only [resolved] at ran
  cases fits with
  | extract kind =>
    simp only [kind] at ran
    exact shields_extract path genuine apart knows shields split first (below (by rw [kind]; rfl))
      ran
  | guard kind reads =>
    simp only [kind] at ran
    cases parent : fix.parent with
    | none =>
      simp only [parent] at ran
      cases ran
      exact ⟨rfl, shields⟩
    | some directory =>
      simp only [parent] at ran
      refine shields_guard shields split first (fun e operand => reads e ?_) ran
      exact operand.imp_right fun same => by rw [parent, same]

end

end Repair

/-! ## The end of the visit of a block -/

namespace Regime

section

variable {G : Regime} {σ : Type} {before : Block} {above : List Node} {todo : List PendingFix}
  {fix : PendingFix} {rest : Multiset Node} {c : Repair} {parts : List (Stmt × Segment)}
  {site : Site Note σ}

/-- The place of what stands for the anchor of the next fix. -/
theorem Repairing.place (anchored : G.Anchored (.block before :: above) fix)
    (h : G.Repairing before above (fix :: todo) rest c parts site) :
    ∃ front core back, c.resolve? fix.anchor = some core ∧ c.block.stmts = front ++ core :: back ∧
      core.id ∉ front.map (·.id) ∧
      (fix.kind.tag = .extract → .expr fix.tainted ∈ (Node.stmt core).subtree) := by
  obtain ⟨b, above', at_, inside⟩ := anchored.anchor
  cases at_
  obtain ⟨⟨anchor, segment⟩, mem, rfl⟩ : ∃ p ∈ parts, p.1 = fix.anchor :=
    List.mem_map.mp (h.anchors ▸ inside)
  obtain ⟨core, hcore⟩ := Option.isSome_iff_exists.mp (h.alive fix List.mem_cons_self _ mem rfl)
  have resolved := h.tracks.resolves _ mem core hcore
  have below (extracts : fix.kind.tag = .extract) :=
    Node.mem_subtree_of_surface (h.extracts fix List.mem_cons_self extracts _ mem rfl core hcore)
  obtain ⟨front, _, back⟩ := segment
  cases hcore
  obtain ⟨pre, post, rfl⟩ := List.append_of_mem mem
  obtain ⟨split, first⟩ := h.tracks.split
  exact ⟨_, core, _, resolved, split, first, below⟩

end

section

variable {σ : Type} {stem : String} {hidden : Expr → Bool} {tree : Multiset Node} {mark : NodeId}
  {before : Block} {above : List Node} {rest : Multiset Node}
  (lawful : (protecting stem hidden tree mark).Lawful)
  (genuine : Path.GenuineList (.block before :: above))
  (apart : Path.ToldApart (.block before :: above))
  (knows : before.Knows stem (above.flatMap (·.bindings)))
include lawful genuine apart knows

/-- Fixes that protect, one after the other. -/
theorem Repairing.shields {todo : List PendingFix} {c c' : Repair} {parts : List (Stmt × Segment)}
    {site site' : Site Note σ}
    (anchored : ∀ fix ∈ todo,
      (protecting stem hidden tree mark).Anchored (.block before :: above) fix)
    (order : todo.Pairwise PendingFixes.Precedes)
    (h : (protecting stem hidden tree mark).Repairing before above todo rest c parts site)
    (path : c.path = ⟨.block before :: above⟩)
    (shields : (Node.block before).Shields (.block c.block)) (ran : todo.foldlM (Repair.apply .standard) c site = .ok c' site') :
    (Node.block before).Shields (.block c'.block) := by
  induction todo generalizing c parts site with
  | nil =>
    cases ran
    exact shields
  | cons fix todo ih =>
    rw [List.foldlM_cons] at ran
    obtain ⟨first, later⟩ := List.pairwise_cons.mp order
    obtain ⟨c₁, site₁, ran₁, ran₂⟩ := VisitM.ok_of_bind ran
    have here := anchored fix List.mem_cons_self
    obtain ⟨front, core, back, resolved, split, new, below⟩ := h.place here
    obtain ⟨path₁, shields₁⟩ := Repair.shields_apply path genuine apart knows shields split new
      here.fits resolved below ran₁
    obtain ⟨parts₁, h₁, -⟩ := h.step lawful here first ran₁
    exact ih (fun fix mem => anchored fix (List.mem_cons_of_mem _ mem)) later h₁ (path₁.trans path)
      shields₁ ran₂

/-- A block that is repaired at the end of its visit. -/
theorem repair_shields {after : Block}
    (stands : (protecting stem hidden tree mark).Stands (.block before) above)
    (walked : (protecting stem hidden tree mark).Walked above (.block before) (.block after))
    (shields : (Node.block before).Shields (.block after)) :
    VisitM.Triple
      ((protecting stem hidden tree mark).Holds (.block before :: above) (after.parts hidden + rest))
      (repair .standard before after : PassM σ Block) fun out _ =>
        (Node.block before).Shields (.block out) := by
  unfold repair
  refine (take_holds _).bind fun pending => ?_
  cases pending with
  | none => exact .pure fun site _ => shields
  | some pending =>
    refine VisitM.Triple.assuming fun allowed => path_holds.bind fun path => .assuming ?_
    rintro rfl
    intro site out site' h ran
    obtain ⟨c, site₁, ran, done⟩ := VisitM.ok_of_bind ran
    cases done
    have anchored : ∀ fix ∈ pending.ordered,
        (protecting stem hidden tree mark).Anchored (.block before :: above) fix :=
      fun fix mem => allowed.anchored fix (pending.ordered_perm.mem_iff.mp mem)
    have loaded : after.parts hidden + PendingFix.loadOf hidden pending.ordered + rest =
        after.parts hidden + rest + PendingFix.loadOf hidden pending.fixes := by
      rw [PendingFix.loadOf_perm pending.ordered_perm]
      abel
    have started := Repairing.start lawful stands walked anchored (h.weaken (le_of_eq loaded))
      ⟨.block before :: above⟩
    exact started.shields lawful genuine apart knows anchored
      (PendingFixes.ordered_precedes allowed.distinct) rfl shields ran

end

end Regime

end JavaMend
