import JavaMend.Proofs.Patch.Waiting
import JavaMend.Proofs.Traversal.Surface
import JavaMend.Proofs.Traversal.Triple
import JavaMend.Remedy.Pass

/-!
# Where a visit is

Some visits are followed step by step: what waits at which node is known exactly at each
moment (`Site.Waits`), for the lemmas about a remedy say which fixes each step adds.
-/

namespace JavaMend

/-- Fixes of one sort are applied in the order they were noted in. -/
theorem PendingFixes.ordered_eq_self {pending : PendingFixes} {tag : FixTag}
    (all : ∀ fix ∈ pending.fixes, fix.kind.tag = tag) : pending.ordered = pending.fixes := by
  have at_ (other : FixTag) : pending.fixes.filter (·.kind.tag == other) =
      if other = tag then pending.fixes else [] := by
    split
    next same =>
      refine List.filter_eq_self.mpr fun fix mem => ?_
      rw [all fix mem, same]
      exact beq_self_eq_true tag
    next differs =>
      refine List.filter_eq_nil_iff.mpr fun fix mem same => differs ?_
      rw [← eq_of_beq same, all fix mem]
  unfold PendingFixes.ordered FixTag.all
  simp only [List.flatMap_cons, List.flatMap_nil, at_]
  cases tag <;> simp

variable {σ : Type} {asks : List String → Prop} {mark : NodeId}
  {waiting w : List (Node × List PendingFix)} {site : Site Note σ} {n : Node}
  {fixes : List PendingFix}

/-- Between two steps of a visit: which fixes wait at the nodes from the current one outward,
what imports were asked for, and that ids to come are new. -/
structure Site.Waits (asks : List String → Prop) (mark : NodeId)
    (waiting : List (Node × List PendingFix)) (site : Site Note σ) : Prop where
  legible : site.cursor.Legible
  waiting : site.cursor.waiting = waiting
  asked : asks site.cursor.asked
  late : mark ≤ site.next

namespace Site.Waits

theorem frames (h : Waits asks mark waiting site) (some : waiting ≠ []) :
    site.cursor.frames ≠ [] := by
  intro none
  have nothing := h.waiting
  unfold Cursor.waiting at nothing
  rw [none] at nothing
  exact some nothing.symm

theorem push (h : Waits asks mark waiting site) (some : waiting ≠ []) (n : Node) :
    Waits asks mark ((n, []) :: waiting) { site with cursor := site.cursor.push n } where
  legible := h.legible.push n
  waiting := (Cursor.waiting_push _ _).trans (congrArg _ h.waiting)
  asked := by
    dsimp only
    rw [Cursor.asked_push (h.frames some)]
    exact h.asked
  late := h.late

theorem pop (h : Waits asks mark ((n, fixes) :: waiting) site) (some : waiting ≠ []) :
    Waits asks mark waiting { site with cursor := site.cursor.pop } := by
  have rest : site.cursor.pop.waiting = waiting := by
    rw [Cursor.waiting_pop, h.waiting]
    rfl
  have inside : site.cursor.pop.frames ≠ [] := by
    intro none
    unfold Cursor.waiting at rest
    rw [none] at rest
    exact some rest.symm
  refine ⟨h.legible.pop, rest, ?_, h.late⟩
  dsimp only
  rw [Cursor.asked_pop inside]
  exact h.asked

theorem path (h : Waits asks mark waiting site) : site.cursor.path = ⟨waiting.map (·.1)⟩ := by
  have outward := site.cursor.outward_path
  rw [h.waiting] at outward
  exact congrArg Path.mk outward

/-- Making nodes. -/
theorem next (h : Waits asks mark waiting site) {used : NodeId} (le : site.next ≤ used) :
    Waits asks mark waiting { site with next := used } :=
  ⟨h.legible, h.waiting, h.asked, Nat.le_trans h.late le⟩

/-- Noting a fix for a statement of the nearest block. -/
theorem noteFix {front above : List (Node × List PendingFix)} {b : Block} {fix : PendingFix}
    (h : Waits asks mark (front ++ (.block b, fixes) :: above) site)
    (open_ : ∀ p ∈ front, p.1.block? = none) (mem : fix.anchor ∈ b.stmts) :
    Waits asks mark (front ++ (.block b, (PendingFixes.add ⟨fixes⟩ fix).fixes) :: above)
      { site with cursor := (site.cursor.noteFix fix).2 } := by
  refine ⟨h.legible.noteFix _, ?_, ?_, h.late⟩
  · rcases Cursor.waiting_noteFix h.waiting open_ mem with ⟨_, f, hf, illegible⟩ | noted
    · exact (illegible (h.legible f hf).1).elim
    · exact noted
  · dsimp only
    rw [Cursor.asked_noteFix]
    exact h.asked

/-- Taking the fixes that wait at the current node. -/
theorem take (n : Node) (fixes : List PendingFix) (w : List (Node × List PendingFix)) :
    VisitM.Triple (Waits asks mark ((n, fixes) :: w))
      (VisitM.modifyCursor (·.take Note.fixTopic) : PassM σ (Option PendingFixes))
      fun pending site =>
        ((pending.map (·.fixes)).getD []) = fixes ∧ Waits asks mark ((n, []) :: w) site := by
  refine .modifyCursor fun site waits => ?_
  have asked : asks (site.cursor.take Note.fixTopic).2.asked := by
    rw [Cursor.asked_take_fixes]
    exact waits.asked
  rcases Cursor.waiting_take waits.waiting with ⟨nothing, rfl, same⟩ | ⟨pending, some, rfl, rest⟩
  · rw [nothing]
    exact ⟨rfl, waits.legible.take_fixes, same.trans waits.waiting, asked, waits.late⟩
  · rw [some]
    exact ⟨rfl, waits.legible.take_fixes, rest, asked, waits.late⟩

/-- Looking at the path. -/
theorem look : VisitM.Triple (Waits asks mark waiting) (VisitM.path : PassM σ Path)
    fun path site => path = ⟨waiting.map (·.1)⟩ ∧ Waits asks mark waiting site :=
  .path fun _ h => ⟨h.path, h⟩

end Site.Waits

/-! ## Inside of a statement of a block -/

/-- The statement of the nearest block that a path goes through. -/
theorem Path.anchor?_of_split {p : Path} {front above : List Node} {anchor : Stmt} {b : Block}
    (split : p.outward = front ++ .stmt anchor :: .block b :: above)
    (open_ : ∀ n ∈ front, n.block? = none) : p.anchor? = some anchor := by
  have near : p.nearestBlock? = some (above.length, b) := by
    unfold nearestBlock? nearest?
    rw [split]
    clear split
    induction front with
    | nil => rfl
    | cons n front ih =>
      rw [List.cons_append, nearest?.go, open_ n List.mem_cons_self]
      exact ih fun m hm => open_ m (List.mem_cons_of_mem _ hm)
  unfold anchor?
  rw [near]
  show p.stmtIn? above.length = some anchor
  unfold stmtIn?
  rw [show above.length + 1 = (Node.block b :: above).length from rfl, get?_of_split split]
  rfl

/-- Adds fixes to those that wait at the nearest block. -/
def deposit (more : List PendingFix) :
    List (Node × List PendingFix) → List (Node × List PendingFix)
  | [] => []
  | (n, fixes) :: w =>
    if n.block?.isSome then (n, fixes ++ more) :: w else (n, fixes) :: deposit more w

theorem deposit_open {n : Node} (open_ : n.block? = none) (more fixes : List PendingFix)
    (w : List (Node × List PendingFix)) :
    deposit more ((n, fixes) :: w) = (n, fixes) :: deposit more w := by
  rw [deposit, open_]
  rfl

theorem deposit_block (b : Block) (more fixes : List PendingFix)
    (w : List (Node × List PendingFix)) :
    deposit more ((.block b, fixes) :: w) = (.block b, fixes ++ more) :: w := rfl

theorem deposit_nil (w : List (Node × List PendingFix)) : deposit [] w = w := by
  induction w with
  | nil => rfl
  | cons p w ih =>
    obtain ⟨n, fixes⟩ := p
    rw [deposit, ih, List.append_nil]
    split <;> rfl

theorem deposit_ne_nil {more : List PendingFix} {p : Node × List PendingFix}
    {w : List (Node × List PendingFix)} : deposit more (p :: w) ≠ [] := by
  rw [deposit]
  split <;> exact List.cons_ne_nil _ _

theorem deposit_append (first more : List PendingFix) (w : List (Node × List PendingFix)) :
    deposit more (deposit first w) = deposit (first ++ more) w := by
  induction w with
  | nil => rfl
  | cons p w ih =>
    obtain ⟨n, fixes⟩ := p
    cases hb : n.block? with
    | none => rw [deposit_open hb, deposit_open hb, deposit_open hb, ih]
    | some b =>
      cases n with
      | block b => rw [deposit_block, deposit_block, deposit_block, List.append_assoc]
      | _ => cases hb

/-- The node stands in a statement of the nearest block, where some fixes wait. -/
inductive Within (anchor : Stmt) (fixes : List PendingFix) :
    Node → List (Node × List PendingFix) → Prop where
  | here {b : Block} {above : List (Node × List PendingFix)} (mem : anchor ∈ b.stmts) :
      Within anchor fixes (.stmt anchor) ((.block b, fixes) :: above)
  | inner {n parent : Node} {own : List PendingFix} {w : List (Node × List PendingFix)}
      (open_ : parent.block? = none) (around : Within anchor fixes parent w) :
      Within anchor fixes n ((parent, own) :: w)

namespace Within

variable {anchor : Stmt}

/-- The nodes up to the nearest block. -/
theorem split (h : Within anchor fixes n w) : ∃ front b above,
    w = front ++ (.block b, fixes) :: above ∧ (∀ p ∈ front, p.1.block? = none) ∧
      anchor ∈ b.stmts ∧ ∃ last, n :: front.map (·.1) = last ++ [.stmt anchor] := by
  induction h with
  | here mem => exact ⟨[], _, _, rfl, nofun, mem, [], rfl⟩
  | @inner n parent own w open_ around ih =>
    obtain ⟨front, b, above, rfl, opens, mem, last, same⟩ := ih
    refine ⟨(parent, own) :: front, b, above, rfl, ?_, mem, n :: last, ?_⟩
    · exact List.forall_mem_cons.mpr ⟨open_, opens⟩
    · rw [List.map_cons, same, List.cons_append]

theorem deposit (h : Within anchor fixes n w) (more : List PendingFix) :
    Within anchor (fixes ++ more) n (deposit more w) := by
  induction h with
  | here mem => exact .here mem
  | inner open_ around ih =>
    rw [deposit_open open_]
    exact .inner open_ ih

theorem anchor? (h : Within anchor fixes n w) (open_ : n.block? = none) :
    (⟨n :: w.map (·.1)⟩ : Path).anchor? = some anchor := by
  obtain ⟨front, b, above, rfl, opens, mem, last, same⟩ := h.split
  refine @Path.anchor?_of_split _ last (above.map (·.1)) anchor b ?_ ?_
  · rw [List.map_append, List.map_cons, ← List.cons_append, same, List.append_assoc]
    rfl
  · intro m hm
    have mem : m ∈ n :: front.map (·.1) := same ▸ List.mem_append_left _ hm
    rcases List.mem_cons.mp mem with rfl | mem
    · exact open_
    · obtain ⟨p, hp, rfl⟩ := List.mem_map.mp mem
      exact opens p hp

/-- Noting a fix for the statement. -/
theorem noteFix (h : Within anchor fixes n w) {fix : PendingFix} (about : fix.anchor = anchor)
    (apart : ∀ old ∈ fixes, fix.supersedes old = false) (waits : site.Waits asks mark w) :
    Site.Waits asks mark (JavaMend.deposit [fix] w)
      { site with cursor := (site.cursor.noteFix fix).2 } := by
  obtain ⟨front, b, above, rfl, opens, mem, -⟩ := h.split
  have added : (PendingFixes.add ⟨fixes⟩ fix).fixes = fixes ++ [fix] := by
    unfold PendingFixes.add
    exact congrArg (· ++ _) (List.filter_eq_self.mpr fun old hold => by rw [apart old hold]; rfl)
  have noted := waits.noteFix opens (about ▸ mem)
  rw [added] at noted
  have same : JavaMend.deposit [fix] (front ++ (.block b, fixes) :: above) =
      front ++ (.block b, fixes ++ [fix]) :: above := by
    clear h waits noted
    induction front with
    | nil => rfl
    | cons p front ih =>
      rw [List.cons_append, deposit_open (opens p List.mem_cons_self),
        ih fun q hq => opens q (List.mem_cons_of_mem _ hq)]
      rfl
  rw [same]
  exact noted

end Within

/-! ## A visit that does nothing -/

/-- Where nothing waits at a block, it is left as it is. -/
theorem repair_nothing (splicer : Splicer) (before after : Block) :
    VisitM.Triple (Site.Waits asks mark ((.block before, []) :: w))
      (repair splicer before after : PassM σ Block) fun out site =>
        out = after ∧ Site.Waits asks mark ((.block before, []) :: w) site := by
  unfold repair
  refine (Site.Waits.take _ _ _).bind fun pending => .assuming fun nothing => ?_
  cases pending with
  | none => exact .pure fun _ waits => ⟨rfl, waits⟩
  | some pending =>
    have nothing : pending.fixes = [] := nothing
    have none : ∀ fix ∈ pending.fixes, fix.kind.tag = .remove := by
      rw [nothing]
      exact nofun
    refine Site.Waits.look.bind fun path => .assuming fun _ => ?_
    rw [PendingFixes.ordered_eq_self none, nothing]
    exact .pure fun _ waits => ⟨rfl, waits⟩

/-- A visit that looks at nothing in a tree answers the tree. -/
theorem Remedy.run_rests {remedy : Remedy σ} {env : PassEnv} (n : Node)
    (enter : ∀ m ∈ n.subtree, remedy.enter m = pure true)
    (leave : ∀ b, remedy.leave b = pure ()) (w : List (Node × List PendingFix)) :
    VisitM.Triple (Site.Waits asks mark ((n, []) :: w)) ((remedy.visitor env).run n)
      fun out site => out = n ∧ Site.Waits asks mark ((n, []) :: w) site := by
  have below : VisitM.Triple (Site.Waits asks mark ((n, []) :: w))
      (n.children.mapM fun c => VisitM.inFrame c ((remedy.visitor env).run c))
      fun outs site => outs = n.children ∧ Site.Waits asks mark ((n, []) :: w) site := by
    let inv (done outs : List Node) (site : Site Note σ) : Prop :=
      outs = done ∧ Site.Waits asks mark ((n, []) :: w) site
    refine (VisitM.Triple.mapM inv fun done c rest outs split => .assuming ?_).mono
      (fun _ waits => ⟨rfl, waits⟩) fun _ _ h => h
    rintro rfl
    have mem : c ∈ n.children := split ▸ List.mem_append_right _ List.mem_cons_self
    refine .inFrame (run_rests c (fun m hm => enter m (Node.mem_subtree_of_child mem hm)) leave _)
      (fun site waits => waits.push (List.cons_ne_nil _ _) c) ?_
    rintro out site ⟨rfl, waits⟩
    exact ⟨rfl, waits.pop (List.cons_ne_nil _ _)⟩
  have descends : VisitM.Triple (Site.Waits asks mark ((n, []) :: w))
      (n.children.mapM (fun c => VisitM.inFrame c ((remedy.visitor env).run c)) >>=
        Visitor.settle n)
      fun out site => out = n ∧ Site.Waits asks mark ((n, []) :: w) site := by
    refine below.bind fun outs => .assuming ?_
    rintro rfl
    rw [Visitor.settle_self]
    exact .pure fun _ waits => ⟨rfl, waits⟩
  rw [Visitor.run_eq]
  generalize n.children.mapM (fun c => VisitM.inFrame c ((remedy.visitor env).run c)) >>=
    Visitor.settle n = descend at descends
  unfold Remedy.visitor
  dsimp only
  rw [enter n Node.mem_subtree_self, pure_bind, if_pos rfl]
  refine descends.bind fun walked => .assuming ?_
  rintro rfl
  split
  next before after =>
    rw [leave, pure_bind]
    refine (repair_nothing env.splicer _ _).bind fun out => .assuming ?_
    rintro rfl
    exact .pure fun _ waits => ⟨rfl, waits⟩
  next => exact .pure fun _ waits => ⟨rfl, waits⟩
termination_by sizeOf n
decreasing_by exact Node.sizeOf_lt_of_mem_children mem

end JavaMend
