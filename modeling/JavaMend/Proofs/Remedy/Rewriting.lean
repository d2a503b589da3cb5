import JavaMend.Proofs.Patch.Waiting
import JavaMend.Proofs.Patch.Rewriting
import JavaMend.Proofs.Remedy.Mending

/-!
# The end of the visit of a block

A pass that rewrites notes each expression that gives way, and each statement that is to be
dropped, on the frame of the nearest block, and sees to both when the visit of that block
ends. Such fixes fit (`Rewriting.Fits`), and what waits is read off them
(`Rewriting.Noted`). At the end of the visit of the block they are applied one by one
(`Rewriting.Halfway.step`), and none waits any more (`Rewriting.repair_rewrites`).
-/

namespace JavaMend

namespace Rewriting

variable {γ σ : Type}

/-! ## What waits -/

/-- The fixes that wait at the nearest block. -/
def nearestFixes : List (Node × List PendingFix) → List PendingFix
  | [] => []
  | (n, fixes) :: above => if n.block?.isSome then fixes else nearestFixes above

/-- The expression of that id is to be replaced. -/
def Noted (fixes : List PendingFix) (id : NodeId) : Prop :=
  ∃ fix ∈ fixes, fix.kind.tag = .replace ∧ fix.tainted.id = id

/-- The statement of that id is to be removed. -/
def Removing (fixes : List PendingFix) (id : NodeId) : Prop :=
  ∃ fix ∈ fixes, fix.kind.tag = .remove ∧ fix.anchor.id = id

theorem nearestFixes_open {n : Node} (open_ : n.block? = none) (fixes : List PendingFix)
    (above : List (Node × List PendingFix)) :
    nearestFixes ((n, fixes) :: above) = nearestFixes above := by
  rw [nearestFixes, open_]
  rfl

/-- The second fix does for the first. -/
structure ServesFor (fix' fix : PendingFix) : Prop where
  tag : fix'.kind.tag = fix.kind.tag
  anchor : fix'.anchor.id = fix.anchor.id
  tainted : fix.kind.tag = .replace → fix'.tainted.id = fix.tainted.id

theorem ServesFor.refl (fix : PendingFix) : ServesFor fix fix := ⟨rfl, rfl, fun _ => rfl⟩

theorem ServesFor.trans {a b c : PendingFix} (h : ServesFor b a) (h' : ServesFor c b) :
    ServesFor c a :=
  ⟨h'.tag.trans h.tag, h'.anchor.trans h.anchor,
    fun tag => (h'.tainted (h.tag.trans tag)).trans (h.tainted tag)⟩

/-- What waits at a node still does. -/
def Grown (before after : List (Node × List PendingFix)) : Prop :=
  List.Forall₂ (fun p p' => p'.1 = p.1 ∧ ∀ fix ∈ p.2, ∃ fix' ∈ p'.2, ServesFor fix' fix) before after

theorem Grown.refl (waiting : List (Node × List PendingFix)) : Grown waiting waiting :=
  List.forall₂_same.mpr fun _ _ => ⟨rfl, fun fix mem => ⟨fix, mem, .refl fix⟩⟩

theorem Grown.trans {a b c : List (Node × List PendingFix)} (h : Grown a b) (h' : Grown b c) :
    Grown a c := by
  induction h generalizing c with
  | nil =>
    cases h'
    exact .nil
  | cons first rest ih =>
    cases h' with
    | cons first' rest' =>
      refine .cons ⟨first'.1.trans first.1, fun fix mem => ?_⟩ (ih rest')
      obtain ⟨fix', mem', serves⟩ := first.2 fix mem
      obtain ⟨fix'', mem'', serves'⟩ := first'.2 fix' mem'
      exact ⟨fix'', mem'', serves.trans serves'⟩

theorem Grown.tail {before after : List (Node × List PendingFix)} (h : Grown before after) :
    Grown before.tail after.tail := by
  cases h with
  | nil => exact .nil
  | cons _ rest => exact rest

/-- The fixes of the first frame do not matter to what waits further out. -/
theorem Grown.outer {n : Node} {fixes : List PendingFix} {before above : List (Node × List PendingFix)}
    (h : Grown before above) : Grown ((n, []) :: before) ((n, fixes) :: above) :=
  .cons ⟨rfl, fun _ none => (List.not_mem_nil none).elim⟩ h

theorem Grown.nearest {before after : List (Node × List PendingFix)} (h : Grown before after) :
    ∀ fix ∈ nearestFixes before, ∃ fix' ∈ nearestFixes after, ServesFor fix' fix := by
  induction h with
  | nil => exact fun fix none => (List.not_mem_nil none).elim
  | @cons p p' _ _ first rest ih =>
    obtain ⟨n, fixes⟩ := p
    obtain ⟨n', fixes'⟩ := p'
    obtain ⟨rfl, kept⟩ := first
    cases hb : n'.block? with
    | none =>
      rw [nearestFixes_open hb, nearestFixes_open hb]
      exact ih
    | some b =>
      rw [nearestFixes, nearestFixes, hb]
      exact kept

theorem Grown.noted {before after : List (Node × List PendingFix)} (h : Grown before after)
    {id : NodeId} (noted : Noted (nearestFixes before) id) : Noted (nearestFixes after) id := by
  obtain ⟨fix, mem, tag, rfl⟩ := noted
  obtain ⟨fix', mem', serves⟩ := h.nearest fix mem
  exact ⟨fix', mem', serves.tag.trans tag, serves.tainted tag⟩

theorem Grown.removing {before after : List (Node × List PendingFix)} (h : Grown before after)
    {id : NodeId} (removing : Removing (nearestFixes before) id) :
    Removing (nearestFixes after) id := by
  obtain ⟨fix, mem, tag, rfl⟩ := removing
  obtain ⟨fix', mem', serves⟩ := h.nearest fix mem
  exact ⟨fix', mem', serves.tag.trans tag, serves.anchor⟩

/-- A fix takes only the place of one that it does for. -/
theorem grown_add {front above : List (Node × List PendingFix)} {n : Node} {fixes : List PendingFix}
    {fix : PendingFix} :
    Grown (front ++ (n, fixes) :: above)
      (front ++ (n, (PendingFixes.add ⟨fixes⟩ fix).fixes) :: above) := by
  refine List.rel_append (Grown.refl front) (.cons ⟨rfl, fun old mem => ?_⟩ (Grown.refl above))
  unfold PendingFixes.add
  cases kept : fix.supersedes old with
  | true =>
    refine ⟨fix, List.mem_append_right _ List.mem_cons_self, ?_⟩
    unfold PendingFix.supersedes at kept
    simp only [Bool.and_eq_true, Bool.or_eq_true, bne_iff_ne] at kept
    obtain ⟨⟨anchor, tag⟩, tainted⟩ := kept
    have tag := eq_of_beq tag
    exact ⟨tag, eq_of_beq anchor, fun replaces =>
      eq_of_beq (tainted.resolve_left fun other => other (tag.trans replaces))⟩
  | false =>
    refine ⟨old, List.mem_append_left _ (List.mem_filter.mpr ⟨mem, ?_⟩), .refl old⟩
    rw [kept]
    rfl

/-! ## The visit -/

variable (R : Rewriting γ)

/-- A fix that may wait at the first of some nodes: it replaces an expression that gives way
in a statement that stays, or removes one that is dropped. -/
inductive Fits (R : Rewriting γ) (mark : NodeId) : List Node → PendingFix → Prop where
  | replace {b : Block} {above : List Node} {anchor : Stmt} {tainted new : Expr} {parent : Option Expr}
      (made : R.makes tainted new) (late : mark ≤ new.id)
      (inner : ∀ m ∈ (Node.expr new).subtree, m.id < mark →
        ∃ c ∈ (Node.expr tainted).children, m ∈ c.subtree)
      (outermost : R.Outermost tainted (R.place (.block b :: above)) (.stmt anchor))
      (stays : R.drops (R.place (.block b :: above)) anchor = false) :
      Fits R mark (.block b :: above) ⟨anchor, tainted, parent, .replace new [R.refers]⟩
  | remove {b : Block} {above : List Node} {anchor : Stmt} {tainted : Expr} {parent : Option Expr}
      (drops : R.drops (R.place (.block b :: above)) anchor = true) :
      Fits R mark (.block b :: above) ⟨anchor, tainted, parent, .remove⟩

/-- The nodes of a unit, none twice, and the fixes that rewrite. -/
abbrev ledger (unit : CompilationUnit) (mark : NodeId) : Regime where
  hidden _ := false
  tree := (Node.unit unit).parts fun _ => false
  mark := mark
  fits := R.Fits mark
  became _ _ _ := True
  segment _ _ _ := True

variable {R}

theorem ledger_lawful {unit : CompilationUnit} {mark : NodeId}
    (distinct : ((Node.unit unit).subtree.map Node.id).Nodup)
    (old : ∀ n ∈ (Node.unit unit).subtree, n.id < mark) : (R.ledger unit mark).Lawful where
  drawn := .of_distinct distinct old
  became_self _ _ := trivial
  became_refilled _ _ _ _ _ _ := trivial
  segment_visited _ _ _ _ _ _ := trivial
  segment_step _ _ _ _ _ _ _ _ _ _ _ _ _ _ _ := trivial
  became_repaired _ _ _ _ _ _ _ _ := trivial

/-- Where a fix may wait, something gives way. -/
theorem Fits.acts {mark : NodeId} {b : Block} {above : List Node} {fix : PendingFix}
    (fits : R.Fits mark (.block b :: above) fix) (sparing : R.Sparing) (mem : fix.anchor ∈ b.stmts) :
    R.Acts (R.place above) (.block b) := by
  cases fits with
  | replace _ _ _ outermost => exact sparing.acts (List.mem_map_of_mem mem) outermost.acts
  | remove drops =>
    obtain ⟨s, inside, -, acts⟩ := sparing _ b _ mem drops
    exact sparing.acts (List.mem_map_of_mem inside) acts

variable (R)

/-- Nothing in the nodes gives way. -/
def Free : List Node → Prop
  | [] => True
  | n :: above => R.isGiven (R.place above) n = false ∧ Free above

/-- A node of the unit that the visit comes to. Unless the remedy notes what gives way only
when it leaves a block, nothing around the node does. -/
structure Comes (due : Prop) (unit : CompilationUnit) (mark : NodeId) (n : Node) (above : List Node) :
    Prop where
  stands : (R.ledger unit mark).Stands n above
  root : (n :: above).getLast? = some (.unit unit)
  free : due ∨ R.Free above

/-- What is known between two steps of the visit of a unit: the import is asked for only if
something gives way, it stays so if it `was` asked for, what waited in `ws` still does, and
the remedy knows of the path what it is supposed to. -/
structure Order (knows : List Node → σ → Prop) (unit : CompilationUnit)
    (ws : List (Node × List PendingFix)) (was : Prop) (path : List Node) (site : Site Note σ) : Prop where
  legible : site.cursor.Legible
  asked : site.cursor.asked = [] ∨ site.cursor.asked = [R.refers] ∧ R.Acts R.outside (.unit unit)
  since : was → site.cursor.asked ≠ []
  grown : Grown ws site.cursor.waiting
  knows : knows path site.own

/-- What still waits: what is noted at the nearest block or, if so, `due` to be. -/
def Awaited (due : Prop) (waiting : List (Node × List PendingFix)) (id : NodeId) : Prop :=
  due ∨ Noted (nearestFixes waiting) id

variable {R}

theorem awaited_open {due : Prop} {n : Node} (open_ : n.block? = none) (fixes : List PendingFix)
    (above : List (Node × List PendingFix)) : Awaited due ((n, fixes) :: above) = Awaited due above := by
  unfold Awaited
  rw [nearestFixes_open open_]

/-- What gives way in a node gives way in the nodes around it, if nothing there does. -/
theorem Outermost.outward {e : Expr} {m n : Node} {around above : List Node}
    (genuine : Path.GenuineList (m :: around ++ n :: above)) (free : R.Free (around ++ n :: above))
    (open_ : ∀ k ∈ around ++ [n], k.block? = none)
    (here : R.Outermost e (R.place (around ++ n :: above)) m) : R.Outermost e (R.place above) n := by
  induction around generalizing m with
  | nil => exact .under free.1 (open_ n List.mem_cons_self) genuine.1 here
  | cons parent around ih =>
    refine ih genuine.2 free.2 (fun k hk => open_ k (List.mem_cons_of_mem _ hk)) ?_
    exact .under free.1 (open_ parent List.mem_cons_self) genuine.1 here

section

variable {knows : List Node → σ → Prop} {due : Prop} {unit : CompilationUnit} {mark : NodeId}
  {n : Node} {above path : List Node} {site : Site Note σ} {hand rest : Multiset Node}
  {ws : List (Node × List PendingFix)} {was : Prop}

theorem Comes.child {c : Node} (h : R.Comes due unit mark n above) (mem : c ∈ n.children)
    (other : R.isGiven (R.place above) n = true → due) : R.Comes due unit mark c (n :: above) where
  stands := h.stands.child mem
  root := by rw [List.getLast?_cons_cons, h.root]
  free := by
    cases given : R.isGiven (R.place above) n with
    | true => exact .inl (other given)
    | false => exact h.free.imp_right fun free => ⟨given, free⟩

/-- The nodes below a node are there once. -/
theorem Comes.own (h : R.Comes due unit mark n above)
    (distinct : ((Node.unit unit).subtree.map Node.id).Nodup) : (n.subtree.map Node.id).Nodup :=
  ((Node.subtree_sublist_of_genuine h.stands.genuine h.root).map Node.id).nodup distinct

theorem frames_ne_nil (holds : (R.ledger unit mark).Holds (n :: path) hand site) :
    site.cursor.frames ≠ [] := by
  intro none
  have path := holds.path
  unfold Cursor.waiting at path
  rw [none] at path
  cases path

theorem Order.next (h : R.Order knows unit ws was path site) (next : NodeId) :
    R.Order knows unit ws was path { site with next } :=
  ⟨h.legible, h.asked, h.since, h.grown, h.knows⟩

/-- Going down to a child, all that is known so far can be kept. -/
theorem Order.push (h : R.Order knows unit ws was path site) (inside : site.cursor.frames ≠ []) (c : Node) :
    R.Order knows unit ((c, []) :: site.cursor.waiting) (site.cursor.asked ≠ []) path
      { site with cursor := site.cursor.push c } := by
  have asked : (site.cursor.push c).asked = site.cursor.asked := Cursor.asked_push inside c
  refine ⟨h.legible.push c, ?_, ?_, ?_, h.knows⟩ <;> dsimp only
  · rw [asked]
    exact h.asked
  · rw [asked]
    exact fun so => so
  · rw [Cursor.waiting_push]
    exact Grown.refl _

theorem Order.pop {p : Node × List PendingFix} (h : R.Order knows unit (p :: ws) was path site)
    (inside : site.cursor.pop.frames ≠ []) :
    R.Order knows unit ws was path { site with cursor := site.cursor.pop } := by
  have asked : site.cursor.pop.asked = site.cursor.asked := Cursor.asked_pop inside
  refine ⟨h.legible.pop, ?_, ?_, ?_, h.knows⟩ <;> dsimp only
  · rw [asked]
    exact h.asked
  · rw [asked]
    exact h.since
  · rw [Cursor.waiting_pop]
    exact h.grown.tail

/-- A fix that is noted waits at the nearest block. -/
theorem Order.noteFix (order : R.Order knows unit ws was path site)
    {front back : List (Node × List PendingFix)} {b : Block} {fixes : List PendingFix}
    {fix : PendingFix} (waiting : site.cursor.waiting = front ++ (.block b, fixes) :: back)
    (open_ : ∀ p ∈ front, p.1.block? = none) (member : fix.anchor ∈ b.stmts) :
    R.Order knows unit ws was path { site with cursor := (site.cursor.noteFix fix).2 } ∧
      Grown site.cursor.waiting (site.cursor.noteFix fix).2.waiting ∧
      fix ∈ nearestFixes (site.cursor.noteFix fix).2.waiting := by
  have noted := (Cursor.waiting_noteFix waiting open_ member).resolve_left
    fun ⟨_, f, hf, illegible⟩ => illegible (order.legible f hf).1
  have asked : (site.cursor.noteFix fix).2.asked = site.cursor.asked := Cursor.asked_noteFix _ _
  have grown : Grown site.cursor.waiting (site.cursor.noteFix fix).2.waiting := by
    rw [noted, waiting]
    exact grown_add
  refine ⟨⟨order.legible.noteFix _, ?_, ?_, order.grown.trans grown, order.knows⟩, grown, ?_⟩
  · dsimp only
    rw [asked]
    exact order.asked
  · dsimp only
    rw [asked]
    exact order.since
  · rw [noted]
    clear noted waiting grown
    induction front with
    | nil => exact List.mem_append_right _ List.mem_cons_self
    | cons p front ih =>
      rw [List.cons_append, nearestFixes_open (open_ p List.mem_cons_self)]
      exact ih fun q hq => open_ q (List.mem_cons_of_mem _ hq)

end

/-! ## The end of the visit of a block -/

section

variable {knows : List Node → σ → Prop} {due : Prop} {unit : CompilationUnit} {mark : NodeId}
  {before after : Block} {above path : List Node} {site site' : Site Note σ} {rest : Multiset Node}
  {ws : List (Node × List PendingFix)} {was : Prop} {c c' : Repair}
  {parts parts' : List (Stmt × Segment)} {todo : List PendingFix} {fix : PendingFix}

/-- A block in repair, while the fixes `todo` are still to be applied. -/
structure Halfway (R : Rewriting γ) (knows : List Node → σ → Prop) (unit : CompilationUnit)
    (mark : NodeId) (p : γ) (ws : List (Node × List PendingFix)) (was : Prop) (path : List Node)
    (todo : List PendingFix) (parts : List (Stmt × Segment)) (site : Site Note σ) : Prop where
  order : R.Order knows unit ws was path site
  kept : ∀ q ∈ parts, R.drops p q.1 = false → ∃ core, q.2 = .ofStmt core ∧
    R.Underway mark (site.cursor.asked ≠ []) (Noted todo) p (.stmt q.1) (.stmt core)
  dropped : ∀ q ∈ parts, R.drops p q.1 = true → q.2.stmts = [] ∨
    (∃ core, q.2 = .ofStmt core) ∧ Removing todo q.1.id

/-- The statements of a block have their nodes for themselves. -/
theorem Comes.apart (comes : R.Comes due unit mark (.block before) above)
    (distinct : ((Node.unit unit).subtree.map Node.id).Nodup) {s s' : Stmt} (mem : s ∈ before.stmts)
    (mem' : s' ∈ before.stmts) {m m' : Node} (inside : m ∈ (Node.stmt s).subtree)
    (inside' : m' ∈ (Node.stmt s').subtree) (same : m.id = m'.id) : s' = s :=
  Node.stmt.inj (Node.eq_of_inside (comes.own distinct) (List.mem_map_of_mem mem)
    (List.mem_map_of_mem mem') inside inside' same)

/-- No statement of a block is there twice. -/
theorem Comes.nodup (comes : R.Comes due unit mark (.block before) above)
    (distinct : ((Node.unit unit).subtree.map Node.id).Nodup) : before.stmts.Nodup := by
  have tree : (R.ledger unit mark).tree = ((Node.unit unit).subtree : Multiset Node) :=
    Node.parts_all _
  exact (comes.stands.distinct_stmts (tree ▸ distinct)).of_map _

/-- The segments next to the one that changed. -/
theorem mem_of_split {pre post : List (Stmt × Segment)} {anchor : Stmt} {g g' : Segment}
    (nodup : ((pre ++ (anchor, g) :: post).map (·.1)).Nodup) {q : Stmt × Segment}
    (mem : q ∈ pre ++ (anchor, g') :: post) :
    q = (anchor, g') ∨ q ∈ pre ++ (anchor, g) :: post ∧ q.1 ≠ anchor := by
  rw [List.map_append, List.map_cons, List.nodup_append, List.nodup_cons] at nodup
  rw [List.mem_append, List.mem_cons] at mem ⊢
  rcases mem with mem | rfl | mem
  · exact .inr ⟨.inl mem, nodup.2.2 _ (List.mem_map_of_mem mem) _ List.mem_cons_self⟩
  · exact .inl rfl
  · exact .inr ⟨.inr (.inr mem), fun same => nodup.2.1.1 (List.mem_map.mpr ⟨q, mem, same⟩)⟩

/-- The order after a replacement was applied. -/
theorem Order.replace (order : R.Order knows unit ws was path site) (inside : site.cursor.frames ≠ [])
    {new : Expr} (kind : fix.kind = .replace new [R.refers]) (acts : R.Acts R.outside (.unit unit))
    (ran : Repair.apply .standard c fix site = .ok c' site') :
    R.Order knows unit ws was path site' ∧ (site.cursor.asked ≠ [] → site'.cursor.asked ≠ []) ∧
      (site'.cursor.asked ≠ [] ∨ ∀ core, c.resolve? fix.anchor = some core →
        (core.replaceExpr? fix.tainted new site.next).1 = none) := by
  rcases Repair.apply_replace kind ran with ⟨-, at_, misses⟩ | at_ <;> rw [at_]
  · exact ⟨order.next _, id, .inr misses⟩
  · have added : (site.cursor.requestImports [R.refers]).asked =
        (ImportRequests.add ⟨site.cursor.asked⟩ R.refers).requested :=
      Cursor.asked_requestImport inside order.legible _
    have asked : (site.cursor.requestImports [R.refers]).asked = [R.refers] := by
      rcases order.asked with none | ⟨one, -⟩
      · rw [added, none]
        rfl
      · rw [added, one]
        unfold ImportRequests.add
        simp
    have some : (site.cursor.requestImports [R.refers]).asked ≠ [] := by
      rw [asked]
      exact List.cons_ne_nil _ _
    refine ⟨⟨order.legible.requestImports _, .inr ⟨asked, acts⟩, fun _ => some, ?_, order.knows⟩,
      fun _ => some, .inl some⟩
    dsimp only
    rw [Cursor.waiting_requestImports]
    exact order.grown

/-- Making one replacement. -/
theorem Halfway.replaced {anchor : Stmt} {tainted new : Expr} {parent : Option Expr}
    (sparing : R.Sparing) (comes : R.Comes due unit mark (.block before) above)
    (distinct : ((Node.unit unit).subtree.map Node.id).Nodup)
    (old : ∀ n ∈ (Node.unit unit).subtree, n.id < mark)
    (repairing : (R.ledger unit mark).Repairing before above
      (⟨anchor, tainted, parent, .replace new [R.refers]⟩ :: todo) rest c parts site)
    (anchored : (R.ledger unit mark).Anchored (.block before :: above)
      ⟨anchor, tainted, parent, .replace new [R.refers]⟩)
    (inside : anchor ∈ before.stmts) (made : R.makes tainted new) (late : mark ≤ new.id)
    (inner : ∀ m ∈ (Node.expr new).subtree, m.id < mark →
      ∃ c ∈ (Node.expr tainted).children, m ∈ c.subtree)
    (outermost : R.Outermost tainted (R.place (.block before :: above)) (.stmt anchor))
    (stays : R.drops (R.place (.block before :: above)) anchor = false)
    (h : R.Halfway knows unit mark (R.place (.block before :: above)) ws was path
      (⟨anchor, tainted, parent, .replace new [R.refers]⟩ :: todo) parts site)
    (ran : Repair.apply .standard c ⟨anchor, tainted, parent, .replace new [R.refers]⟩ site = .ok c' site')
    (advance : Repair.Advance site.next ⟨anchor, tainted, parent, .replace new [R.refers]⟩ parts parts') :
    R.Halfway knows unit mark (R.place (.block before :: above)) ws was path todo parts' site' := by
  have acts : R.Acts R.outside (.unit unit) :=
    sparing.acts_root (anchored.fits.acts sparing inside) comes.stands.genuine comes.root
  have nodup : (parts.map (·.1)).Nodup := by
    rw [repairing.anchors]
    exact comes.nodup distinct
  have listed {q : Stmt × Segment} (mem : q ∈ parts) : q.1 ∈ before.stmts := by
    rw [← repairing.anchors]
    exact List.mem_map_of_mem mem
  have within : ∀ m ∈ (Node.stmt anchor).subtree, m ∈ (Node.unit unit).subtree := fun m mem =>
    (Node.subtree_sublist_of_genuine comes.stands.genuine comes.root).subset
      (Node.mem_subtree_of_child (List.mem_map_of_mem inside) mem)
  obtain ⟨order, more, found⟩ := h.order.replace (frames_ne_nil repairing.holds) rfl acts ran
  -- What waits in the other statements are not replacements of this expression.
  have elsewhere {s core : Stmt} (mem : s ∈ before.stmts) (other : s ≠ anchor)
      (underway : R.Underway mark (site.cursor.asked ≠ [])
        (Noted (⟨anchor, tainted, parent, .replace new [R.refers]⟩ :: todo))
        (R.place (.block before :: above)) (.stmt s) (.stmt core)) :
      R.Underway mark (site'.cursor.asked ≠ []) (Noted todo) (R.place (.block before :: above))
        (.stmt s) (.stmt core) := by
    refine underway.mono more ?_
    rintro e own ⟨fix, mem', tag, same⟩
    rcases List.mem_cons.mp mem' with rfl | mem'
    · exact (other (comes.apart distinct inside mem outermost.mem own.mem same)).elim
    · exact ⟨fix, mem', tag, same⟩
  -- What waited in the anchor but for the expression that was replaced.
  have fewer {core : Stmt} (underway : R.Underway mark (site'.cursor.asked ≠ [])
        (fun id => Noted (⟨anchor, tainted, parent, .replace new [R.refers]⟩ :: todo) id ∧
          id ≠ tainted.id) (R.place (.block before :: above)) (.stmt anchor) (.stmt core)) :
      R.Underway mark (site'.cursor.asked ≠ []) (Noted todo) (R.place (.block before :: above))
        (.stmt anchor) (.stmt core) := by
    refine underway.mono id ?_
    rintro e own ⟨⟨fix, mem, tag, same⟩, other⟩
    rcases List.mem_cons.mp mem with rfl | mem
    · exact (other same.symm).elim
    · exact ⟨fix, mem, tag, same⟩
  have changed {pre post : List (Stmt × Segment)} {g g' : Segment}
      (split : parts = pre ++ (anchor, g) :: post) (own : ∃ core, g' = .ofStmt core ∧
        R.Underway mark (site'.cursor.asked ≠ []) (Noted todo) (R.place (.block before :: above))
          (.stmt anchor) (.stmt core)) :
      R.Halfway knows unit mark (R.place (.block before :: above)) ws was path todo
        (pre ++ (anchor, g') :: post) site' := by
    refine ⟨order, fun q mem stays' => ?_, fun q mem dropped => ?_⟩ <;>
      rcases mem_of_split (split ▸ nodup) mem with rfl | ⟨mem, other⟩
    · exact own
    · obtain ⟨core, at_, underway⟩ := h.kept q (split ▸ mem) stays'
      exact ⟨core, at_, elsewhere (listed (split ▸ mem)) other underway⟩
    · cases stays.symm.trans dropped
    · refine (h.dropped q (split ▸ mem) dropped).imp_right fun ⟨core, fix, mem', tag, at_⟩ =>
        ⟨core, fix, (List.mem_cons.mp mem').resolve_left ?_, tag, at_⟩
      rintro rfl
      cases tag
  cases advance with
  | @missed pre post front back core misses =>
    have mem : (anchor, ⟨front, some core, back⟩) ∈
      pre ++ (anchor, ⟨front, some core, back⟩) :: post := List.mem_append_right _ List.mem_cons_self
    obtain ⟨_, at_, underway⟩ := h.kept _ mem stays
    cases at_
    refine changed rfl ⟨core, rfl, fewer ((underway.mono more fun _ _ => id).missed ?_)⟩
    exact Stmt.absent_of_replaceExpr? (misses.2 new _ rfl)
  | @stepped pre post front back before' after' core core' used step =>
    have mem : (anchor, ⟨front, some core, back⟩) ∈
      pre ++ (anchor, ⟨front, some core, back⟩) :: post := List.mem_append_right _ List.mem_cons_self
    obtain ⟨_, at_, underway⟩ := h.kept _ mem stays
    cases at_
    have member : core ∈ c.block.stmts := by
      rw [repairing.tracks.stmts]
      exact List.mem_flatMap.mpr ⟨_, mem, by simp [Segment.stmts]⟩
    cases step with
    | @replace new' imports stmt replaced kind below changes =>
      cases kind
      have now : site'.cursor.asked ≠ [] := by
        refine found.resolve_right fun misses => ?_
        have none := misses core (repairing.tracks.resolves _ mem core rfl)
        rw [changes] at none
        cases none
      refine changed rfl ⟨stmt, rfl, fewer ?_⟩
      refine underway.replaced outermost ?_ (old _ (within _ outermost.mem)) made more now late inner
        repairing.holds.owns.le ?_ (Stmt.replaceExpr?_node changes)
      · exact ((Node.subtree_sublist_of_child (List.mem_map_of_mem inside)).map Node.id).nodup
          (comes.own distinct)
      · exact (repairing.replaced (ledger_lawful distinct old) anchored member rfl).1
    | extract kind => cases kind
    | guardAfter kind => cases kind
    | insertAfter kind => cases kind
    | insertBefore kind => cases kind
    | remove kind => cases kind

/-- Removing one statement. -/
theorem Halfway.removed (comes : R.Comes due unit mark (.block before) above)
    (distinct : ((Node.unit unit).subtree.map Node.id).Nodup)
    (repairing : (R.ledger unit mark).Repairing before above (fix :: todo) rest c parts site)
    (kind : fix.kind = .remove) (inside : fix.anchor ∈ before.stmts)
    (drops : R.drops (R.place (.block before :: above)) fix.anchor = true)
    (h : R.Halfway knows unit mark (R.place (.block before :: above)) ws was path (fix :: todo) parts site)
    (ran : Repair.apply .standard c fix site = .ok c' site')
    (advance : Repair.Advance site.next fix parts parts') :
    R.Halfway knows unit mark (R.place (.block before :: above)) ws was path todo parts' site' := by
  have nodup : (parts.map (·.1)).Nodup := by
    rw [repairing.anchors]
    exact comes.nodup distinct
  have listed {q : Stmt × Segment} (mem : q ∈ parts) : q.1 ∈ before.stmts := by
    rw [← repairing.anchors]
    exact List.mem_map_of_mem mem
  rw [Repair.apply_remove kind ran]
  cases advance with
  | missed misses => exact (misses.1.1 (by rw [kind]; rfl)).elim
  | @stepped pre post front back before' after' core core' used step =>
    cases step with
    | remove =>
      refine ⟨h.order.next _, fun q mem stays => ?_, fun q mem dropped => ?_⟩ <;>
        rcases mem_of_split nodup mem with rfl | ⟨mem, other⟩
      · cases stays.symm.trans drops
      · obtain ⟨core, at_, underway⟩ := h.kept q mem stays
        refine ⟨core, at_, underway.mono id ?_⟩
        rintro e - ⟨other, mem', tag, same⟩
        refine ⟨other, (List.mem_cons.mp mem').resolve_left ?_, tag, same⟩
        rintro rfl
        rw [kind] at tag
        cases tag
      · left
        rcases h.dropped _ (List.mem_append_right _ List.mem_cons_self) dropped with none | ⟨⟨_, at_⟩, -⟩
        · simp [Segment.stmts] at none
        · cases at_
          rfl
      · apply (h.dropped q mem dropped).imp_right
        rintro ⟨core, other', mem', tag, at_⟩
        refine ⟨core, other', (List.mem_cons.mp mem').resolve_left ?_, tag, at_⟩
        rintro rfl
        exact other (comes.apart distinct inside (listed mem) Node.mem_subtree_self
          Node.mem_subtree_self at_)
    | replace kind' => cases kind.symm.trans kind'
    | extract kind' => cases kind.symm.trans kind'
    | guardAfter kind' => cases kind.symm.trans kind'
    | insertAfter kind' => cases kind.symm.trans kind'
    | insertBefore kind' => cases kind.symm.trans kind'

/-- Applying one fix. -/
theorem Halfway.step (sparing : R.Sparing) (comes : R.Comes due unit mark (.block before) above)
    (distinct : ((Node.unit unit).subtree.map Node.id).Nodup)
    (old : ∀ n ∈ (Node.unit unit).subtree, n.id < mark)
    (repairing : (R.ledger unit mark).Repairing before above (fix :: todo) rest c parts site)
    (anchored : (R.ledger unit mark).Anchored (.block before :: above) fix)
    (h : R.Halfway knows unit mark (R.place (.block before :: above)) ws was path (fix :: todo) parts site)
    (ran : Repair.apply .standard c fix site = .ok c' site')
    (advance : Repair.Advance site.next fix parts parts') :
    R.Halfway knows unit mark (R.place (.block before :: above)) ws was path todo parts' site' := by
  obtain ⟨b, up, at_, inside⟩ := anchored.anchor
  cases at_
  cases fits : anchored.fits with
  | replace made late inner outermost stays =>
    exact h.replaced sparing comes distinct old repairing anchored inside made late inner outermost stays
      ran advance
  | remove drops => exact h.removed comes distinct repairing rfl inside drops ran advance

/-- Applying all the fixes. -/
theorem Halfway.run (sparing : R.Sparing) (comes : R.Comes due unit mark (.block before) above)
    (distinct : ((Node.unit unit).subtree.map Node.id).Nodup)
    (old : ∀ n ∈ (Node.unit unit).subtree, n.id < mark)
    (anchored : ∀ fix ∈ todo, (R.ledger unit mark).Anchored (.block before :: above) fix)
    (precede : todo.Pairwise PendingFixes.Precedes)
    (repairing : (R.ledger unit mark).Repairing before above todo rest c parts site)
    (h : R.Halfway knows unit mark (R.place (.block before :: above)) ws was path todo parts site)
    (ran : todo.foldlM (Repair.apply .standard) c site = .ok c' site') :
    ∃ parts', (R.ledger unit mark).Repairing before above [] rest c' parts' site' ∧
      R.Halfway knows unit mark (R.place (.block before :: above)) ws was path [] parts' site' := by
  induction todo generalizing c parts site with
  | nil =>
    cases ran
    exact ⟨parts, repairing, h⟩
  | cons fix todo ih =>
    rw [List.foldlM_cons] at ran
    obtain ⟨first, later⟩ := List.pairwise_cons.mp precede
    obtain ⟨c₁, site₁, ran₁, ran₂⟩ := VisitM.ok_of_bind ran
    have anchor := anchored fix List.mem_cons_self
    obtain ⟨parts₁, repairing₁, advance⟩ :=
      repairing.step (ledger_lawful distinct old) anchor first ran₁
    exact ih (fun fix mem => anchored fix (List.mem_cons_of_mem _ mem)) later repairing₁
      (h.step sparing comes distinct old repairing anchor ran₁ advance) ran₂

/-- What is noted for a block when its visit ends: every statement that is dropped, and
every expression that gives way in one that stays. -/
structure Settled (R : Rewriting γ) (mark : NodeId) (acted : Prop) (before after : Block)
    (above : List Node) (fixes : List PendingFix) : Prop where
  drops : ∀ s ∈ before.stmts, R.drops (R.place (.block before :: above)) s = true →
    Removing fixes s.id
  stmts : List.Forall₂ (fun s s' => R.Underway mark acted (Noted fixes)
    (R.place (.block before :: above)) (.stmt s) (.stmt s')) before.stmts after.stmts

/-- Taking the fixes that wait at a block. -/
theorem take_rewrites {hand : Multiset Node} :
    VisitM.Triple
      (fun site => (R.Order knows unit ((.block before, []) :: ws) was path site ∧
          R.Settled mark (site.cursor.asked ≠ []) before after above (nearestFixes site.cursor.waiting)) ∧
        (R.ledger unit mark).Holds (.block before :: above) hand site)
      (VisitM.modifyCursor (·.take Note.fixTopic) : PassM σ _) fun pending site =>
        R.Order knows unit ((.block before, []) :: ws) was path site ∧
        R.Settled mark (site.cursor.asked ≠ []) before after above ((pending.map (·.fixes)).getD []) := by
  refine .modifyCursor fun site h => ?_
  obtain ⟨⟨order, settled⟩, holds⟩ := h
  obtain ⟨⟨_, fixes⟩, back, waiting, rfl, -⟩ := List.map_eq_cons_iff.mp holds.path
  have asked : (site.cursor.take Note.fixTopic).2.asked = site.cursor.asked :=
    Cursor.asked_take_fixes _
  have grown := order.grown
  rw [waiting] at grown settled
  refine ⟨⟨order.legible.take_fixes, ?_, ?_, ?_, order.knows⟩, ?_⟩ <;> dsimp only
  · rw [asked]
    exact order.asked
  · rw [asked]
    exact order.since
  · rcases Cursor.waiting_take waiting with ⟨-, -, same⟩ | ⟨-, -, -, left⟩
    · rw [same, waiting]
      exact grown
    · rw [left]
      exact grown.tail.outer
  · rw [asked]
    rcases Cursor.waiting_take waiting with ⟨none, rfl, -⟩ | ⟨pending, some, rfl, -⟩
    · rw [none]
      exact settled
    · rw [some]
      exact settled

/-- Statements that are left of segments. -/
theorem forall₂_of_segments {p : γ} {acted : Prop} {waits : NodeId → Prop}
    (kept : ∀ q ∈ parts, R.drops p q.1 = false → ∃ core, q.2 = .ofStmt core ∧
      R.Underway mark acted waits p (.stmt q.1) (.stmt core))
    (dropped : ∀ q ∈ parts, R.drops p q.1 = true → q.2.stmts = []) :
    List.Forall₂ (R.Underway mark acted waits p)
      (((parts.map (·.1)).filter (!R.drops p ·)).map .stmt) ((parts.flatMap (·.2.stmts)).map .stmt) := by
  induction parts with
  | nil => exact .nil
  | cons q parts ih =>
    have rest := ih (fun q mem => kept q (List.mem_cons_of_mem _ mem))
      fun q mem => dropped q (List.mem_cons_of_mem _ mem)
    rw [List.map_cons, List.flatMap_cons]
    cases drops : R.drops p q.1 with
    | true =>
      rw [List.filter_cons_of_neg (by simp [drops]), dropped q List.mem_cons_self drops]
      exact rest
    | false =>
      obtain ⟨core, at_, underway⟩ := kept q List.mem_cons_self drops
      rw [List.filter_cons_of_pos (by simp [drops]), at_]
      exact .cons underway rest

/-- A block is rewritten when its statements are. -/
theorem underway_block {p : γ} {acted : Prop} {waits : NodeId → Prop} {out : Block}
    (isStatic : out.isStatic = before.isStatic)
    (new : out = before ∨ mark ≤ out.id ∧ R.Acts p (.block before))
    (stmts : List.Forall₂ (R.Underway mark acted (Noted []) (R.inside p (.block before)))
      ((before.stmts.filter (!R.drops (R.inside p (.block before)) ·)).map .stmt)
      (out.stmts.map .stmt)) :
    R.Underway mark acted waits p (.block before) (.block out) := by
  refine .around rfl (congrArg Node.Label.block isStatic) (new.imp_left (congrArg Node.block)) ?_
  refine stmts.imp fun s s' h => h.mono id ?_
  rintro e - ⟨fix, none, -⟩
  exact (List.not_mem_nil none).elim

/-- At the end of the visit of a block, it has been rewritten. -/
theorem repair_rewrites (sparing : R.Sparing) (comes : R.Comes due unit mark (.block before) above)
    (distinct : ((Node.unit unit).subtree.map Node.id).Nodup)
    (old : ∀ n ∈ (Node.unit unit).subtree, n.id < mark)
    (walked : (R.ledger unit mark).Walked above (.block before) (.block after))
    (new : after = before ∨ R.Acts (R.place above) (.block before)) :
    VisitM.Triple
      (fun site => (R.Order knows unit ((.block before, []) :: ws) was path site ∧
          R.Settled mark (site.cursor.asked ≠ []) before after above (nearestFixes site.cursor.waiting)) ∧
        (R.ledger unit mark).Holds (.block before :: above)
          (after.parts (fun _ => false) + rest) site)
      (repair .standard before after : PassM σ Block)
      fun out site => R.Order knows unit ((.block before, []) :: ws) was path site ∧
        R.Underway mark (site.cursor.asked ≠ []) (fun _ => False) (R.place above) (.block before)
          (.block out) := by
  unfold repair
  refine ((take_rewrites.and (Regime.take_holds (after.parts (fun _ => false) + rest))).mono
    (fun _ h => ⟨h, h.2⟩) fun _ _ h => h).bind fun pending => ?_
  cases pending with
  | none =>
    refine .pure fun site h => ?_
    obtain ⟨⟨order, settled⟩, -⟩ := h
    refine ⟨order, underway_block (Node.Label.block.inj walked.label) ?_ ?_⟩
    · rcases walked.became.new with same | late
      · exact .inl (Node.block.inj same)
      · exact new.imp_right fun acts => ⟨late, acts⟩
    · have all : before.stmts.filter (!R.drops (R.place (.block before :: above)) ·) = before.stmts := by
        refine List.filter_eq_self.mpr fun s mem => ?_
        cases drops : R.drops (R.place (.block before :: above)) s with
        | true =>
          obtain ⟨fix, none, -⟩ := settled.drops s mem drops
          cases none
        | false => rfl
      show List.Forall₂ _ ((before.stmts.filter (!R.drops (R.place (.block before :: above)) ·)).map _) _
      rw [all, List.forall₂_map_left_iff, List.forall₂_map_right_iff]
      exact settled.stmts
  | some pending =>
    rintro site out site' ⟨⟨order, settled⟩, allows, holds⟩ ran
    obtain ⟨path, _, ran₁, ran⟩ := VisitM.ok_of_bind ran
    cases ran₁
    obtain ⟨c, site₁, ran, done⟩ := VisitM.ok_of_bind ran
    cases done
    have same {fix : PendingFix} : fix ∈ pending.ordered ↔ fix ∈ pending.fixes :=
      pending.ordered_perm.mem_iff
    have anchored : ∀ fix ∈ pending.ordered,
        (R.ledger unit mark).Anchored (.block before :: above) fix :=
      fun fix mem => allows.anchored fix (same.mp mem)
    have loaded : after.parts (fun _ => false) + PendingFix.loadOf (fun _ => false) pending.ordered +
        rest = after.parts (fun _ => false) + rest +
          PendingFix.loadOf (fun _ => false) pending.fixes := by
      rw [PendingFix.loadOf_perm pending.ordered_perm]
      abel
    have repairing := Regime.Repairing.start (ledger_lawful distinct old) comes.stands walked anchored
      (holds.weaken (le_of_eq loaded)) site.cursor.path
    have start : R.Halfway knows unit mark (R.place (.block before :: above))
        ((.block before, []) :: ws) was path pending.ordered (Repair.visited before after) site := by
      refine ⟨order, fun q mem _ => ?_, fun q mem drops => .inr ?_⟩ <;>
        obtain ⟨r, hr, rfl⟩ := List.mem_map.mp mem
      · refine ⟨r.2, rfl, ((List.forall₂_iff_zip.mp settled.stmts).2 hr).mono id ?_⟩
        rintro e - ⟨fix, mem, at_⟩
        exact ⟨fix, same.mpr mem, at_⟩
      · obtain ⟨fix, mem, at_⟩ := settled.drops _ (List.of_mem_zip hr).1 drops
        exact ⟨⟨r.2, rfl⟩, fix, same.mpr mem, at_⟩
    -- If there is nothing to repair, the block stays as the visit left it.
    have changes : c.block = before ∨ R.Acts (R.place above) (.block before) := by
      cases todo : pending.ordered with
      | nil =>
        rw [todo] at ran
        cases ran
        exact new
      | cons fix todo' =>
        obtain ⟨b, up, at_, inside⟩ := (anchored fix (todo ▸ List.mem_cons_self)).anchor
        cases at_
        exact .inr ((anchored fix (todo ▸ List.mem_cons_self)).fits.acts sparing inside)
    obtain ⟨parts, repaired, ended⟩ := start.run sparing comes distinct old anchored
      (PendingFixes.ordered_precedes allows.distinct) repairing ran
    refine ⟨ended.order, underway_block repaired.isStatic ?_ ?_⟩
    · rcases repaired.new with same | late
      · exact .inl same
      · exact changes.imp_right fun acts => ⟨late, acts⟩
    · rw [← repaired.anchors, repaired.tracks.stmts]
      refine forall₂_of_segments ended.kept fun q mem drops => ?_
      refine (ended.dropped q mem drops).resolve_right ?_
      rintro ⟨-, fix, none, -⟩
      cases none

end

end Rewriting

end JavaMend
