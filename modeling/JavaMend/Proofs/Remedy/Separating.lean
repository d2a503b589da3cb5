import JavaMend.Proofs.Remedy.Completing

/-!
# Putting in separators

When the visit of a block ends, the separators that wait there are put in one after the
other. A check that waits is still in the statement as it was, whatever the ones before
have made of the statement: they were for checks around it, or beside it
(`PartialPath.Halfway`).
-/

namespace JavaMend

/-- What stands below a node is the child of something there. -/
theorem Node.exists_parent {n m : Node} (mem : m ∈ n.subtree) (other : m ≠ n) :
    ∃ k ∈ n.subtree, m ∈ k.children := by
  induction n using Node.inductionOn with
  | step n ih =>
    rw [subtree_eq, List.mem_cons] at mem
    obtain ⟨c, hc, below⟩ := List.mem_flatMap.mp (mem.resolve_left other)
    by_cases same : m = c
    · exact ⟨n, mem_subtree_self, same ▸ hc⟩
    · obtain ⟨k, hk, child⟩ := ih c hc below same
      exact ⟨k, mem_subtree_of_child hc hk, child⟩

namespace PathTraversal.PartialPath

variable {matcher : CallMatcher} {mark start next used : NodeId} {before after : Block}
  {fix : PendingFix} {todo : List PendingFix} {c c' : Repair}
  {parts parts' : List (Stmt × Segment)} {site site' : Site Note Unit}

/-! ## What is planned -/

/-- No check of the second directory stands around one of the first. -/
def NotAround (matcher : CallMatcher) (root : Node) (d d' : Expr) : Prop :=
  ∀ e e', .expr e ∈ root.subtree → .expr e' ∈ root.subtree → directory? matcher e = some d →
    directory? matcher e' = some d' → .expr e ∉ (Node.expr e').subtree

/-- An intact check stays one when the separator is put behind another directory that it does
not stand around. -/
theorem Replaced.check {root out out' : Node} {d d' e e' : Expr}
    (h : Replaced next used d out out') (distinct : (root.subtree.map Node.id).Nodup)
    (order : NotAround matcher root d d') (inside : .expr e ∈ root.subtree)
    (inside' : .expr e' ∈ root.subtree) (check : directory? matcher e = some d)
    (check' : directory? matcher e' = some d') (intact : .expr e' ∈ out.subtree) :
    .expr e' ∈ out'.subtree := by
  refine h.kept _ intact ?_
  by_cases same : Node.expr d = .expr e'
  · exact .inr (same ▸ Node.mem_subtree_self)
  · refine .inl fun below => order e e' inside inside' check check' ?_
    obtain ⟨k, hk, child⟩ := Node.exists_parent below same
    have parent := Node.eq_of_child distinct inside (Node.subtree_trans inside' hk)
      (directory_mem_children check) child
    exact parent ▸ hk

/-- The directories of the checks of a block, outermost first in each statement. -/
theorem notAround_noted (anchor : Stmt)
    (distinct : ((Node.block before).subtree.map Node.id).Nodup) :
    (noted matcher anchor (.block before) (Node.block before).children).Pairwise fun a b =>
      NotAround matcher (.block before) a.2 b.2 := by
  have own {e e' d : Expr} (check : directory? matcher e = some d)
      (check' : directory? matcher e' = some d) (inside : .expr e ∈ (Node.block before).subtree)
      (inside' : .expr e' ∈ (Node.block before).subtree) : e' = e :=
    Node.expr.inj (Node.eq_of_child distinct inside' inside (directory_mem_children check')
      (directory_mem_children check))
  have below {c : Node} {e : Expr} (hc : c ∈ (Node.block before).children) (he : e ∈ c.surface) :
      .expr e ∈ (Node.block before).subtree :=
    Node.mem_subtree_of_child hc (Node.mem_subtree_of_surface he)
  unfold noted
  rw [List.pairwise_flatMap]
  refine ⟨fun c hc => ?_, (pairwise_children distinct).imp_of_mem fun {c c'} hc hc' apart => ?_⟩
  · rw [List.pairwise_map]
    unfold directories
    rw [List.pairwise_filterMap]
    refine (surface_order (Node.distinct_child distinct hc)).imp_of_mem ?_
    intro e e' he he' order d check d' check' a a' ha ha' of_a of_a'
    rw [own check of_a (below hc he) ha, own check' of_a' (below hc he') ha']
    exact order
  · intro a ha b hb
    obtain ⟨d, hd, rfl⟩ := List.mem_map.mp ha
    obtain ⟨d', hd', rfl⟩ := List.mem_map.mp hb
    obtain ⟨e, he, check⟩ := check_of_mem hd
    obtain ⟨e', he', check'⟩ := check_of_mem hd'
    intro a a' ha ha' of_a of_a' inside
    rw [own check of_a (below hc he) ha, own check' of_a' (below hc' he') ha'] at inside
    exact apart _ (Node.mem_subtree_of_surface he) _
      (Node.subtree_trans (Node.mem_subtree_of_surface he') inside) rfl

/-- A separator that is to be put behind the directory of a check. -/
structure Planned (matcher : CallMatcher) (mark next : NodeId) (before : Block) (fix : PendingFix) :
    Prop where
  anchor : fix.anchor ∈ before.stmts
  check : ∃ e ∈ (Node.stmt fix.anchor).surface, directory? matcher e = some fix.tainted
  new : ∃ new, fix.kind = .replace new [Fqn.file] ∧ IsSum mark fix.tainted new ∧
    (∀ m ∈ (Node.expr new).subtree, m.id < next) ∧ (Node.expr new).ToldApart

theorem Planned.mono (h : Planned matcher mark next before fix) (le : next ≤ used) :
    Planned matcher mark used before fix := by
  obtain ⟨new, kind, made, early, told⟩ := h.new
  exact ⟨h.anchor, h.check, new, kind, made, fun m hm => Nat.lt_of_lt_of_le (early m hm) le, told⟩

/-- What was noted for the children of a block. -/
theorem planned_of_noted {anchor : Stmt} {fixes : List PendingFix}
    (completions : List.Forall₂ (Completion mark next)
      (noted matcher anchor (.block before) (Node.block before).children) fixes) :
    (∀ fix ∈ fixes, Planned matcher mark next before fix) ∧
      (∀ s ∈ before.stmts, ∀ d ∈ directories matcher (.stmt s), ∃ fix ∈ fixes, fix.tainted = d) ∧
      fixes.map (fun fix => (fix.anchor, fix.tainted)) =
        noted matcher anchor (.block before) (Node.block before).children := by
  refine ⟨fun fix mem => ?_, fun s hs d hd => ?_, ?_⟩
  · obtain ⟨order, horder, completion⟩ := exists_of_forall₂ completions mem
    obtain ⟨c, hc, horder⟩ := List.mem_flatMap.mp horder
    obtain ⟨s, hs, rfl⟩ := List.mem_map.mp hc
    obtain ⟨d, hd, rfl⟩ := List.mem_map.mp horder
    have at_ : fix.anchor = s := completion.anchor
    have of_ : fix.tainted = d := completion.tainted
    refine ⟨at_ ▸ hs, ?_, of_ ▸ completion.new⟩
    rw [at_, of_]
    exact check_of_mem hd
  · have ordered : (s, d) ∈ noted matcher anchor (.block before) (Node.block before).children :=
      List.mem_flatMap.mpr ⟨.stmt s, List.mem_map_of_mem hs, List.mem_map.mpr ⟨d, hd, rfl⟩⟩
    obtain ⟨fix, mem, completion⟩ := exists_of_forall₂ completions.flip ordered
    exact ⟨fix, mem, completion.tainted⟩
  · generalize noted matcher anchor (.block before) (Node.block before).children = orders
      at completions
    induction completions with
    | nil => rfl
    | cons first _ ih =>
      rw [List.map_cons, ih, first.anchor, first.tainted]

/-! ## Putting them in -/

/-- What has become of a statement of a block, while the separators `todo` are still to be put
in. -/
structure Ongoing (matcher : CallMatcher) (mark next : NodeId) (todo : List PendingFix)
    (s core : Stmt) : Prop where
  under : Underway matcher mark (fun id => ∃ fix ∈ todo, fix.tainted.id = id) (false, .stmt s)
    (.stmt core)
  apart : (Node.stmt core).ToldApart
  early : ∀ m ∈ (Node.stmt core).subtree, m.id < next
  intact : ∀ fix ∈ todo, fix.anchor = s → ∀ e ∈ (Node.stmt s).surface,
    directory? matcher e = some fix.tainted → .expr e ∈ (Node.stmt core).subtree

/-- A block in repair, while the separators `todo` are still to be put in. -/
structure Halfway (matcher : CallMatcher) (mark start : NodeId) (before after : Block)
    (todo : List PendingFix) (c : Repair) (parts : List (Stmt × Segment)) (next : NodeId) :
    Prop where
  tracks : Repair.Tracks [] next c parts
  anchors : parts.map (·.1) = before.stmts
  cores : ∀ p ∈ parts, ∃ core, p.2 = .ofStmt core ∧ Ongoing matcher mark next todo p.1 core
  isStatic : c.block.isStatic = after.isStatic
  new : c.block = after ∨ start ≤ c.block.id
  early : c.block.id < next
  started : start ≤ next

/-- A statement that is not the one to be changed. -/
theorem Ongoing.elsewhere {s core : Stmt} (h : Ongoing matcher mark next (fix :: todo) s core)
    (distinct : ((Node.block before).subtree.map Node.id).Nodup)
    (planned : Planned matcher mark next before fix) (mem : s ∈ before.stmts)
    (other : s ≠ fix.anchor) (le : next ≤ used) : Ongoing matcher mark used todo s core := by
  refine ⟨h.under.congr fun m hm waits => ?_, h.apart,
    fun m hm => Nat.lt_of_lt_of_le (h.early m hm) le,
    fun later hlater => h.intact later (List.mem_cons_of_mem _ hlater)⟩
  obtain ⟨later, hlater, same⟩ := waits
  rcases List.mem_cons.mp hlater with rfl | hlater
  · obtain ⟨e, he, check⟩ := planned.check
    have here : Node.expr later.tainted ∈ (Node.stmt later.anchor).subtree :=
      mem_subtree_of_directories (List.mem_filterMap.mpr ⟨e, he, check⟩)
    have there : Node.stmt later.anchor ∈ (Node.block before).children :=
      List.mem_map_of_mem planned.anchor
    have listed : Node.stmt s ∈ (Node.block before).children := List.mem_map_of_mem mem
    obtain ⟨front, back, split⟩ := List.append_of_mem there
    have beside : Node.stmt s ∈ front ++ back := by
      rw [split, List.mem_append, List.mem_cons] at listed
      rw [List.mem_append]
      rcases listed with first | here | last
      · exact .inl first
      · exact (other (Node.stmt.inj here)).elim
      · exact .inr last
    exact ((Node.distinct_of_split split distinct).2 _ beside m hm _ here same.symm).elim
  · exact ⟨later, hlater, same⟩

/-- The statement that is changed. -/
theorem Ongoing.replaced {core stmt : Stmt} {new : Expr}
    (h : Ongoing matcher mark next (fix :: todo) fix.anchor core)
    (distinct : ((Node.block before).subtree.map Node.id).Nodup)
    (old : ∀ m ∈ (Node.block before).subtree, m.id < mark) (from_ : mark ≤ next)
    (planned : Planned matcher mark next before fix)
    (kind : fix.kind = .replace new [Fqn.file])
    (order : ∀ later ∈ todo, NotAround matcher (.block before) fix.tainted later.tainted)
    (changes : core.replaceExpr? fix.tainted new next = (some stmt, used)) :
    Ongoing matcher mark used todo fix.anchor stmt := by
  obtain ⟨e, he, check⟩ := planned.check
  obtain ⟨_, kind', made, fresh, told⟩ := planned.new
  cases kind.symm.trans kind'
  have child : Node.stmt fix.anchor ∈ (Node.block before).children :=
    List.mem_map_of_mem planned.anchor
  have below {e : Expr} (he : e ∈ (Node.stmt fix.anchor).surface) :
      .expr e ∈ (Node.block before).subtree :=
    Node.mem_subtree_of_child child (Node.mem_subtree_of_surface he)
  obtain ⟨under, replaced⟩ := h.under.replaced (Node.distinct_child distinct child)
    (fun m hm => old m (Node.mem_subtree_of_child child hm)) check (Node.mem_subtree_of_surface he)
    (h.intact fix List.mem_cons_self rfl e he check) made from_ fresh told h.apart h.early
    (Stmt.replaceExpr?_node changes)
  refine ⟨under.congr ?_, replaced.apart, replaced.early, fun later hlater at_ e' he' check' => ?_⟩
  · rintro m - ⟨⟨later, hlater, same⟩, other⟩
    rcases List.mem_cons.mp hlater with rfl | hlater
    · exact (other same.symm).elim
    · exact ⟨later, hlater, same⟩
  · exact replaced.check distinct (order later hlater) (below he) (below he') check check'
      (h.intact later (List.mem_cons_of_mem _ hlater) at_ e' he' check')

/-- Asking for imports does not matter. -/
theorem waits_of_asks {w : List (Node × List PendingFix)} (h : Waits mark w site)
    (asks : site.Asks site') : Waits mark w site' := by
  obtain ⟨le, fqns, same⟩ := asks
  rw [same]
  exact ⟨h.legible.requestImports _, (site.cursor.waiting_requestImports fqns).trans h.waiting,
    trivial, Nat.le_trans h.late le⟩

/-- Putting in one separator. -/
theorem Halfway.step (h : Halfway matcher mark start before after (fix :: todo) c parts site.next)
    (distinct : ((Node.block before).subtree.map Node.id).Nodup)
    (old : ∀ m ∈ (Node.block before).subtree, m.id < mark) (late : mark ≤ start)
    (planned : Planned matcher mark site.next before fix)
    (order : ∀ later ∈ todo, NotAround matcher (.block before) fix.tainted later.tainted)
    (ran : Repair.apply .standard c fix site = .ok c' site') :
    site.Asks site' ∧
      ∃ parts', Halfway matcher mark start before after todo c' parts' site'.next := by
  obtain ⟨new, kind, -⟩ := planned.new
  obtain ⟨⟨anchor, g⟩, listed, at_⟩ := List.mem_map.mp (h.anchors.symm ▸ planned.anchor)
  obtain rfl : anchor = fix.anchor := at_
  obtain ⟨core, made, ongoing⟩ := h.cores _ listed
  obtain rfl : g = .ofStmt core := made
  obtain ⟨pre, post, rfl⟩ := List.append_of_mem listed
  have nothing : fix.kind.written = [] := by rw [kind]; rfl
  have tracks : Repair.Tracks (fix.kind.written.map (·.id) ++ []) site.next c
      (pre ++ (fix.anchor, .ofStmt core) :: post) := by
    rw [nothing]
    exact h.tracks
  obtain ⟨asks, cases_⟩ := Repair.apply_tracks tracks ran
  refine ⟨asks, ?_⟩
  rcases cases_ with ⟨-, misses, -⟩ |
    ⟨used, front, core', back, at_, le, step, id, isStatic, tracks'⟩
  · -- The check is there, so its directory is found.
    obtain ⟨e, he, check⟩ := planned.check
    have there := Node.subtree_trans (ongoing.intact fix List.mem_cons_self rfl e he check)
      (Node.mem_subtree_of_child (directory_mem_children check) Node.mem_subtree_self)
    have absent := Stmt.absent_of_replaceExpr? (misses.2 new _ kind) _ there
    rw [Node.same_self] at absent
    cases absent
  · cases step with
    | @replace new' imports stmt replaced kind' below changes =>
      cases kind.symm.trans kind'
      have grown : site.next ≤ site'.next := asks.1
      have bound : replaced ≤ site'.next := at_ ▸ Nat.le_succ_of_le below
      have anchors := h.anchors
      rw [List.map_append, List.map_cons] at anchors
      have nodup := Node.stmts_nodup distinct
      rw [← anchors] at nodup
      have others : ∀ p ∈ pre ++ post, ∃ core, p.2 = .ofStmt core ∧
          Ongoing matcher mark site'.next todo p.1 core := by
        intro p mem
        have listed : p ∈ pre ++ (fix.anchor, Segment.ofStmt core) :: post := by
          simp only [List.mem_append, List.mem_cons] at mem ⊢
          tauto
        obtain ⟨core, made, ongoing⟩ := h.cores p listed
        refine ⟨core, made, ongoing.elsewhere distinct planned ?_ (fun same => ?_) grown⟩
        · rw [← h.anchors]
          exact List.mem_map_of_mem listed
        · have front := List.nodup_middle.mp nodup
          rw [← List.map_append] at front
          have mem : p.1 ∈ (pre ++ post).map (·.1) := List.mem_map_of_mem mem
          exact (List.nodup_cons.mp front).1 (same ▸ mem)
      refine ⟨_, tracks', ?_, ?_, isStatic.trans h.isStatic, .inr ?_, ?_,
        Nat.le_trans h.started grown⟩
      · rw [List.map_append, List.map_cons]
        exact anchors
      · intro p mem
        rw [List.mem_append, List.mem_cons] at mem
        rcases mem with mem | rfl | mem
        · exact others p (List.mem_append_left _ mem)
        · refine ⟨stmt, rfl, ?_⟩
          have from_ := Nat.le_trans late h.started
          have made := ongoing.replaced distinct old from_ planned kind order changes
          exact { made with early := fun m hm => Nat.lt_of_lt_of_le (made.early m hm) bound }
        · exact others p (List.mem_append_right _ mem)
      · rw [id]
        exact Nat.le_trans h.started le
      · rw [id, at_]
        exact Nat.lt_succ_self used
    | extract kind' => cases kind.symm.trans kind'
    | guardAfter kind' => cases kind.symm.trans kind'
    | insertAfter kind' => cases kind.symm.trans kind'
    | insertBefore kind' => cases kind.symm.trans kind'
    | remove kind' => cases kind.symm.trans kind'

/-- Putting in all of them. -/
theorem Halfway.run (h : Halfway matcher mark start before after todo c parts site.next)
    {w : List (Node × List PendingFix)} (waits : Waits mark w site)
    (distinct : ((Node.block before).subtree.map Node.id).Nodup)
    (old : ∀ m ∈ (Node.block before).subtree, m.id < mark) (late : mark ≤ start)
    (planned : ∀ fix ∈ todo, Planned matcher mark site.next before fix)
    (order : todo.Pairwise fun fix later =>
      NotAround matcher (.block before) fix.tainted later.tainted)
    (ran : todo.foldlM (Repair.apply .standard) c site = .ok c' site') :
    Waits mark w site' ∧ site.next ≤ site'.next ∧
      ∃ parts', Halfway matcher mark start before after [] c' parts' site'.next := by
  induction todo generalizing c parts site with
  | nil =>
    cases ran
    exact ⟨waits, Nat.le_refl _, parts, h⟩
  | cons fix todo ih =>
    rw [List.foldlM_cons] at ran
    obtain ⟨first, later⟩ := List.pairwise_cons.mp order
    obtain ⟨c₁, site₁, ran₁, ran₂⟩ := VisitM.ok_of_bind ran
    obtain ⟨asks, parts₁, h₁⟩ :=
      h.step distinct old late (planned fix List.mem_cons_self) first ran₁
    obtain ⟨waits', le, parts', h'⟩ := ih h₁ (waits_of_asks waits asks)
      (fun fix mem => (planned fix (List.mem_cons_of_mem _ mem)).mono asks.1) later ran₂
    exact ⟨waits', Nat.le_trans asks.1 le, parts', h'⟩

/-! ## The end of the visit of a block -/

theorem Descended.stmts (h : Descended matcher mark start next (.block before) (.block after)) :
    List.Forall₂ (fun s t => Visited matcher mark start next (.stmt s) (.stmt t)) before.stmts
      after.stmts := by
  have children : List.Forall₂ (Visited matcher mark start next) (before.stmts.map .stmt)
    (after.stmts.map .stmt) := h.children
  rwa [List.forall₂_map_left_iff, List.forall₂_map_right_iff] at children

/-- Before the first separator is put in. -/
theorem Halfway.of_descended (h : Descended matcher mark start next (.block before) (.block after))
    (distinct : ((Node.block before).subtree.map Node.id).Nodup)
    (old : ∀ m ∈ (Node.block before).subtree, m.id < mark) (late : mark ≤ start)
    (started : start ≤ next)
    (noted : ∀ s ∈ before.stmts, ∀ d ∈ directories matcher (.stmt s), ∃ fix ∈ todo,
      fix.tainted = d) (path : Path) :
    Halfway matcher mark start before after todo (.start path before after)
      (Repair.visited before after) next := by
  have stmts := h.stmts
  have old_stmt : ∀ s ∈ before.stmts, s.id < mark := fun s mem =>
    old (.stmt s) (Node.mem_subtree_of_child (List.mem_map_of_mem mem) Node.mem_subtree_self)
  have ids : (after.stmts.map (·.id)).Nodup := by
    have nodup := h.ids
    change ((after.stmts.map Node.stmt).map Node.id).Nodup at nodup
    rwa [List.map_map] at nodup
  have bounded : ∀ id ∈ after.stmts.map (·.id), id < next := by
    intro id mem
    obtain ⟨t, ht, rfl⟩ := List.mem_map.mp mem
    exact h.early (.stmt t) (Node.mem_subtree_of_child (List.mem_map_of_mem ht)
      Node.mem_subtree_self)
  have visited : Repair.Visited mark before after := by
    refine ⟨stmts.imp fun s t here => ?_, Node.distinct_stmts distinct, old_stmt⟩
    rcases here.new with same | new
    · exact .inl (Node.stmt.inj same)
    · exact .inr (Nat.le_trans late new)
  refine ⟨?_, ?_, fun p mem => ?_, rfl, .inl rfl, h.early _ Node.mem_subtree_self, started⟩
  · refine Repair.tracks_start visited ?_ (fun id none => (List.not_mem_nil none).elim) ?_
      (Nat.le_trans late started)
    · rw [List.append_nil]
      exact ids
    · rw [List.append_nil]
      exact bounded
  · unfold Repair.visited
    rw [List.map_map]
    exact List.map_fst_zip (Nat.le_of_eq stmts.length_eq)
  · obtain ⟨⟨s, t⟩, listed, rfl⟩ := List.mem_map.mp mem
    have here : Visited matcher mark start next (.stmt s) (.stmt t) :=
      (List.forall₂_iff_zip.mp stmts).2 listed
    refine ⟨t, rfl, here.under.congr ?_, here.apart, here.early, fun fix _ _ e he _ => ?_⟩
    · rintro m - ⟨d, hd, same⟩
      obtain ⟨fix, hfix, rfl⟩ := noted s (List.of_mem_zip listed).1 d hd
      exact ⟨fix, hfix, same⟩
    · exact Node.mem_subtree_of_surface (here.surface he)

/-- When all separators are put in. -/
theorem Halfway.visited (h : Halfway matcher mark start before after [] c parts next)
    (descended : Descended matcher mark start next (.block before) (.block after))
    (late : mark ≤ start) : Visited matcher mark start next (.block before) (.block c.block) := by
  have cores : List.Forall₂ (Ongoing matcher mark next []) before.stmts c.block.stmts := by
    rw [← h.anchors, h.tracks.stmts]
    have cores := h.cores
    clear h
    induction parts with
    | nil => exact .nil
    | cons p parts ih =>
      obtain ⟨core, made, ongoing⟩ := cores p List.mem_cons_self
      rw [List.map_cons, List.flatMap_cons, made]
      exact .cons ongoing (ih fun p mem => cores p (List.mem_cons_of_mem _ mem))
  have child {k : Node} (mem : k ∈ (Node.block c.block).children) : ∃ s t, k = .stmt t ∧
      Ongoing matcher mark next [] s t := by
    obtain ⟨t, ht, rfl⟩ := List.mem_map.mp mem
    obtain ⟨s, -, ongoing⟩ := exists_of_forall₂ cores ht
    exact ⟨s, t, rfl, ongoing⟩
  have new : Node.block c.block = .block before ∨ start ≤ c.block.id := by
    rcases h.new with same | new
    · exact same ▸ descended.new
    · exact .inr new
  refine ⟨.plain (fun impossible => Bool.noConfusion impossible) ?_ ?_ ?_, nofun, ?_, new, ?_, ?_⟩
  · show Node.Label.block c.block.isStatic = _
    rw [h.isStatic]
    exact descended.label
  · exact new.imp_right (Nat.le_trans late)
  · show List.Forall₂ _ ((before.stmts.map Node.stmt).map fun k => (false, k))
      (c.block.stmts.map Node.stmt)
    rw [List.map_map, List.forall₂_map_left_iff, List.forall₂_map_right_iff]
    refine cores.imp fun s t ongoing => ongoing.under.congr ?_
    rintro m - ⟨fix, none, -⟩
    cases none
  · rw [Node.surface_block]
    exact List.nil_subset _
  · refine Node.toldApart_of_children (fun a ha b hb same => ?_) fun k hk => ?_
    · obtain ⟨a, ma, rfl⟩ := List.mem_map.mp ha
      obtain ⟨b, mb, rfl⟩ := List.mem_map.mp hb
      have ids := (List.nodup_append.mp h.tracks.distinct).1
      exact congrArg _ (List.inj_on_of_nodup_map ids ma mb (Node.id_of_same same))
    · obtain ⟨s, t, rfl, ongoing⟩ := child hk
      exact ongoing.apart
  · intro m mem
    rw [Node.subtree_eq, List.mem_cons] at mem
    rcases mem with rfl | mem
    · exact h.early
    · obtain ⟨k, hk, mem⟩ := List.mem_flatMap.mp mem
      obtain ⟨s, t, rfl, ongoing⟩ := child hk
      exact ongoing.early m mem

/-- At the end of the visit of a block the separators that wait there are put in. -/
theorem repair_separates {anchor : Stmt} {fixes : List PendingFix}
    {w : List (Node × List PendingFix)} (distinct : ((Node.block before).subtree.map Node.id).Nodup)
    (old : ∀ m ∈ (Node.block before).subtree, m.id < mark) (late : mark ≤ start) :
    VisitM.Triple
      (fun site => List.Forall₂ (Completion mark site.next)
          (noted matcher anchor (.block before) (Node.block before).children) fixes ∧
        Waits mark ((.block before, fixes) :: w) site ∧ start ≤ site.next ∧
        Descended matcher mark start site.next (.block before) (.block after))
      (repair .standard before after : PassM Unit Block) fun out site =>
        Waits mark ((.block before, []) :: w) site ∧ start ≤ site.next ∧
          Visited matcher mark start site.next (.block before) (.block out) := by
  rintro site out site' ⟨completions, waits, started, descended⟩ ran
  obtain ⟨planned, all, orders⟩ := planned_of_noted completions
  have order : fixes.Pairwise fun fix later =>
      NotAround matcher (.block before) fix.tainted later.tainted := by
    have pairwise := @notAround_noted matcher before anchor distinct
    rwa [← orders, List.pairwise_map] at pairwise
  have halfway := Halfway.of_descended descended distinct old late started all
  unfold repair at ran
  obtain ⟨pending, between, taken, ran⟩ := VisitM.ok_of_bind ran
  obtain ⟨same, taken_waits⟩ := Site.Waits.take _ _ _ waits taken
  have at_ : between.next = site.next := by
    cases taken
    rfl
  cases pending with
  | none =>
    obtain rfl : [] = fixes := same
    cases ran
    rw [at_]
    exact ⟨taken_waits, started, (halfway site.cursor.path).visited descended late⟩
  | some pending =>
    obtain rfl : pending.fixes = fixes := same
    obtain ⟨path, _, walked, ran⟩ := VisitM.ok_of_bind ran
    cases walked
    obtain ⟨c, _, ran, done⟩ := VisitM.ok_of_bind ran
    cases done
    have replaces : ∀ fix ∈ pending.fixes, fix.kind.tag = .replace := by
      intro fix mem
      obtain ⟨new, kind, -⟩ := (planned fix mem).new
      rw [kind]
      rfl
    rw [PendingFixes.ordered_eq_self replaces] at ran
    rw [← at_] at halfway planned descended started
    obtain ⟨waits', le, parts, ended⟩ :=
      (halfway between.cursor.path).run taken_waits distinct old late planned order ran
    refine ⟨waits', Nat.le_trans started le, ended.visited ?_ late⟩
    exact { descended with
      children := descended.children.imp fun _ _ h => h.mono (Nat.le_refl _) le
      early := fun m hm => Nat.lt_of_lt_of_le (descended.early m hm) le }

/-! ## The visit -/

variable {n out : Node} {env : PassEnv} {anchor : Stmt} {fixes : List PendingFix}
  {w : List (Node × List PendingFix)}

/-- What stands at the place of a directory that waits. -/
theorem Underway.at_place {waits : NodeId → Prop} {place : Bool}
    (h : Underway matcher mark waits (false, n) out) (still : place = true → waits n.id) :
    Underway matcher mark waits (place, n) out := by
  cases h with
  | plain _ label new children => exact .plain still label new children

/-- Outside of blocks, what a descent makes of a node stays. -/
theorem Descended.visited (h : Descended matcher mark start next n out) (late : mark ≤ start)
    (open_ : n.block? = none) : Visited matcher mark start next n out := by
  refine ⟨.plain (fun impossible => Bool.noConfusion impossible) h.label
    (h.new.imp_right (Nat.le_trans late)) ?_, h.kept, h.surface, h.new, h.apart, h.early⟩
  unfold places
  rw [List.forall₂_map_left_iff, List.forall₂_iff_zip]
  refine ⟨h.children.length_eq, fun {c c'} pair => ?_⟩
  have visited := (List.forall₂_iff_zip.mp h.children).2 pair
  have mem := (List.of_mem_zip pair).1
  refine (visited.under.congr ?_).at_place fun at_ => ?_
  · rintro m - ⟨d, hd, same⟩
    refine ⟨d, ?_, same⟩
    rw [directories_open open_]
    exact List.mem_append_right _ (List.mem_flatMap.mpr ⟨c, mem, hd⟩)
  · obtain ⟨d, found, same⟩ := (Option.any_eq_true _ _).mp at_
    refine ⟨d, ?_, (Node.id_of_same same).symm⟩
    rw [directories_open open_, found]
    exact List.mem_append_left _ List.mem_cons_self

/-- Coming to a node that is no block: the separator is noted if it is a check. -/
theorem enter_open (distinct : (n.subtree.map Node.id).Nodup) (old : ∀ m ∈ n.subtree, m.id < mark)
    (within : Within anchor fixes n w)
    (apart : ∀ fix ∈ fixes, ∀ d ∈ directories env.matcher n, fix.tainted.id ≠ d.id) :
    VisitM.Triple (fun site => Waits mark ((n, []) :: w) site ∧ start ≤ site.next)
      ((remedy env).enter n) fun goOn site => goOn = true ∧ ∃ own,
        List.Forall₂ (Completion mark site.next)
          ((directoryOf? env.matcher n).toList.map fun d => (anchor, d)) own ∧
        Waits mark ((n, []) :: deposit own w) site ∧ start ≤ site.next := by
  have nothing (none : directoryOf? env.matcher n = none)
      (pure_ : (remedy env).enter n = pure true) :
      VisitM.Triple (fun site => Waits mark ((n, []) :: w) site ∧ start ≤ site.next)
        ((remedy env).enter n) fun goOn site => goOn = true ∧ ∃ own,
          List.Forall₂ (Completion mark site.next)
            ((directoryOf? env.matcher n).toList.map fun d => (anchor, d)) own ∧
          Waits mark ((n, []) :: deposit own w) site ∧ start ≤ site.next := by
    rw [pure_, none]
    exact .pure fun site h => ⟨rfl, [], .nil, by rw [deposit_nil]; exact h.1, h.2⟩
  cases n with
  | expr e =>
    cases check : directory? env.matcher e with
    | none =>
      refine nothing check ?_
      unfold remedy
      dsimp only
      rw [check]
    | some d =>
      have found : directoryOf? env.matcher (.expr e) = some d := check
      have child := directory_mem_children check
      have listed : d ∈ directories env.matcher (.expr e) := by
        rw [directories_open rfl, found]
        exact List.mem_append_left _ List.mem_cons_self
      refine (enter_check check (Node.distinct_child distinct child)
        (fun m hm => old m (Node.mem_subtree_of_child child hm)) within
        fun fix mem => apart fix mem d listed).mono (fun _ h => h) fun goOn site h => ?_
      obtain ⟨go, fix, completion, waits, le⟩ := h
      rw [found]
      exact ⟨go, [fix], .cons completion .nil, waits, le⟩
  | _ => exact nothing rfl rfl

theorem anchorFor_open (open_ : n.block? = none) (c : Node) : anchorFor anchor n c = anchor := by
  cases n with
  | block b => cases open_
  | _ => rfl

theorem noted_open (open_ : n.block? = none) (cs : List Node) :
    noted matcher anchor n cs = (cs.flatMap (directories matcher)).map fun d => (anchor, d) := by
  unfold noted
  simp only [anchorFor_open open_, List.map_flatMap]

/-- A check is not the check of a directory that stands in one of its children. -/
theorem directory_apart {c : Node} {d d' : Expr} (distinct : (n.subtree.map Node.id).Nodup)
    (check : directoryOf? matcher n = some d) (mem : c ∈ n.children)
    (below : d' ∈ directories matcher c) : d.id ≠ d'.id := by
  intro same
  cases n with
  | expr e =>
    obtain ⟨e', he', check'⟩ := check_of_mem below
    have child : Node.expr d ∈ (Node.expr e).children := directory_mem_children check
    have child' := directory_mem_children check'
    have inside := Node.mem_subtree_of_surface he'
    have there := Node.mem_subtree_of_child mem inside
    have equal : Node.expr d = .expr d' := Node.eq_of_id distinct
      (Node.mem_subtree_of_child child Node.mem_subtree_self)
      (Node.subtree_trans there (Node.mem_subtree_of_child child' Node.mem_subtree_self)) same
    have parent := Node.eq_of_child distinct Node.mem_subtree_self there child (equal ▸ child')
    exact Node.not_mem_of_child mem (parent ▸ inside)
  | _ => cases check

/-- Visiting a node, with all that is noted on the way. -/
theorem run_completes (standard : env.splicer = .standard) (n : Node)
    (distinct : (n.subtree.map Node.id).Nodup) (old : ∀ m ∈ n.subtree, m.id < mark) :
    NotesAll env mark n := by
  intro anchor fixes w within apart started site out site' ⟨waits, le⟩ ran
  -- What counts as new is at least as new as the marks.
  generalize at_ : site.next = start at le
  have late : mark ≤ start := at_ ▸ waits.late
  have completes : ∀ c ∈ n.children, NotesAll env mark c := fun c hc =>
    run_completes standard c (Node.distinct_child distinct hc)
      fun m hm => old m (Node.mem_subtree_of_child hc hm)
  rw [Visitor.run_eq] at ran
  unfold Remedy.visitor at ran
  obtain ⟨goOn, site₁, entered, ran⟩ := VisitM.ok_of_bind ran
  cases hb : n.block? with
  | none =>
    have around := within hb
    obtain ⟨rfl, own, completions, waits₁, le₁⟩ :=
      enter_open distinct old around apart ⟨waits, Nat.le_of_eq at_.symm⟩ entered
    rw [if_pos rfl] at ran
    obtain ⟨walked, site₂, descends, ran⟩ := VisitM.ok_of_bind ran
    have inside : ∀ c ∈ n.children, c.block? = none → ∀ more,
        Within (anchorFor anchor n c) (fixes ++ own ++ more) c
          (deposit more ((n, []) :: deposit own w)) := by
      intro c _ _ more
      rw [deposit_open hb, anchorFor_open hb]
      exact .inner hb ((around.deposit own).deposit more)
    have beside : ∀ fix ∈ fixes ++ own, ∀ c ∈ n.children, ∀ d ∈ directories env.matcher c,
        fix.tainted.id ≠ d.id := by
      intro fix mem c hc d hd
      rcases List.mem_append.mp mem with mem | mem
      · refine apart fix mem d ?_
        rw [directories_open hb]
        exact List.mem_append_right _ (List.mem_flatMap.mpr ⟨c, hc, hd⟩)
      · obtain ⟨order, horder, completion⟩ := exists_of_forall₂ completions mem
        obtain ⟨d', check, rfl⟩ := List.mem_map.mp horder
        rw [completion.tainted]
        exact directory_apart distinct (Option.mem_toList.mp check) hc hd
    obtain ⟨more, completions', waits₂, le₂, descended⟩ :=
      descend_visited distinct old inside beside completes waits₁.late ⟨waits₁, Nat.le_refl _⟩
        descends
    have done : out = walked ∧ site' = site₂ := by
      split at ran
      next => cases hb
      next =>
        cases ran
        exact ⟨rfl, rfl⟩
    obtain ⟨rfl, rfl⟩ := done
    refine ⟨own ++ more, ?_, ?_, Nat.le_trans le (Nat.le_trans le₁ le₂),
      (descended.visited waits₁.late hb).mono (Nat.le_trans le le₁) (Nat.le_refl _)⟩
    · rw [directories_open hb, List.map_append, ← noted_open hb]
      exact List.rel_append (completions.imp fun _ _ h => h.mono le₂) completions'
    · rw [← deposit_append, ← deposit_open hb]
      exact waits₂
  | some b =>
    cases n with
    | block b =>
      cases entered
      rw [if_pos rfl] at ran
      obtain ⟨walked, site₂, descends, ran⟩ := VisitM.ok_of_bind ran
      have inside : ∀ c ∈ (Node.block b).children, c.block? = none → ∀ more,
          Within (anchorFor anchor (.block b) c) ([] ++ more) c
            (deposit more ((.block b, []) :: w)) := by
        intro c hc _ more
        obtain ⟨s, mem, rfl⟩ := List.mem_map.mp hc
        exact .here mem
      obtain ⟨more, completions, waits₂, le₂, descended⟩ :=
        descend_visited distinct old inside (fun fix none => (List.not_mem_nil none).elim) completes
          late ⟨waits, Nat.le_of_eq at_.symm⟩ descends
      have sort := Node.sameSort_of_label descended.label
      cases walked with
      | block after =>
        rw [standard] at ran
        obtain ⟨_, _, left_, ran⟩ := VisitM.ok_of_bind ran
        cases left_
        obtain ⟨out, _, repaired, done⟩ := VisitM.ok_of_bind ran
        cases done
        obtain ⟨waits', le', visited⟩ :=
          repair_separates distinct old late ⟨completions, waits₂, le₂, descended⟩ repaired
        refine ⟨[], ?_, ?_, ?_, ?_⟩
        · rw [directories_block]
          exact .nil
        · rw [deposit_nil]
          exact waits'
        · exact Nat.le_trans le le'
        · exact visited.mono le (Nat.le_refl _)
      | _ => cases sort
    | _ => cases hb
termination_by sizeOf n
decreasing_by exact Node.sizeOf_lt_of_mem_children hc

/-! ## The whole -/

/-- A run apart is a visit at the end of a path, where nothing waits yet. -/
theorem runApart_ok (standard : env.splicer = .standard) (above : List Node) (block : Block)
    (site : Site Note Unit) : ∃ node inner,
      ((remedy env).visitor env).run (.block block)
        ⟨.ofPath ⟨.block block :: above⟩, site.next, ()⟩ = .ok node inner ∧
      runApart env (remedy env) () ⟨.block block :: above⟩ block site =
        .ok (node.block?.getD block, inner.cursor.takeImports.1, inner.own)
          { site with next := inner.next } := by
  obtain ⟨node, inner, ran, -, -⟩ := Visitor.run_succeeds (fun _ n hc => hc.push n)
    (fun _ hc => hc.pop) (Remedy.visitor_succeeds standard (remedy_succeeds env)) (.block block)
    ⟨.ofPath ⟨.block block :: above⟩, site.next, ()⟩ (Cursor.sound_ofPath _)
  refine ⟨node, inner, ran, ?_⟩
  have apart : (PassM.apart ⟨.block block :: above⟩ () (((remedy env).visitor env).run
      (.block block)) : PassM Unit _) site =
      .ok (node, inner.cursor, inner.own) { site with next := inner.next } := by
    unfold PassM.apart
    rw [ran]
  unfold runApart
  show EStateM.bind _ _ _ = _
  unfold EStateM.bind
  rw [apart]
  rfl

theorem waits_ofPath (above : List Node) (block : Block) (next : NodeId) :
    Waits next ((.block block, []) :: above.map fun n => (n, []))
      ⟨.ofPath ⟨.block block :: above⟩, next, ()⟩ where
  legible := Cursor.legible_ofPath _
  waiting := Cursor.waiting_ofPath _
  asked := trivial
  late := Nat.le_refl _

/-- Where no check is left, the visitor looks at nothing. -/
theorem enter_unchecked (unchecked : directoryOf? env.matcher n = none) :
    (remedy env).enter n = pure true := by
  cases n with
  | expr e =>
    have unchecked : directory? env.matcher e = none := unchecked
    unfold remedy
    dsimp only
    rw [unchecked]
  | _ => rfl

/-- The visitor that completes checks makes of a body the one in which all of them are, those
inside of receivers and of the directories of others included. A second visit leaves it as it
is. -/
theorem runApart_completes (limits : FlowLimits) (above : List Node) {block : Block}
    {site : Site Note Unit} (distinct : ((Node.block block).subtree.map Node.id).Nodup)
    (old : ∀ m ∈ (Node.block block).subtree, m.id < site.next) :
    let env : PassEnv := ⟨.standard, limits, .standard⟩
    ∃ out imports site',
      runApart env (remedy env) () ⟨.block block :: above⟩ block site =
        .ok (out, imports, ()) site' ∧
      (Node.block out).alike (completed .standard (.block block)) = true ∧
      ∀ (around : List Node) (later : Site Note Unit), ∃ imports' later',
        runApart env (remedy env) () ⟨.block out :: around⟩ out later =
          .ok (out, imports', ()) later' := by
  intro env
  have standard : env.splicer = .standard := rfl
  obtain ⟨node, inner, ran, whole⟩ := runApart_ok standard above block site
  -- No statement is around the body for which something could be noted.
  obtain ⟨-, -, -, -, visited⟩ := run_completes standard (.block block) distinct old
    ⟨0, .block block⟩ [] (above.map fun n => (n, [])) nofun nofun site.next
    ⟨waits_ofPath above block site.next, Nat.le_refl _⟩ ran
  have under : Underway .standard site.next (fun _ => False) (false, .block block) node :=
    visited.under.congr fun m _ ⟨d, waits, _⟩ => by
      rw [directories_block] at waits
      cases waits
  have sort := visited.sort
  cases node with
  | block out =>
    refine ⟨out, _, _, whole, under.alike_completed, fun around later => ?_⟩
    obtain ⟨node, inner', ran', whole'⟩ := runApart_ok standard around out later
    obtain ⟨rfl, -⟩ := Remedy.run_rests (.block out)
      (fun m hm => enter_unchecked (under.checked m hm)) (fun _ => rfl) _
      (waits_ofPath around out later.next) ran'
    exact ⟨_, _, whole'⟩
  | _ => cases sort

/-- A check with one in its receiver and another one in its directory:
`{ text(p.startsWith(d.getCanonicalPath()))
    .startsWith(new File(text(q.startsWith(d.getCanonicalPath()))).getCanonicalPath()); }` -/
theorem runApart_completes_nested :
    let startsWith : MethodRef := .method .string "startsWith" [.string] .boolean
    let check (id : NodeId) (receiver directory : Expr) : Expr :=
      ⟨id, .boolean, .call (some receiver) "startsWith" [directory] (some startsWith)⟩
    let canonical (id : NodeId) (file : Expr) : Expr :=
      ⟨id, .string, .call (some file) "getCanonicalPath" []
        (some (.method .file "getCanonicalPath" [] .string))⟩
    let text (id : NodeId) (e : Expr) : Expr := ⟨id, .string, .call none "text" [e] none⟩
    let inner (id : NodeId) (name : String) : Expr := check id ⟨id + 1, .string, .ident name none⟩
      (canonical (id + 2) ⟨id + 3, .file, .ident "d" none⟩)
    let outer : Expr := check 2 (text 3 (inner 4 "p"))
      (canonical 8 ⟨9, .file, .create "File" [text 10 (inner 11 "q")] none⟩)
    let block : Block := ⟨0, false, [⟨1, .expr outer⟩]⟩
    let env : PassEnv := ⟨.standard, ⟨64, 8⟩, .standard⟩
    let site : Site Note Unit := ⟨.ofPath ⟨[]⟩, 15, ()⟩
    (Node.block block).subtree.countP (fun n => (directoryOf? .standard n).isSome) = 3 ∧
      ((completed .standard (.block block)).subtree.countP fun n =>
        (directoryOf? .standard n).isSome) = 0 ∧
      ∃ out imports site', runApart env (remedy env) () ⟨[.block block]⟩ block site =
          .ok (out, imports, ()) site' ∧
        (Node.block out).alike (completed .standard (.block block)) = true := by
  intro startsWith check canonical text inner outer block env site
  refine ⟨by decide +kernel, by decide +kernel, ?_⟩
  obtain ⟨out, imports, site', ran, alike, -⟩ := runApart_completes ⟨64, 8⟩ []
    (by decide +kernel : ((Node.block block).subtree.map Node.id).Nodup)
    (by decide +kernel : ∀ m ∈ (Node.block block).subtree, m.id < site.next)
  exact ⟨out, imports, site', ran, alike⟩

end PathTraversal.PartialPath

end JavaMend
