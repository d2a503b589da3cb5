import JavaMend.Proofs.Remedy.Regime

/-!
# Visits that mend a tree

Applying the fixes that wait at a block keeps to the regime (`Regime.repair_mends`):
each fix is paid for by its load, changes the segment of its anchor, and leaves the
anchors of the fixes after it in place. So the visitor of a remedy keeps to the
regime if the remedy notes only fixes that may wait (`Regime.Notes`), and its pass
makes a unit of the nodes there were and of new ones (`Regime.pass_mends`).
-/

namespace JavaMend

/-- Statements are among their parts. -/
theorem Stmt.map_stmt_le (hidden : Expr → Bool) (stmts : List Stmt) :
    (stmts.map Node.stmt : Multiset Node) ≤ Stmt.partsOf hidden stmts := by
  induction stmts with
  | nil => exact le_rfl
  | cons s stmts ih =>
    rw [List.map_cons, ← Multiset.cons_coe, ← Multiset.singleton_add, Stmt.partsOf_cons]
    refine add_le_add ?_ ih
    unfold Stmt.parts
    rw [Node.parts_eq]
    exact Multiset.le_add_right _ _

theorem PendingFix.written_le_loadOf (hidden : Expr → Bool) (fixes : List PendingFix) :
    Stmt.partsOf hidden (fixes.flatMap (·.kind.written)) ≤ loadOf hidden fixes := by
  induction fixes with
  | nil => exact le_rfl
  | cons fix fixes ih =>
    rw [List.flatMap_cons, Stmt.partsOf_append, loadOf_cons]
    exact add_le_add (written_le hidden fix) ih

/-- Only a removal leaves nothing in the place of a statement. -/
theorem FixStep.tag_of_none {next used : NodeId} {fix : PendingFix} {core : Stmt}
    {before after : List Stmt} (step : FixStep next used fix core before none after) :
    fix.kind.tag = .remove := by
  cases step with
  | remove kind => rw [kind]; rfl

namespace Regime

variable {G : Regime} {σ : Type}

section

variable {next : NodeId} {nodes : Multiset Node}

/-- Nodes that are owned have ids of their own. -/
theorem Lawful.eq_of_id (lawful : G.Lawful) (h : G.Owns next nodes) {a b : Node}
    (ha : a ∈ nodes ∨ a ∈ G.tree) (hb : b ∈ nodes ∨ b ∈ G.tree) (same : a.id = b.id) : a = b := by
  obtain ⟨new, drawn, owned⟩ := h
  have inside {m : Node} (hm : m ∈ nodes ∨ m ∈ G.tree) : m ∈ G.tree + new :=
    hm.elim (Multiset.mem_of_le owned) fun mem => Multiset.mem_add.mpr (.inl mem)
  exact Multiset.inj_on_of_nodup_map (lawful.drawn.add drawn).distinct a (inside ha) b (inside hb)
    same

theorem Lawful.nodup_ids (lawful : G.Lawful) (h : G.Owns next nodes) :
    (nodes.map Node.id).Nodup := by
  obtain ⟨new, drawn, owned⟩ := h
  exact Multiset.nodup_of_le (Multiset.map_le_map owned) (lawful.drawn.add drawn).distinct

theorem Lawful.id_lt_next (lawful : G.Lawful) (h : G.Owns next nodes) {m : Node} (mem : m ∈ nodes) :
    m.id < next := by
  obtain ⟨new, drawn, owned⟩ := h
  exact ((lawful.drawn.add drawn).within m (Multiset.mem_of_le owned mem)).2

end

/-! ## Applying fixes -/

section

variable {before : Block} {above : List Node} {todo : List PendingFix} {fix : PendingFix}
  {rest : Multiset Node} {c c' : Repair} {parts : List (Stmt × Segment)} {site site' : Site Note σ}

/-- The statements of a block of a tree with distinct ids. -/
theorem Stands.distinct_stmts (stands : G.Stands (.block before) above)
    (distinct : (G.tree.map Node.id).Nodup) : (before.stmts.map (·.id)).Nodup := by
  have children : (before.stmts.map Node.stmt : Multiset Node) ≤ G.tree :=
    le_trans (le_trans (Stmt.map_stmt_le (fun _ => false) _) before.partsOf_stmts_le) stands.parts
  have ids := Multiset.nodup_of_le (Multiset.map_le_map children) distinct
  rw [Multiset.map_coe, Multiset.coe_nodup, List.map_map] at ids
  exact ids

/-- A block in repair, while the fixes `todo` are still to be applied. -/
structure Repairing (G : Regime) (before : Block) (above : List Node) (todo : List PendingFix)
    (rest : Multiset Node) (c : Repair) (parts : List (Stmt × Segment)) (site : Site Note σ) :
    Prop where
  holds : G.Holds (.block before :: above)
    (c.block.parts G.hidden + PendingFix.loadOf G.hidden todo + rest) site
  tracks : Repair.Tracks ((todo.flatMap (·.kind.written)).map (·.id)) site.next c parts
  anchors : parts.map (·.1) = before.stmts
  /-- The anchors of the fixes are there. -/
  alive : ∀ fix ∈ todo, ∀ p ∈ parts, p.1 = fix.anchor → p.2.core.isSome
  /-- So are the expressions that are to be extracted. -/
  extracts : ∀ fix ∈ todo, fix.kind.tag = .extract → ∀ p ∈ parts, p.1 = fix.anchor →
    ∀ core, p.2.core = some core → fix.tainted ∈ (Node.stmt core).surface
  segments : ∀ p ∈ parts, G.segment (.block before :: above) p.1 p.2
  new : c.block = before ∨ G.mark ≤ c.block.id
  isStatic : c.block.isStatic = before.isStatic

/-- What a fix makes of a block has the parts of the block, the load of the fix, and
new nodes. -/
theorem parts_le_of_step {hidden : Expr → Bool} {pre post : List (Stmt × Segment)} {anchor core : Stmt}
    {front back written after : List Stmt} {core' : Option Stmt} {load drawn : Multiset Node}
    (stmts : c.block.stmts =
      (pre ++ (anchor, ⟨front, some core, back⟩) :: post).flatMap (·.2.stmts))
    (stmts' : c'.block.stmts =
      (pre ++ (anchor, ⟨front ++ written, core', after ++ back⟩) :: post).flatMap (·.2.stmts))
    (paid : Stmt.partsOf hidden (written ++ core'.toList ++ after) ≤
      core.parts hidden + load + drawn) :
    c'.block.parts hidden ≤
      c.block.parts hidden + load + (drawn + {Node.block c'.block}) := by
  have old : Stmt.partsOf hidden c.block.stmts = core.parts hidden +
      (Stmt.partsOf hidden (pre.flatMap (·.2.stmts)) + Stmt.partsOf hidden front +
        Stmt.partsOf hidden back + Stmt.partsOf hidden (post.flatMap (·.2.stmts))) := by
    rw [stmts]
    simp only [List.flatMap_append, List.flatMap_cons, Segment.stmts, Option.toList,
      Stmt.partsOf_append, Stmt.partsOf_cons, Stmt.partsOf_nil]
    abel
  have new : Stmt.partsOf hidden c'.block.stmts =
      Stmt.partsOf hidden (written ++ core'.toList ++ after) +
      (Stmt.partsOf hidden (pre.flatMap (·.2.stmts)) + Stmt.partsOf hidden front +
        Stmt.partsOf hidden back + Stmt.partsOf hidden (post.flatMap (·.2.stmts))) := by
    rw [stmts']
    simp only [List.flatMap_append, List.flatMap_cons, Segment.stmts, Stmt.partsOf_append]
    abel
  calc c'.block.parts hidden
      ≤ {Node.block c'.block} + Stmt.partsOf hidden c'.block.stmts :=
        Node.parts_le hidden (.block c'.block)
    _ ≤ {Node.block c'.block} + (core.parts hidden + load + drawn +
        (Stmt.partsOf hidden (pre.flatMap (·.2.stmts)) + Stmt.partsOf hidden front +
          Stmt.partsOf hidden back + Stmt.partsOf hidden (post.flatMap (·.2.stmts)))) := by
        rw [new]
        gcongr
    _ = Stmt.partsOf hidden c.block.stmts + load + (drawn + {Node.block c'.block}) := by
        rw [old]
        abel
    _ ≤ c.block.parts hidden + load + (drawn + {Node.block c'.block}) := by
        gcongr
        exact c.block.partsOf_stmts_le

theorem Holds.asks {path : List Node} {hand : Multiset Node} (h : G.Holds path hand site)
    (asks : site.Asks site') : G.Holds path hand site' := by
  obtain ⟨le, fqns, same⟩ := asks
  refine h.of_waiting ?_ le le_rfl
  rw [same]
  exact site.cursor.waiting_requestImports fqns

/-- The node of an expression that a fix replaces is found by its id. -/
theorem Repairing.replaced (lawful : G.Lawful)
    (h : G.Repairing before above (fix :: todo) rest c parts site)
    (anchored : G.Anchored (.block before :: above) fix) {core : Stmt} (mem : core ∈ c.block.stmts)
    (replaces : fix.kind.tag = .replace) :
    (Node.stmt core).Coherent ∧
      ∀ m ∈ (Node.stmt core).subtree, m.same (.expr fix.tainted) = true → m = .expr fix.tainted := by
  obtain ⟨inTree, seen⟩ := anchored.replaces replaces
  have inside : ∀ m ∈ (Node.stmt core).subtree, m ∈ c.block.parts G.hidden +
      PendingFix.loadOf G.hidden (fix :: todo) + rest + G.load site.cursor.waiting := by
    intro m hm
    have here : m ∈ c.block.parts G.hidden := by
      refine Node.mem_parts (Node.mem_subtree_of_child (List.mem_map_of_mem mem) hm) ?_
      cases m with
      | expr e => exact seen e
      | _ => rfl
    exact Multiset.mem_add.mpr (.inl (Multiset.mem_add.mpr (.inl (Multiset.mem_add.mpr (.inl here)))))
  constructor
  · intro a ha b hb same
    exact lawful.eq_of_id h.holds.owns (.inl (inside a ha)) (.inl (inside b hb))
      (Node.id_of_same same)
  · intro m hm same
    exact lawful.eq_of_id h.holds.owns (.inl (inside m hm)) (.inr inTree) (Node.id_of_same same)

/-- Applying one fix. -/
theorem Repairing.step (lawful : G.Lawful) (anchored : G.Anchored (.block before :: above) fix)
    (order : ∀ later ∈ todo, PendingFixes.Precedes fix later)
    (h : G.Repairing before above (fix :: todo) rest c parts site)
    (ran : Repair.apply .standard c fix site = .ok c' site') :
    ∃ parts', G.Repairing before above todo rest c' parts' site' ∧
      Repair.Advance site.next fix parts parts' := by
  obtain ⟨b, above', at_, inside⟩ := anchored.anchor
  cases at_
  -- The segment of the anchor.
  obtain ⟨⟨anchor, g⟩, mem, rfl⟩ : ∃ p ∈ parts, p.1 = fix.anchor :=
    List.mem_map.mp (h.anchors ▸ inside)
  obtain ⟨core, hcore⟩ := Option.isSome_iff_exists.mp
    (h.alive fix List.mem_cons_self _ mem rfl)
  obtain ⟨front, _, back⟩ := g
  cases hcore
  obtain ⟨pre, post, rfl⟩ := List.append_of_mem mem
  have tracks := h.tracks
  rw [List.flatMap_cons, List.map_append] at tracks
  obtain ⟨asks, ⟨rfl, misses, tracks'⟩ | ⟨used, written, core', after, at_, grown, step, blockId, static,
    tracks'⟩⟩ := Repair.apply_tracks tracks ran
  · refine ⟨_, ⟨?_, tracks', h.anchors, fun later mem => h.alive later (List.mem_cons_of_mem _ mem),
      fun later mem => h.extracts later (List.mem_cons_of_mem _ mem), h.segments, h.new, h.isStatic⟩,
      .missed misses⟩
    refine (h.holds.weaken ?_).asks asks
    rw [PendingFix.loadOf_cons]
    gcongr
    exact Multiset.le_add_left _ _
  · have inBlock : core ∈ c.block.stmts := by
      rw [h.tracks.stmts]
      exact List.mem_flatMap.mpr ⟨_, mem, by simp [Segment.stmts]⟩
    have replaces := h.replaced lawful anchored inBlock
    -- A segment that a later fix is about, other than that of this anchor.
    have elsewhere : ∀ p ∈ pre ++ (fix.anchor, ⟨front ++ written, core', after ++ back⟩) :: post,
        p.1 ≠ fix.anchor → p ∈ pre ++ (fix.anchor, ⟨front, some core, back⟩) :: post := by
      intro p hp other
      rcases List.mem_append.mp hp with hp | hp
      · exact List.mem_append_left _ hp
      · rcases List.mem_cons.mp hp with rfl | hp
        · exact (other rfl).elim
        · exact List.mem_append_right _ (List.mem_cons_of_mem _ hp)
    refine ⟨pre ++ (fix.anchor, ⟨front ++ written, core', after ++ back⟩) :: post,
      ⟨?_, tracks', ?_, ?_, ?_, ?_, ?_, static.trans h.isStatic⟩, .stepped step⟩
    · obtain ⟨drawn, hdrawn, paid⟩ := step.parts_le grown replaces fun extracts =>
        ⟨Node.mem_subtree_of_surface (h.extracts fix List.mem_cons_self extracts _ mem rfl core rfl),
          fun read isRead new => (anchored.extracts extracts).2 read isRead
            (Nat.le_trans h.holds.owns.le new)⟩
      have block : Drawn used site'.next {Node.block c'.block} := by
        rw [at_]
        exact .single blockId
      have made := parts_le_of_step h.tracks.stmts tracks'.stmts paid
      obtain ⟨-, fqns, same⟩ := asks
      have covered : c'.block.parts G.hidden + PendingFix.loadOf G.hidden todo + rest ≤
          c.block.parts G.hidden + PendingFix.loadOf G.hidden (fix :: todo) + rest +
            (drawn + {Node.block c'.block}) := by
        rw [PendingFix.loadOf_cons]
        calc c'.block.parts G.hidden + PendingFix.loadOf G.hidden todo + rest
            ≤ c.block.parts G.hidden + fix.load G.hidden + (drawn + {Node.block c'.block}) +
                PendingFix.loadOf G.hidden todo + rest := by gcongr
          _ = _ := by abel
      refine (h.holds.spend (hdrawn.add block) covered).of_waiting ?_ (Nat.le_refl _) le_rfl
      rw [same]
      exact site.cursor.waiting_requestImports fqns
    · rw [← h.anchors]
      simp
    · intro later hlater p hp at_
      by_cases here : p.1 = fix.anchor
      · rcases List.mem_append.mp hp with hp | hp
        · exact h.alive later (List.mem_cons_of_mem _ hlater) p (List.mem_append_left _ hp) at_
        · rcases List.mem_cons.mp hp with rfl | hp
          · cases core' with
            | some core' => rfl
            | none => exact (order later hlater (.inl step.tag_of_none) (congrArg Stmt.id at_)).elim
          · exact h.alive later (List.mem_cons_of_mem _ hlater) p
              (List.mem_append_right _ (List.mem_cons_of_mem _ hp)) at_
      · exact h.alive later (List.mem_cons_of_mem _ hlater) p (elsewhere p hp here) at_
    · intro later hlater extracts p hp at_
      have other : p.1 ≠ fix.anchor := fun here =>
        order later hlater (.inr extracts) (congrArg Stmt.id (here.symm.trans at_))
      exact h.extracts later (List.mem_cons_of_mem _ hlater) extracts p (elsewhere p hp other) at_
    · intro p hp
      rcases List.mem_append.mp hp with hp | hp
      · exact h.segments p (List.mem_append_left _ hp)
      · rcases List.mem_cons.mp hp with rfl | hp
        · exact lawful.segment_step _ fix front core back site.next used written core' after
            anchored (h.segments _ mem) h.holds.owns.le step replaces
        · exact h.segments p (List.mem_append_right _ (List.mem_cons_of_mem _ hp))
    · exact .inr (blockId ▸ Nat.le_trans h.holds.owns.le grown)

/-- Applying fixes one after the other. -/
theorem Repairing.run (lawful : G.Lawful)
    (anchored : ∀ fix ∈ todo, G.Anchored (.block before :: above) fix)
    (order : todo.Pairwise PendingFixes.Precedes)
    (h : G.Repairing before above todo rest c parts site)
    (ran : todo.foldlM (Repair.apply .standard) c site = .ok c' site') :
    ∃ parts', G.Repairing before above [] rest c' parts' site' := by
  induction todo generalizing c parts site with
  | nil =>
    cases ran
    exact ⟨parts, h⟩
  | cons fix todo ih =>
    rw [List.foldlM_cons] at ran
    obtain ⟨first, later⟩ := List.pairwise_cons.mp order
    obtain ⟨c₁, site₁, ran₁, ran₂⟩ := VisitM.ok_of_bind ran
    obtain ⟨parts₁, h₁, -⟩ := h.step lawful (anchored fix List.mem_cons_self) first ran₁
    exact ih (fun fix mem => anchored fix (List.mem_cons_of_mem _ mem)) later h₁ ran₂

/-- The statements of a block after a visit. -/
theorem Walked.stmts {after : Block} (walked : G.Walked above (.block before) (.block after)) :
    List.Forall₂ (fun s s' => G.Became (.block before :: above) (.stmt s) (.stmt s')) before.stmts
      after.stmts := by
  have children : List.Forall₂ (G.Became (.block before :: above)) (before.stmts.map .stmt)
      (after.stmts.map .stmt) := walked.children
  rwa [List.forall₂_map_left_iff, List.forall₂_map_right_iff] at children

/-- A repair starts with what the visit of the block left. -/
theorem Repairing.start (lawful : G.Lawful) (stands : G.Stands (.block before) above) {after : Block}
    (walked : G.Walked above (.block before) (.block after))
    (anchored : ∀ fix ∈ todo, G.Anchored (.block before :: above) fix)
    (h : G.Holds (.block before :: above)
      (after.parts G.hidden + PendingFix.loadOf G.hidden todo + rest) site) (path : Path) :
    G.Repairing before above todo rest (.start path before after) (Repair.visited before after)
      site := by
  have stmts := walked.stmts
  have of_zip {p : Stmt × Segment} (mem : p ∈ Repair.visited before after) :
      ∃ s', p.2 = .ofStmt s' ∧ p.1 ∈ before.stmts ∧
        G.Became (.block before :: above) (.stmt p.1) (.stmt s') := by
    obtain ⟨q, hq, rfl⟩ := List.mem_map.mp mem
    exact ⟨q.2, rfl, (List.of_mem_zip hq).1, (List.forall₂_iff_zip.mp stmts).2 hq⟩
  -- The statements of the block and those that the fixes write are all owned.
  have owned : ((after.stmts ++ todo.flatMap (·.kind.written)).map Node.stmt : Multiset Node) ≤
      after.parts G.hidden + PendingFix.loadOf G.hidden todo + rest +
        G.load site.cursor.waiting := by
    refine le_trans (Stmt.map_stmt_le G.hidden _) ?_
    rw [Stmt.partsOf_append, add_assoc _ rest]
    refine le_trans (add_le_add after.partsOf_stmts_le
      (PendingFix.written_le_loadOf G.hidden todo)) (Multiset.le_add_right _ _)
  have ids : after.stmts.map (·.id) ++ (todo.flatMap (·.kind.written)).map (·.id) =
      ((after.stmts ++ todo.flatMap (·.kind.written)).map Node.stmt).map Node.id := by
    rw [← List.map_append, List.map_map]
    rfl
  refine ⟨h, Repair.tracks_start ⟨?_, ?_, ?_⟩ ?_ ?_ ?_ h.owns.le, ?_, ?_, ?_, ?_, ?_, ?_⟩
  · exact stmts.imp fun s s' became => became.new.imp_left Node.stmt.inj
  · exact stands.distinct_stmts lawful.drawn.distinct
  · intro s mem
    have child : Node.stmt s ∈ (Node.block before).children := List.mem_map_of_mem mem
    exact lawful.id_lt stands (Node.mem_subtree_of_child child Node.mem_subtree_self)
  · rw [ids, ← Multiset.coe_nodup, ← Multiset.map_coe]
    exact Multiset.nodup_of_le (Multiset.map_le_map owned) (lawful.nodup_ids h.owns)
  · intro id mem
    obtain ⟨s, hs, rfl⟩ := List.mem_map.mp mem
    obtain ⟨fix, hfix, hs⟩ := List.mem_flatMap.mp hs
    exact (anchored fix hfix).written s hs
  · rw [ids]
    intro id mem
    obtain ⟨m, hm, rfl⟩ := List.mem_map.mp mem
    exact lawful.id_lt_next h.owns (Multiset.mem_of_le owned (Multiset.mem_coe.mpr hm))
  · unfold Repair.visited
    rw [List.map_map]
    exact List.map_fst_zip (Nat.le_of_eq stmts.length_eq)
  · intro fix _ p mem _
    obtain ⟨s', at_, -, -⟩ := of_zip mem
    rw [at_]
    rfl
  · intro fix hfix extracts p mem here core hcore
    obtain ⟨s', at_, -, became⟩ := of_zip mem
    rw [at_] at hcore
    cases hcore
    exact became.surface (here ▸ ((anchored fix hfix).extracts extracts).1)
  · intro p mem
    obtain ⟨s', at_, inside, became⟩ := of_zip mem
    rw [at_]
    exact lawful.segment_visited _ _ _ _ inside became
  · exact walked.became.new.imp_left Node.block.inj
  · have label := walked.label
    exact Node.Label.block.inj label

end

/-- Taking the fixes that wait at the current node. -/
theorem take_holds {n : Node} {above : List Node} (hand : Multiset Node) :
    VisitM.Triple (G.Holds (n :: above) hand)
      (VisitM.modifyCursor (·.take Note.fixTopic) : PassM σ _) fun pending site =>
        match pending with
        | none => G.Holds (n :: above) hand site
        | some pending => G.Allows (n :: above) pending.fixes ∧
          G.Holds (n :: above) (hand + PendingFix.loadOf G.hidden pending.fixes) site := by
  refine .modifyCursor fun site h => ?_
  obtain ⟨⟨m, fixes⟩, frames, waiting, rfl, rest⟩ := List.map_eq_cons_iff.mp h.path
  have allowed := h.allowed
  rw [waiting] at allowed
  rcases Cursor.waiting_take waiting with ⟨none, -, same⟩ | ⟨pending, some, rfl, left⟩
  · rw [none]
    exact h.of_waiting same (Nat.le_refl _) le_rfl
  · rw [some]
    refine ⟨rest ▸ allowed.1, ?_, ?_, ?_⟩
    · rw [left, List.map_cons, rest]
    · rw [left]
      exact ⟨allows_nil _, allowed.2⟩
    · refine h.owns.spend (.zero (Nat.le_refl _)) (le_of_eq ?_)
      rw [left, waiting, load_cons, load_cons, PendingFix.loadOf_nil]
      abel

/-- Repairing a block keeps to the regime. -/
theorem repair_mends (lawful : G.Lawful) {before after : Block} {above : List Node}
    (stands : G.Stands (.block before) above)
    (walked : G.Walked above (.block before) (.block after)) (rest : Multiset Node) :
    VisitM.Triple (G.Holds (.block before :: above) (after.parts G.hidden + rest))
      (repair .standard before after : PassM σ Block) fun out site =>
        G.Became above (.block before) (.block out) ∧
          G.Holds (.block before :: above) (out.parts G.hidden + rest) site := by
  unfold repair
  refine (take_holds _).bind fun pending => ?_
  cases pending with
  | none => exact .pure fun site h => ⟨walked.became, h⟩
  | some pending =>
    refine VisitM.Triple.assuming fun allowed => ?_
    refine path_holds.bind fun path => VisitM.Triple.assuming ?_
    rintro rfl
    intro site out site' h ran
    obtain ⟨c, site₁, ran, done⟩ := VisitM.ok_of_bind ran
    cases done
    have anchored : ∀ fix ∈ pending.ordered, G.Anchored (.block before :: above) fix :=
      fun fix mem => allowed.anchored fix (pending.ordered_perm.mem_iff.mp mem)
    have loaded : after.parts G.hidden + PendingFix.loadOf G.hidden pending.ordered + rest =
        after.parts G.hidden + rest + PendingFix.loadOf G.hidden pending.fixes := by
      rw [PendingFix.loadOf_perm pending.ordered_perm]
      abel
    obtain ⟨parts, repaired⟩ := (Repairing.start lawful stands walked anchored
      (h.weaken (le_of_eq loaded)) _).run lawful anchored (PendingFixes.ordered_precedes allowed.distinct) ran
    refine ⟨⟨rfl, repaired.new.imp_left (congrArg Node.block), ?_,
      fun _ => congrArg Node.Label.block repaired.isStatic, ?_, ?_⟩, ?_⟩
    · intro isExpr
      cases isExpr
    · rw [Node.surface_block]
      exact List.nil_subset _
    · exact lawful.became_repaired _ _ _ parts repaired.anchors repaired.isStatic
        repaired.tracks.stmts repaired.segments
    · refine repaired.holds.weaken (le_of_eq ?_)
      rw [PendingFix.loadOf_nil, add_zero]

/-! ## Remedies -/

/-- The remedy notes only fixes that may wait. -/
structure Notes (G : Regime) (remedy : Remedy σ) : Prop where
  enter : ∀ n above, G.Stands n above → G.Keeps (n :: above) (remedy.enter n)
  leave : ∀ b above, G.Stands (.block b) above → G.Keeps (.block b :: above) (remedy.leave b)

theorem visitor_mends (lawful : G.Lawful) {remedy : Remedy σ} (notes : G.Notes remedy) {env : PassEnv}
    (standard : env.splicer = .standard) : G.Mends (remedy.visitor env) := by
  intro n above descend stands walks rest
  unfold Remedy.visitor
  refine (notes.enter n above stands _).bind fun goOn => ?_
  split
  · refine (walks rest).bind fun walked => VisitM.Triple.assuming fun made => ?_
    split
    next before after =>
      refine (notes.leave before above stands _).bind fun _ => ?_
      rw [standard]
      refine (repair_mends lawful stands made rest).bind fun out => ?_
      exact .pure fun _ done => done
    next => exact .pure fun _ h => ⟨made.became, h⟩
  · exact .pure fun _ h => ⟨lawful.became above n, h⟩

/-! ## Passes -/

/-- Adding imports makes one new node. -/
theorem apply_spends (hidden : Expr → Bool) (set : ImportRequests) (unit : CompilationUnit) :
    Fresh.Spends ((Node.unit unit).parts hidden) (set.apply unit)
      fun out => (Node.unit out).parts hidden := by
  unfold ImportRequests.apply
  split
  · exact .pure le_rfl
  · exact Fresh.spends_node hidden
      (fun id => ({ unit with id, imports := unit.imports ++ set.lacking unit } : CompilationUnit))
      .unit (fun _ => rfl) fun _ => Node.partsOf_children_le hidden (.unit unit)

theorem classes_apply (set : ImportRequests) (unit : CompilationUnit) (next : NodeId) :
    (set.apply unit next).1.classes = unit.classes := by
  unfold ImportRequests.apply
  cases set.lacking unit <;> rfl

theorem stands_root {unit : CompilationUnit}
    (tree : (Node.unit unit).parts (fun _ => false) = G.tree) : G.Stands (.unit unit) [] := by
  refine ⟨trivial, le_of_eq tree, fun index b found => ?_⟩
  cases found

/-- The site that a visit of a unit starts from. -/
theorem holds_root {unit : CompilationUnit} (tree : (Node.unit unit).parts (fun _ => false) = G.tree)
    (own : σ) : G.Holds [.unit unit] ((Node.unit unit).parts G.hidden + 0)
      { cursor := .ofRoot (.unit unit), next := G.mark, own : Site Note σ } := by
  refine ⟨rfl, ⟨allows_nil _, trivial⟩, 0, .zero (Nat.le_refl _), ?_⟩
  show _ + 0 + G.load [(Node.unit unit, [])] ≤ _
  rw [load_cons, PendingFix.loadOf_nil, ← tree]
  simp only [load, List.map_nil, List.sum_nil, add_zero]
  exact Node.parts_anti (fun _ none => (Bool.false_ne_true none).elim) _

/-- The pass of a visitor that makes something good makes a unit of nodes that it owns. -/
theorem pass_makes {good : Node → Prop} {v : Visitor EngineError Note σ} {unit : CompilationUnit}
    (makes : G.Makes [.unit unit] (.unit unit)
      (fun node => G.Became [] (.unit unit) node ∧ good node) (v.run (.unit unit)))
    (tree : (Node.unit unit).parts (fun _ => false) = G.tree) {own : σ} {out : PassResult}
    {used : NodeId} (ran : v.pass own unit G.mark = (.ok out, used)) :
    G.Owns used ((Node.unit out.unit).parts G.hidden) ∧ ∃ changed : CompilationUnit,
      (G.Became [] (.unit unit) (.unit changed) ∧ good (.unit changed)) ∧
        out.unit.classes = changed.classes := by
  unfold Visitor.pass Visitor.runTree at ran
  split at ran
  next => cases ran
  next node site ended =>
    obtain ⟨made, holds⟩ := makes 0 (holds_root tree own) ended
    have owns : G.Owns site.next (node.parts G.hidden) := by
      refine holds.owns.spend (.zero (Nat.le_refl _)) ?_
      rw [add_zero, add_assoc]
      exact Multiset.le_add_right _ _
    dsimp only at ran
    split at ran
    next changed =>
      split at ran
      · cases ran
        exact ⟨owns, changed, made, rfl⟩
      · cases ran
        obtain ⟨new, drawn, built⟩ := apply_spends G.hidden (site.cursor.takeFindings.2.takeImports.1)
          changed site.next
        exact ⟨owns.spend drawn built, changed, made, classes_apply _ _ _⟩
    next other =>
      have sort := made.1.sort
      cases node with
      | unit changed => exact (other changed rfl).elim
      | _ => cases sort

/-- The pass of a visitor that mends makes of a unit what it may become. -/
theorem pass_mends (lawful : G.Lawful) {v : Visitor EngineError Note σ} (mends : G.Mends v)
    {unit : CompilationUnit} (tree : (Node.unit unit).parts (fun _ => false) = G.tree) {own : σ}
    {out : PassResult} {used : NodeId} (ran : v.pass own unit G.mark = (.ok out, used)) :
    G.Owns used ((Node.unit out.unit).parts G.hidden) ∧
      ∃ changed : CompilationUnit, G.became [] (.unit unit) (.unit changed) ∧
        out.unit.classes = changed.classes := by
  have makes : G.Makes [.unit unit] (.unit unit)
      (fun node => G.Became [] (.unit unit) node ∧ True) (v.run (.unit unit)) := fun rest =>
    (run_mends lawful mends _ _ (stands_root tree) rest).mono (fun _ h => h) fun _ _ done =>
      ⟨⟨done.1, trivial⟩, done.2⟩
  obtain ⟨owns, changed, ⟨became, -⟩, classes⟩ := pass_makes makes tree ran
  exact ⟨owns, changed, became.became, classes⟩

end Regime

end JavaMend
