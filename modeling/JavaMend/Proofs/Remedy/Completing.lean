import JavaMend.Proofs.Patch.Segments
import JavaMend.Proofs.Remedy.Completed
import JavaMend.Proofs.Remedy.Regime
import JavaMend.Proofs.Remedy.Success
import JavaMend.Proofs.Remedy.Waiting

/-!
# Completing checks

The visitor that completes checks notes a replacement for the directory of each check it
comes to, on the frame of the nearest block, the one of an outer check before those of the
checks inside of it. When the visit of the block ends they are applied in this order, so
each finds its check as it was, in whatever the ones before have made of the statement
(`PartialPath.Halfway`).
-/

namespace JavaMend

namespace PathTraversal.PartialPath

variable {matcher : CallMatcher} {root n c out : Node} {mark start next used : NodeId}

/-! ## Directories in the order they are come to -/

/-- The directories of the checks of a node, outside of the blocks in it. -/
def directories (matcher : CallMatcher) (n : Node) : List Expr :=
  n.surface.filterMap (directory? matcher)

theorem directories_block (b : Block) : directories matcher (.block b) = [] := by
  unfold directories
  rw [Node.surface_block]
  rfl

theorem directories_open (open_ : n.block? = none) : directories matcher n =
    (directoryOf? matcher n).toList ++ n.children.flatMap (directories matcher) := by
  unfold directories
  rw [Node.surface_eq open_, List.filterMap_append, List.filterMap_flatMap]
  congr 1
  unfold directoryOf?
  cases n.expr? with
  | none => rfl
  | some e =>
    rw [Option.toList_some, Option.bind_some]
    cases found : directory? matcher e with
    | none => exact List.filterMap_cons_none found
    | some d => exact List.filterMap_cons_some found

theorem check_of_mem {d : Expr} (mem : d ∈ directories matcher n) :
    ∃ e ∈ n.surface, directory? matcher e = some d := List.mem_filterMap.mp mem

theorem mem_subtree_of_directories {d : Expr} (mem : d ∈ directories matcher n) :
    .expr d ∈ n.subtree := by
  obtain ⟨e, he, check⟩ := check_of_mem mem
  exact Node.subtree_trans (Node.mem_subtree_of_surface he)
    (Node.mem_subtree_of_child (directory_mem_children check) Node.mem_subtree_self)

/-- Different children have nothing in common. -/
theorem pairwise_children (distinct : (n.subtree.map Node.id).Nodup) :
    n.children.Pairwise fun c c' => ∀ m ∈ c.subtree, ∀ m' ∈ c'.subtree, m.id ≠ m'.id := by
  rw [List.pairwise_iff_getElem]
  intro i j hi hj lt m hm m' hm' same
  have split : n.children = n.children.take i ++ n.children[i] :: n.children.drop (i + 1) := by
    rw [List.getElem_cons_drop, List.take_append_drop]
  have later : n.children[j] ∈ n.children.drop (i + 1) := by
    rw [List.mem_iff_getElem]
    exact ⟨j - (i + 1), by simp; omega, by simp; congr 1; omega⟩
  exact (Node.distinct_of_split split distinct).2 _ (List.mem_append_right _ later) m' hm' m hm
    same.symm

/-- An expression comes before what stands in it. -/
theorem surface_order (distinct : (n.subtree.map Node.id).Nodup) :
    n.surface.Pairwise fun a b => .expr a ∉ (Node.expr b).subtree := by
  induction n using Node.inductionOn with
  | step n ih =>
    cases hb : n.block? with
    | some b =>
      cases n with
      | block b =>
        rw [Node.surface_block]
        exact .nil
      | _ => cases hb
    | none =>
      rw [Node.surface_eq hb, List.pairwise_append]
      refine ⟨?_, ?_, fun a ha b hb => ?_⟩
      · cases n.expr? with
        | none => exact .nil
        | some e => exact List.pairwise_singleton _ _
      · rw [List.pairwise_flatMap]
        refine ⟨fun c hc => ih c hc (Node.distinct_child distinct hc), ?_⟩
        refine (pairwise_children distinct).imp fun {c c'} apart a ha b hb inside => ?_
        exact apart _ (Node.mem_subtree_of_surface ha) _
          (Node.subtree_trans (Node.mem_subtree_of_surface hb) inside) rfl
      · intro inside
        obtain ⟨c, hc, below⟩ := List.mem_flatMap.mp hb
        cases n with
        | expr e =>
          cases List.mem_singleton.mp ha
          have there := Node.mem_subtree_of_surface below
          exact Node.not_mem_of_child hc (Node.subtree_trans there inside)
        | _ => cases ha

/-! ## Noting them -/

/-- Between two steps of the visit: what imports were asked for does not matter. -/
abbrev Waits (mark : NodeId) (waiting : List (Node × List PendingFix)) (site : Site Note Unit) :
    Prop :=
  site.Waits (fun _ => True) mark waiting

/-- The fix that puts the separator behind a directory in a statement. -/
structure Completion (mark next : NodeId) (order : Stmt × Expr) (fix : PendingFix) : Prop where
  anchor : fix.anchor = order.1
  tainted : fix.tainted = order.2
  new : ∃ new, fix.kind = .replace new [Fqn.file] ∧ IsSum mark order.2 new ∧
    (∀ m ∈ (Node.expr new).subtree, m.id < next) ∧ (Node.expr new).ToldApart

theorem Completion.mono {order : Stmt × Expr} {fix : PendingFix}
    (h : Completion mark next order fix) (le : next ≤ used) : Completion mark used order fix := by
  obtain ⟨new, kind, made, early, told⟩ := h.new
  exact ⟨h.anchor, h.tainted, new, kind, made, fun m hm => Nat.lt_of_lt_of_le (early m hm) le, told⟩

theorem separator_toldApart (field qualifier : NodeId) :
    (Node.expr (separator field qualifier)).ToldApart := by
  intro m mem a ha b hb _
  rw [Node.subtree_eq, List.mem_cons] at mem
  rcases mem with rfl | mem
  · exact (List.mem_singleton.mp ha).trans (List.mem_singleton.mp hb).symm
  · obtain ⟨c, hc, mem⟩ := List.mem_flatMap.mp mem
    cases List.mem_singleton.mp hc
    rw [Node.subtree_eq, List.mem_cons] at mem
    rcases mem with rfl | mem
    · cases ha
    · obtain ⟨c, hc, -⟩ := List.mem_flatMap.mp mem
      cases hc

/-- The sum that is written for a directory. -/
theorem mkSum_isSum {d : Expr} (distinct : ((Node.expr d).subtree.map Node.id).Nodup)
    (old : ∀ m ∈ (Node.expr d).subtree, m.id < mark) (late : mark ≤ start) :
    IsSum mark d (mkSum d start).1 ∧
      (∀ m ∈ (Node.expr (mkSum d start).1).subtree, m.id < (mkSum d start).2) ∧
      (Node.expr (mkSum d start).1).ToldApart := by
  rw [mkSum_eq]
  let sum : Expr := ⟨start + 2, .string, .binary .add d (separator (start + 1) start)⟩
  have two : (Node.expr sum).children = [.expr d, .expr (separator (start + 1) start)] := rfl
  have below : start ≤ start + 3 := Nat.le_add_right _ _
  refine ⟨⟨Nat.le_add_right_of_le late, rfl, _, _, Nat.le_add_right_of_le late, late, rfl⟩, ?_, ?_⟩
  · intro m mem
    rw [Node.subtree_eq, List.mem_cons] at mem
    rcases mem with rfl | mem
    · exact Nat.lt_succ_self (start + 2)
    · obtain ⟨c, hc, mem⟩ := List.mem_flatMap.mp mem
      rcases List.mem_cons.mp (two ▸ hc) with rfl | hc
      · exact Nat.lt_of_lt_of_le (old m mem) (Nat.le_trans late below)
      · cases List.mem_singleton.mp hc
        rcases (mem_separator mem).1 with at_ | at_ <;> rw [at_]
        · exact Nat.lt_succ_of_lt (Nat.lt_succ_self (start + 1))
        · exact Nat.lt_add_of_pos_right (by decide)
  · have apart : d.id ≠ start + 1 := by
      intro same
      have early : d.id < mark := old (.expr d) Node.mem_subtree_self
      rw [same] at early
      exact Nat.not_lt_of_le late (Nat.lt_of_succ_lt early)
    refine Node.toldApart_of_children (fun a ha b hb same => ?_) fun c hc => ?_
    · have same := Node.id_of_same same
      change a ∈ (Node.expr sum).children at ha
      change b ∈ (Node.expr sum).children at hb
      rw [two, List.mem_pair] at ha hb
      rcases ha with rfl | rfl <;> rcases hb with rfl | rfl
      · rfl
      · exact (apart same).elim
      · exact (apart same.symm).elim
      · rfl
    · rcases List.mem_cons.mp (two ▸ hc) with rfl | hc
      · exact Node.toldApart_of_distinct distinct
      · cases List.mem_singleton.mp hc
        exact separator_toldApart _ _

/-- Coming to a check: the separator is noted. -/
theorem enter_check {env : PassEnv} {e d : Expr} {anchor : Stmt} {fixes : List PendingFix}
    {w : List (Node × List PendingFix)} (check : directory? env.matcher e = some d)
    (distinct : ((Node.expr d).subtree.map Node.id).Nodup)
    (old : ∀ m ∈ (Node.expr d).subtree, m.id < mark)
    (within : Within anchor fixes (.expr e) w) (apart : ∀ fix ∈ fixes, fix.tainted.id ≠ d.id) :
    VisitM.Triple
      (fun site => Waits mark ((.expr e, []) :: w) site ∧ start ≤ site.next)
      ((remedy env).enter (.expr e)) fun goOn site => goOn = true ∧ ∃ fix,
        Completion mark site.next (anchor, d) fix ∧
        Waits mark ((.expr e, []) :: deposit [fix] w) site ∧ start ≤ site.next := by
  unfold remedy
  dsimp only
  rw [check]
  rintro site goOn site' ⟨waits, le⟩ ran
  obtain ⟨_, between, ran, done⟩ := VisitM.ok_of_bind ran
  cases done
  refine ⟨rfl, ?_⟩
  unfold complete at ran
  obtain ⟨new, _, ran₁, ran⟩ := VisitM.ok_of_bind ran
  obtain ⟨used, made, rfl⟩ := VisitM.ok_of_fresh ran₁
  have made : mkSum d site.next = (new, used) := made
  have later : site.next ≤ used := by
    rw [mkSum_eq] at made
    cases made
    exact Nat.le_add_right _ _
  obtain ⟨isSum, early, told⟩ := mkSum_isSum distinct old waits.late
  rw [made] at isSum early told
  have found : ({ site with next := used } : Site Note Unit).cursor.path.anchor? = some anchor := by
    rw [waits.path]
    exact within.anchor? rfl
  unfold PassM.replaceHere at ran
  obtain ⟨path, _, walked, ran⟩ := VisitM.ok_of_bind ran
  cases walked
  rw [found] at ran
  obtain ⟨_, _, noted, done⟩ := VisitM.ok_of_bind ran
  cases noted
  cases done
  let fix : PendingFix := ⟨anchor, d, none, .replace new [Fqn.file]⟩
  refine ⟨fix, ⟨rfl, rfl, new, rfl, isSum, early, told⟩, ?_, Nat.le_trans le later⟩
  have inside : Within anchor fixes (.expr e) ((.expr e, []) :: w) := .inner rfl within
  have beside : ∀ old ∈ fixes, fix.supersedes old = false := by
    intro old hold
    have differs : d.same old.tainted = false := beq_eq_false_iff_ne.mpr (apart old hold).symm
    unfold PendingFix.supersedes
    rw [show fix.tainted.same old.tainted = false from differs]
    simp [fix, FixKind.tag]
  have deposited := inside.noteFix rfl beside (waits.next later)
  rwa [deposit_open rfl] at deposited

/-! ## What a visit makes of a node -/

/-- What a visit that started with the id `start` makes of a node: all directories outside of
the blocks in it wait. -/
structure Visited (matcher : CallMatcher) (mark start next : NodeId) (n out : Node) : Prop where
  under : Underway matcher mark (fun id => ∃ d ∈ directories matcher n, d.id = id) (false, n) out
  expr : n.expr?.isSome → out = n
  surface : n.surface ⊆ out.surface
  new : out = n ∨ start ≤ out.id
  apart : out.ToldApart
  early : ∀ m ∈ out.subtree, m.id < next

/-- What a descent makes of a node. -/
structure Descended (matcher : CallMatcher) (mark start next : NodeId) (n out : Node) : Prop where
  label : out.label = n.label
  new : out = n ∨ start ≤ out.id
  kept : n.expr?.isSome → out = n
  surface : n.surface ⊆ out.surface
  children : List.Forall₂ (Visited matcher mark start next) n.children out.children
  ids : (out.children.map Node.id).Nodup
  apart : out.ToldApart
  early : ∀ m ∈ out.subtree, m.id < next

theorem Visited.mono (h : Visited matcher mark start next n out) {earlier : NodeId}
    (le : earlier ≤ start) (le' : next ≤ used) : Visited matcher mark earlier used n out :=
  { h with
    new := h.new.imp_right fun late => Nat.le_trans le late
    early := fun m hm => Nat.lt_of_lt_of_le (h.early m hm) le' }

theorem Visited.sort (h : Visited matcher mark start next n out) : Node.SameSort n out := by
  cases h.under with
  | plain _ label => exact (Node.sameSort_of_label label).symm

/-- Children that are expressions come back. -/
theorem all_same_of_expr {e : Expr} {news : List Node}
    (visited : List.Forall₂ (Visited matcher mark start next) (Node.expr e).children news) :
    ((Node.expr e).children.zip news).all (fun p => p.2.same p.1) = true := by
  rw [List.all_eq_true]
  rintro ⟨c, c'⟩ mem
  have inside := (List.of_mem_zip mem).1
  obtain ⟨sub, -, rfl⟩ := List.mem_map.mp inside
  have back := ((List.forall₂_iff_zip.mp visited).2 mem).expr rfl
  rw [back]
  exact Node.same_self _

/-- Settling a node whose children were visited. -/
theorem settle_descends {waiting : List (Node × List PendingFix)} {reached : NodeId}
    (late : mark ≤ start) (started : start ≤ reached) (old : ∀ m ∈ n.subtree, m.id < mark)
    {news : List Node} (ids : (news.map Node.id).Nodup) :
    VisitM.Triple
      (fun site => List.Forall₂ (Visited matcher mark start site.next) n.children news ∧
        Waits mark waiting site ∧ reached ≤ site.next)
      (Visitor.settle n news : PassM Unit Node) fun out site =>
        Descended matcher mark start site.next n out ∧ Waits mark waiting site ∧
          reached ≤ site.next := by
  have oldChild : ∀ c ∈ n.children, c.id < mark := fun c hc =>
    old c (Node.mem_subtree_of_child hc Node.mem_subtree_self)
  have told : ∀ a ∈ news, ∀ b ∈ news, a.same b = true → a = b := fun a ha b hb same =>
    List.inj_on_of_nodup_map ids ha hb (Node.id_of_same same)
  unfold Visitor.settle
  split
  next all =>
    refine .pure fun site ⟨visited, waits, le⟩ => ⟨?_, waits, le⟩
    have returned := visited.imp fun _ _ h => h.new.imp_right (Nat.le_trans late)
    have back := Node.children_eq_of_same returned oldChild all
    subst back
    refine ⟨rfl, .inl rfl, fun _ => rfl, List.Subset.refl _, visited, ids, ?_, ?_⟩
    · refine Node.toldApart_of_children told fun c hc => ?_
      obtain ⟨c₀, -, visited⟩ := exists_of_forall₂ visited hc
      exact visited.apart
    · exact fun m hm =>
        Nat.lt_of_lt_of_le (old m hm) (Nat.le_trans late (Nat.le_trans started le))
  next some =>
    refine .fresh fun site ⟨visited, waits, le⟩ => ?_
    have refilled := n.refilled_withChildren site.next (visited.imp fun _ _ h => h.sort)
    have plain : n.expr? = none := by
      cases n with
      | expr e => exact (some (all_same_of_expr visited)).elim
      | _ => rfl
    have id : (n.withChildren site.next news).id = site.next := Node.id_withChildren _ _ _
    have grown : site.next ≤ site.next + 1 := Nat.le_succ _
    refine ⟨⟨refilled.label, .inr ?_, fun isExpr => ?_, ?_, ?_, refilled.children.symm ▸ ids, ?_,
      fun m mem => ?_⟩, waits.next grown, Nat.le_trans le grown⟩
    · exact Nat.le_trans started (Nat.le_trans le (Nat.le_of_eq id.symm))
    · rw [plain] at isExpr
      cases isExpr
    · exact Node.surface_subset_of_refilled plain refilled (visited.imp fun _ _ h => h.surface)
    · show List.Forall₂ _ _ (n.withChildren site.next news).children
      rw [refilled.children]
      exact visited.imp fun _ _ h => h.mono (Nat.le_refl _) grown
    · refine Node.toldApart_of_children (refilled.children.symm ▸ told) fun c hc => ?_
      have hc : c ∈ (n.withChildren site.next news).children := hc
      rw [refilled.children] at hc
      obtain ⟨c₀, -, visited⟩ := exists_of_forall₂ visited hc
      exact visited.apart
    · have mem : m ∈ (n.withChildren site.next news).subtree := mem
      rw [Node.subtree_eq, List.mem_cons, refilled.children] at mem
      rcases mem with rfl | mem
      · rw [id]
        exact Nat.lt_succ_self _
      · obtain ⟨c, hc, mem⟩ := List.mem_flatMap.mp mem
        obtain ⟨c₀, -, visited⟩ := exists_of_forall₂ visited hc
        exact Nat.lt_succ_of_lt (visited.early m mem)

/-! ## Visiting children -/

/-- The statement that fixes in a child are for, if those in the node are for `anchor`. -/
def anchorFor (anchor : Stmt) : Node → Node → Stmt
  | .block _, .stmt s => s
  | _, _ => anchor

/-- What is noted in some children of a node. -/
def noted (matcher : CallMatcher) (anchor : Stmt) (n : Node) (cs : List Node) :
    List (Stmt × Expr) :=
  cs.flatMap fun c => (directories matcher c).map fun d => (anchorFor anchor n c, d)

theorem noted_concat (anchor : Stmt) (n : Node) (cs : List Node) (c : Node) :
    noted matcher anchor n (cs ++ [c]) = noted matcher anchor n cs ++
      (directories matcher c).map fun d => (anchorFor anchor n c, d) := by
  unfold noted
  rw [List.flatMap_append, List.flatMap_singleton]

/-- A visit of a node, with all that is noted on the way. -/
def NotesAll (env : PassEnv) (mark : NodeId) (c : Node) : Prop :=
  ∀ (anchor : Stmt) (fixes : List PendingFix) (w : List (Node × List PendingFix)),
    (c.block? = none → Within anchor fixes c w) →
    (∀ fix ∈ fixes, ∀ d ∈ directories env.matcher c, fix.tainted.id ≠ d.id) →
    ∀ start, VisitM.Triple (fun site => Waits mark ((c, []) :: w) site ∧ start ≤ site.next)
      (((remedy env).visitor env).run c) fun out site => ∃ more,
        List.Forall₂ (Completion mark site.next)
          ((directories env.matcher c).map fun d => (anchor, d)) more ∧
        Waits mark ((c, []) :: deposit more w) site ∧ start ≤ site.next ∧
        Visited env.matcher mark start site.next c out

/-- What becomes of the children of a node has different ids. -/
theorem nodup_concat {done outs rest : List Node} (distinct : (n.subtree.map Node.id).Nodup)
    (old : ∀ m ∈ n.subtree, m.id < mark) (late : mark ≤ start)
    (split : n.children = done ++ c :: rest)
    (visited : List.Forall₂ (Visited matcher mark start next) done outs)
    (ids : (outs.map Node.id).Nodup) (here : Visited matcher mark next used c out) :
    ((outs ++ [out]).map Node.id).Nodup := by
  have mem : c ∈ n.children := split ▸ List.mem_append_right _ List.mem_cons_self
  have early : c.id < mark := old c (Node.mem_subtree_of_child mem Node.mem_subtree_self)
  rw [List.map_append, List.nodup_append]
  refine ⟨ids, List.nodup_singleton _, fun id hid id' hid' same => ?_⟩
  obtain ⟨a, ha, rfl⟩ := List.mem_map.mp hid
  rw [List.map_singleton, List.mem_singleton] at hid'
  have at_ : a.id = out.id := same.trans hid'
  obtain ⟨d, hd, visited⟩ := exists_of_forall₂ visited ha
  rcases here.new with rfl | new
  · rcases visited.new with rfl | new
    · exact (Node.distinct_of_split split distinct).2 a (List.mem_append_left _ hd) a
        Node.mem_subtree_self out Node.mem_subtree_self at_
    · exact Nat.not_le_of_lt (Nat.lt_of_lt_of_le early late) (at_ ▸ new)
  · exact Nat.not_lt_of_le new (at_ ▸ visited.early a Node.mem_subtree_self)

/-- Visiting all children of a node, at which some fixes wait already. -/
theorem descend_visited {env : PassEnv} {anchor : Stmt} {own base : List PendingFix}
    {w : List (Node × List PendingFix)} (distinct : (n.subtree.map Node.id).Nodup)
    (old : ∀ m ∈ n.subtree, m.id < mark)
    (within : ∀ c ∈ n.children, c.block? = none → ∀ more,
      Within (anchorFor anchor n c) (base ++ more) c (deposit more ((n, own) :: w)))
    (apart : ∀ fix ∈ base, ∀ c ∈ n.children, ∀ d ∈ directories env.matcher c, fix.tainted.id ≠ d.id)
    (completes : ∀ c ∈ n.children, NotesAll env mark c) (late : mark ≤ start) :
    VisitM.Triple (fun site => Waits mark ((n, own) :: w) site ∧ start ≤ site.next)
      (n.children.mapM (fun c => VisitM.inFrame c (((remedy env).visitor env).run c)) >>=
        Visitor.settle n) fun out site => ∃ more,
        List.Forall₂ (Completion mark site.next) (noted env.matcher anchor n n.children) more ∧
        Waits mark (deposit more ((n, own) :: w)) site ∧ start ≤ site.next ∧
        Descended env.matcher mark start site.next n out := by
  let inv (done outs : List Node) (site : Site Note Unit) : Prop :=
    (∃ more, List.Forall₂ (Completion mark site.next) (noted env.matcher anchor n done) more ∧
      Waits mark (deposit more ((n, own) :: w)) site) ∧ start ≤ site.next ∧
      List.Forall₂ (Visited env.matcher mark start site.next) done outs ∧
      (outs.map Node.id).Nodup
  have visits : VisitM.Triple (inv [] [])
      (n.children.mapM fun c => VisitM.inFrame c (((remedy env).visitor env).run c))
      (inv n.children) := by
    refine .mapM inv fun done c rest outs split => ?_
    rintro site out site' ⟨⟨more, completions, waits⟩, le, visited, ids⟩ ran
    have mem : c ∈ n.children := split ▸ List.mem_append_right _ List.mem_cons_self
    have beside := (Node.distinct_of_split split distinct).2
    have free : ∀ fix ∈ base ++ more, ∀ d ∈ directories env.matcher c, fix.tainted.id ≠ d.id := by
      intro fix hfix d hd
      rcases List.mem_append.mp hfix with hfix | hfix
      · exact apart fix hfix c mem d hd
      · obtain ⟨order, horder, completion⟩ := exists_of_forall₂ completions hfix
        obtain ⟨c', hc', horder⟩ := List.mem_flatMap.mp horder
        obtain ⟨d', hd', rfl⟩ := List.mem_map.mp horder
        rw [completion.tainted]
        exact beside c' (List.mem_append_left _ hc') _ (mem_subtree_of_directories hd') _
          (mem_subtree_of_directories hd)
    have framed : VisitM.Triple (· = site)
        (VisitM.inFrame c (((remedy env).visitor env).run c)) fun out after => ∃ more',
          List.Forall₂ (Completion mark after.next)
            ((directories env.matcher c).map fun d => (anchorFor anchor n c, d)) more' ∧
          Waits mark (deposit more' (deposit more ((n, own) :: w))) after ∧
          site.next ≤ after.next ∧ Visited env.matcher mark site.next after.next c out := by
      refine .inFrame (completes c mem (anchorFor anchor n c) (base ++ more) _
        (fun open_ => within c mem open_ more) free site.next) ?_ ?_
      · rintro _ rfl
        exact ⟨waits.push deposit_ne_nil c, Nat.le_refl _⟩
      · rintro out after ⟨more', completions', waits', le', visited'⟩
        refine ⟨more', completions', waits'.pop ?_, le', visited'⟩
        rw [deposit_append]
        exact deposit_ne_nil
    obtain ⟨more', completions', waits', le', visited'⟩ := framed rfl ran
    refine ⟨⟨more ++ more', ?_, ?_⟩, Nat.le_trans le le', ?_, ?_⟩
    · rw [noted_concat]
      exact List.rel_append (completions.imp fun _ _ h => h.mono le') completions'
    · rw [← deposit_append]
      exact waits'
    · exact List.rel_append (visited.imp fun _ _ h => h.mono (Nat.le_refl _) le')
        (.cons (visited'.mono le (Nat.le_refl _)) .nil)
    · exact nodup_concat distinct old late split visited ids visited'
  refine (visits.mono (fun site h => ⟨⟨[], .nil, by rw [deposit_nil]; exact h.1⟩, h.2, .nil, .nil⟩)
    fun _ _ h => h).bind fun news => ?_
  rintro site out site' ⟨⟨more, completions, waits⟩, le, visited, ids⟩ ran
  obtain ⟨descended, waits', le'⟩ :=
    settle_descends late le old ids ⟨visited, waits, Nat.le_refl _⟩ ran
  exact ⟨more, completions.imp fun _ _ h => h.mono le', waits', Nat.le_trans le le', descended⟩

end PathTraversal.PartialPath

end JavaMend
