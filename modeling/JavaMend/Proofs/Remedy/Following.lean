import JavaMend.Proofs.Remedy.Notes
import JavaMend.Proofs.Remedy.Rewriting

/-!
# Passes that rewrite

What a pass that rewrites makes of a unit is what the rewriting makes of it
(`Rewriting.Follows.pass`). It is enough that the remedy notes what gives way, when it comes
to it (`Rewriting.replaceHere_notes`) or when it leaves the block around it, and what is
dropped (`Rewriting.Follows`).

The invariant of the visit is `Rewriting.Underway`: what a node has become is the node
rewritten, but for the expressions that wait at the nearest block, and for those that the
remedy only notes when it leaves the block. `Rewriting.Follows.run` is the induction over
the tree.
-/

namespace JavaMend

namespace Rewriting

variable {γ σ : Type} {R : Rewriting γ}

/-! ## Noting a replacement on the way down -/

section

variable {knows : List Node → σ → Prop} {due : Prop} {unit : CompilationUnit} {mark : NodeId}
  {above path : List Node} {extra hand : Multiset Node} {ws : List (Node × List PendingFix)}
  {was : Prop} {e new : Expr} {n : Node}

/-- There is a path to what gives way in a node. -/
theorem Outermost.exists_path (h : R.Outermost e (R.place above) n)
    (genuine : Path.GenuineList (n :: above)) :
    ∃ path, Path.GenuineList (.expr e :: path) ∧
      (Node.expr e :: path).getLast? = (n :: above).getLast? ∧ R.gives (R.place path) e = true := by
  generalize at_ : R.place above = p at h
  induction h generalizing above with
  | here gives => exact ⟨above, genuine, rfl, at_ ▸ gives⟩
  | @under p n c _ _ mem _ ih =>
    have inside : R.place (n :: above) = R.inside p n := by rw [← at_]; rfl
    have child : Path.GenuineList (c :: n :: above) := ⟨mem, genuine⟩
    obtain ⟨path, genuine', last, gives⟩ := ih child inside
    exact ⟨path, genuine', last.trans List.getLast?_cons_cons, gives⟩

/-- An expression that gives way, with nothing around it that does, is outermost in its
anchor. -/
theorem Comes.anchored (comes : R.Comes due unit mark (.expr e) above) (free : R.Free above)
    (gives : R.gives (R.place above) e = true) :
    ∃ anchor front b up, (⟨.expr e :: above⟩ : Path).anchor? = some anchor ∧
      above = front ++ .block b :: up ∧ (∀ m ∈ front, m.block? = none) ∧ anchor ∈ b.stmts ∧
      R.Outermost e (R.place (.block b :: up)) (.stmt anchor) := by
  have genuine := comes.stands.genuine
  obtain ⟨anchor, found⟩ := Path.anchor?_isSome genuine comes.root
  obtain ⟨front, b, up, split, open_⟩ := Path.anchor?_cases found
  cases front with
  | nil => cases split
  | cons m front =>
    obtain ⟨rfl, rfl⟩ := List.cons.inj split
    have genuine : Path.GenuineList (.expr e :: front ++ .stmt anchor :: .block b :: up) := genuine
    have child : Node.stmt anchor ∈ (Node.block b).children := (Path.genuineList_right genuine).1
    obtain ⟨s, member, same⟩ := List.mem_map.mp child
    cases same
    have blockless : ∀ k ∈ front ++ [Node.stmt anchor], k.block? = none := by
      intro k mem
      rcases List.mem_append.mp mem with mem | mem
      · exact open_ k (List.mem_cons_of_mem _ mem)
      · cases List.mem_singleton.mp mem
        rfl
    exact ⟨anchor, front ++ [.stmt anchor], b, up, found, by simp, blockless, member,
      Outermost.outward genuine free blockless (.here gives)⟩

/-- Noting the replacement of an expression where the visit comes to it. -/
theorem replaceHere_notes (comes : R.Comes due unit mark (.expr e) above) (free : R.Free above)
    (gives : R.gives (R.place above) e = true) (stays : ∀ p s, R.drops p s = false)
    (made : R.makes e new) (late : mark ≤ new.id)
    (inner : ∀ m ∈ (Node.expr new).subtree, m.id < mark →
      ∃ c ∈ (Node.expr e).children, m ∈ c.subtree)
    (paid : (Node.expr new).parts (fun _ => false) ≤ (Node.expr e).parts (fun _ => false) + extra) :
    VisitM.Triple
      (fun site => R.Order knows unit ws was path site ∧
        (R.ledger unit mark).Holds (.expr e :: above) (extra + hand) site)
      (PassM.replaceHere e new [R.refers] : PassM σ Unit)
      fun _ site => (R.Order knows unit ws was path site ∧
          (R.ledger unit mark).Holds (.expr e :: above) hand site) ∧
        Noted (nearestFixes site.cursor.waiting) e.id := by
  obtain ⟨anchor, front, b, up, found, rfl, open_, member, own⟩ := comes.anchored free gives
  have fits : R.Fits mark (.block b :: up) ⟨anchor, e, none, .replace new [R.refers]⟩ :=
    .replace made late inner own (stays _ _)
  have blockless : ∀ k ∈ Node.expr e :: front, k.block? = none := by
    intro k mem
    rcases List.mem_cons.mp mem with rfl | mem
    · rfl
    · exact open_ k mem
  rintro site _ site' ⟨order, holds⟩ ran
  have near : ∀ anchor', (⟨.expr e :: (front ++ .block b :: up)⟩ : Path).anchor? = some anchor' →
      (R.ledger unit mark).FitsNear (.expr e :: (front ++ .block b :: up))
        ⟨anchor', e, none, .replace new [R.refers]⟩ := by
    intro anchor' found' front' b' up' split' open_'
    cases found.symm.trans found'
    obtain ⟨-, rfl, rfl⟩ := Path.nearest_unique
      (show (Node.expr e :: front) ++ .block b :: up = front' ++ .block b' :: up' from split')
      blockless open_'
    exact fits
  have keeps : (R.ledger unit mark).Holds (.expr e :: (front ++ .block b :: up)) hand site' :=
    Regime.replaceHere_holds comes.stands (fun _ => rfl) e.mem_subterms_self paid near holds ran
  unfold PassM.replaceHere at ran
  obtain ⟨_, _, ran₂, ran⟩ := VisitM.ok_of_bind ran
  cases ran₂
  simp only [holds.outward, found] at ran
  obtain ⟨_, _, ran₃, ran⟩ := VisitM.ok_of_bind ran
  cases ran₃
  cases ran
  obtain ⟨inside, tail, waiting, nodes, tails⟩ := List.map_eq_append_iff.mp
    (show site.cursor.waiting.map (·.1) = (Node.expr e :: front) ++ .block b :: up from holds.path)
  obtain ⟨⟨_, fixes⟩, back, rfl, rfl, rfl⟩ := List.map_eq_cons_iff.mp tails
  let fix : PendingFix := ⟨anchor, e, none, .replace new [R.refers]⟩
  obtain ⟨order', -, noted⟩ := order.noteFix waiting
    (fun p mem => blockless p.1 (nodes ▸ List.mem_map_of_mem mem)) (show fix.anchor ∈ b.stmts from member)
  exact ⟨⟨order', keeps⟩, fix, noted, rfl, rfl⟩

end

/-! ## The visit of a tree -/

/-- What a remedy that rewrites does at a node. It notes what gives way when it comes to it
or, if so `due`, when it leaves the nearest block. -/
structure Follows (R : Rewriting γ) (knows : List Node → σ → Prop) (due : Prop)
    (unit : CompilationUnit) (mark : NodeId) (remedy : Remedy σ) : Prop where
  sparing : R.Sparing
  /-- What the remedy knows inside of a node it knows outside of it. -/
  outward : ∀ n above own, knows (n :: above) own → knows above own
  enter : ∀ n above hand ws was, R.Comes due unit mark n above →
    VisitM.Triple
      (fun site => R.Order knows unit ws was above site ∧ (R.ledger unit mark).Holds (n :: above) hand site)
      (remedy.enter n) fun goOn site => (R.Order knows unit ws was (n :: above) site ∧
          (R.ledger unit mark).Holds (n :: above) hand site) ∧
        if goOn then R.isGiven (R.place above) n = true → due
        else ∃ e, n = .expr e ∧ R.gives (R.place above) e = true ∧
          Noted (nearestFixes site.cursor.waiting) e.id
  leave : ∀ b above hand ws was, R.Comes due unit mark (.block b) above →
    VisitM.Triple
      (fun site => R.Order knows unit ws was (.block b :: above) site ∧
        (R.ledger unit mark).Holds (.block b :: above) hand site)
      (remedy.leave b) fun _ site => (R.Order knows unit ws was (.block b :: above) site ∧
          (R.ledger unit mark).Holds (.block b :: above) hand site) ∧
        (∀ s ∈ b.stmts, R.drops (R.place (.block b :: above)) s = true →
          Removing (nearestFixes site.cursor.waiting) s.id) ∧
        (due → ∀ s ∈ b.stmts, ∀ e, R.Outermost e (R.place (.block b :: above)) (.stmt s) →
          Noted (nearestFixes site.cursor.waiting) e.id)

section

variable {knows : List Node → σ → Prop} {due : Prop} {unit : CompilationUnit} {mark : NodeId}
  {n : Node} {above : List Node} {hand : Multiset Node} {ws : List (Node × List PendingFix)}
  {was : Prop}

/-- The children `done` of a node have become `outs`. -/
structure Visited (R : Rewriting γ) (knows : List Node → σ → Prop) (due : Prop)
    (unit : CompilationUnit) (mark : NodeId) (n : Node) (above : List Node)
    (ws : List (Node × List PendingFix)) (was : Prop) (done outs : List Node) (site : Site Note σ) :
    Prop where
  order : R.Order knows unit ws was (n :: above) site
  underway : List.Forall₂ (R.Underway mark (site.cursor.asked ≠ []) (Awaited due site.cursor.waiting)
    (R.place (n :: above))) done outs
  became : List.Forall₂ ((R.ledger unit mark).Became (n :: above)) done outs

/-- The action rewrites a node, but for what waits at the block around it. -/
def Turns (R : Rewriting γ) (knows : List Node → σ → Prop) (due : Prop) (unit : CompilationUnit)
    (mark : NodeId) (n : Node) (above : List Node) (action : PassM σ Node) : Prop :=
  ∀ ws was rest, VisitM.Triple
    (fun site => R.Order knows unit ((n, []) :: ws) was above site ∧
      (R.ledger unit mark).Holds (n :: above) (n.parts (fun _ => false) + rest) site)
    action fun out site =>
      (R.Order knows unit ((n, []) :: ws) was above site ∧
        R.Underway mark (site.cursor.asked ≠ []) (Awaited due site.cursor.waiting.tail)
          (R.place above) n out) ∧
      (R.ledger unit mark).Became above n out ∧
      (R.ledger unit mark).Holds (n :: above) (out.parts (fun _ => false) + rest) site

/-- Visiting one more child of a node. -/
theorem Visited.child {c : Node} {visit : PassM σ Node} {done outs : List Node}
    (turns : R.Turns knows due unit mark c (n :: above) visit) (rest : Multiset Node) :
    VisitM.Triple
      (fun site => R.Visited knows due unit mark n above ws was done outs site ∧
        (R.ledger unit mark).Holds (n :: above) (c.parts (fun _ => false) + rest) site)
      (VisitM.inFrame c visit) fun out site =>
        R.Visited knows due unit mark n above ws was (done ++ [c]) (outs ++ [out]) site ∧
        (R.ledger unit mark).Holds (n :: above) (out.parts (fun _ => false) + rest) site := by
  rintro site out site' ⟨visited, holds⟩ ran
  -- The visit of the child only adds to what is known at this site.
  have made := turns site.cursor.waiting (site.cursor.asked ≠ []) rest
  have framed : VisitM.Triple (· = site) (VisitM.inFrame c visit) fun out site =>
      R.Visited knows due unit mark n above ws was (done ++ [c]) (outs ++ [out]) site ∧
      (R.ledger unit mark).Holds (n :: above) (out.parts (fun _ => false) + rest) site := by
    refine .inFrame made ?_ ?_
    · rintro _ rfl
      exact ⟨visited.order.push (frames_ne_nil holds) c, holds.push c⟩
    · rintro out inner ⟨⟨order, underway⟩, became, holds'⟩
      have popped := order.pop (frames_ne_nil holds'.pop)
      have waiting : inner.cursor.pop.waiting = inner.cursor.waiting.tail := inner.cursor.waiting_pop
      have asked : inner.cursor.pop.asked = inner.cursor.asked :=
        Cursor.asked_pop (frames_ne_nil holds'.pop)
      refine ⟨⟨⟨popped.legible, popped.asked, fun so => popped.since (visited.order.since so),
        visited.order.grown.trans popped.grown, popped.knows⟩, ?_, ?_⟩, holds'.pop⟩
      · rw [← waiting, ← asked] at underway
        refine List.rel_append (visited.underway.imp fun _ _ h => h.mono popped.since ?_)
          (.cons underway .nil)
        exact fun e _ => Or.imp_right popped.grown.noted
      · exact List.rel_append visited.became (.cons became .nil)
  exact framed rfl ran

/-- Settling a node whose children are underway. -/
theorem settle_turns (sparing : R.Sparing) (comes : R.Comes due unit mark n above)
    (distinct : ((Node.unit unit).subtree.map Node.id).Nodup)
    (old : ∀ n ∈ (Node.unit unit).subtree, n.id < mark) {news : List Node} :
    VisitM.Triple
      (fun site => R.Visited knows due unit mark n above ws was n.children news site ∧
        (R.ledger unit mark).Holds (n :: above) hand site)
      (Visitor.settle n news : PassM σ Node) fun out site =>
        R.Visited knows due unit mark n above ws was n.children out.children site ∧
        (out = n ∨ mark ≤ out.id ∧ R.Acts (R.place above) n) := by
  unfold Visitor.settle
  split
  next all =>
    refine .pure fun site h => ?_
    obtain ⟨visited, -⟩ := h
    have back := Node.children_eq_of_same (visited.became.imp fun _ _ h => h.new)
      (fun c hc => (ledger_lawful distinct old).id_lt comes.stands
        (Node.mem_subtree_of_child hc Node.mem_subtree_self)) all
    exact ⟨back ▸ visited, .inl rfl⟩
  next some =>
    refine .fresh fun site h => ?_
    obtain ⟨visited, holds⟩ := h
    have refilled := n.refilled_withChildren site.next (visited.underway.imp fun _ _ h => h.sameSort)
    rw [← refilled.children] at visited
    refine ⟨⟨visited.order.next _, visited.underway, visited.became⟩, .inr ⟨?_, ?_⟩⟩
    · exact Nat.le_trans holds.owns.le (Nat.le_of_eq (n.id_withChildren site.next news).symm)
    · -- A child has changed, and something gives way in it.
      by_contra nothing
      refine some (List.all_eq_true.mpr ?_)
      rintro ⟨c, c'⟩ mem
      rw [← refilled.children] at mem
      have new := ((List.forall₂_iff_zip.mp visited.underway).2 mem).new
      rw [new.resolve_right fun changed => nothing (sparing.acts (List.of_mem_zip mem).1 changed.2)]
      exact Node.same_self _

/-- Visiting all the children of a node. -/
theorem descend_turns (sparing : R.Sparing) (comes : R.Comes due unit mark n above)
    (distinct : ((Node.unit unit).subtree.map Node.id).Nodup)
    (old : ∀ n ∈ (Node.unit unit).subtree, n.id < mark) {visit : Node → PassM σ Node}
    (below : ∀ c ∈ n.children, R.Turns knows due unit mark c (n :: above) (visit c))
    (rest : Multiset Node) :
    VisitM.Triple
      (fun site => R.Order knows unit ws was (n :: above) site ∧
        (R.ledger unit mark).Holds (n :: above) (n.parts (fun _ => false) + rest) site)
      (n.children.mapM (fun c => VisitM.inFrame c (visit c)) >>= Visitor.settle n) fun out site =>
        (R.Visited knows due unit mark n above ws was n.children out.children site ∧
          (out = n ∨ mark ≤ out.id ∧ R.Acts (R.place above) n)) ∧
        (R.ledger unit mark).Walked above n out ∧
        (R.ledger unit mark).Holds (n :: above) (out.parts (fun _ => false) + rest) site := by
  obtain ⟨own, parts⟩ : ∃ own, n.parts (fun _ => false) =
    own + Node.partsOf (fun _ => false) n.children := ⟨_, n.parts_eq⟩
  refine (VisitM.Triple.mono (Regime.children_hold (R.Visited knows due unit mark n above ws was) rest
    parts fun done c todo outs rest split => Visited.child ?_ rest) ?_ fun _ _ h => h).bind
    fun news => ?_
  · exact below c (split ▸ List.mem_append_right _ List.mem_cons_self)
  · rintro site ⟨order, holds⟩
    exact ⟨⟨order, .nil, .nil⟩, holds⟩
  · rintro site out site' ⟨visited, holds⟩ ran
    refine ⟨settle_turns sparing comes distinct old ⟨visited, holds⟩ ran, ?_⟩
    exact Regime.settle_makes (ledger_lawful distinct old) comes.stands visited.became parts rest holds ran

/-- A node that is no block is underway when its children are. -/
theorem Visited.underway_node {out : Node} {site : Site Note σ} (open_ : n.block? = none)
    (given : R.isGiven (R.place above) n = true → due)
    (h : R.Visited knows due unit mark n above ws was n.children out.children site)
    (walked : (R.ledger unit mark).Walked above n out)
    (new : out = n ∨ mark ≤ out.id ∧ R.Acts (R.place above) n)
    (holds : (R.ledger unit mark).Holds (n :: above) hand site) :
    R.Underway mark (site.cursor.asked ≠ []) (Awaited due site.cursor.waiting.tail) (R.place above)
      n out := by
  cases gives : R.isGiven (R.place above) n with
  | true =>
    cases n with
    | expr e =>
      rw [walked.became.expr rfl]
      exact .waiting gives (.inl (given gives))
    | _ => cases gives
  | false =>
    obtain ⟨⟨_, fixes⟩, back, waiting, rfl, -⟩ := List.map_eq_cons_iff.mp holds.path
    refine .around gives walked.label new ?_
    rw [kept_of_open open_, waiting, List.tail_cons]
    have children := h.underway
    rw [waiting, awaited_open open_] at children
    exact children.imp fun _ _ h => h.mono id fun _ _ awaited => ⟨open_, awaited⟩

/-- Leaving a block, all that gives way in it is noted. -/
theorem Follows.leave_settles {remedy : Remedy σ} (follows : R.Follows knows due unit mark remedy)
    {before after : Block} (comes : R.Comes due unit mark (.block before) above) :
    VisitM.Triple
      (fun site => R.Visited knows due unit mark (.block before) above ws was
          (Node.block before).children (Node.block after).children site ∧
        (R.ledger unit mark).Holds (.block before :: above) hand site)
      (remedy.leave before) fun _ site => (R.Order knows unit ws was (.block before :: above) site ∧
          R.Settled mark (site.cursor.asked ≠ []) before after above
            (nearestFixes site.cursor.waiting)) ∧
        (R.ledger unit mark).Holds (.block before :: above) hand site := by
  rintro site _ site' ⟨visited, holds⟩ ran
  obtain ⟨⟨⟨legible, asked, since, grown, knows⟩, holds'⟩, drops, notes⟩ :=
    follows.leave before above hand site.cursor.waiting (site.cursor.asked ≠ []) comes
      ⟨⟨visited.order.legible, visited.order.asked, id, Grown.refl _, visited.order.knows⟩, holds⟩ ran
  refine ⟨⟨⟨legible, asked, fun so => since (visited.order.since so), visited.order.grown.trans grown,
    knows⟩, drops, ?_⟩, holds'⟩
  have stmts := visited.underway
  change List.Forall₂ _ (before.stmts.map Node.stmt) (after.stmts.map Node.stmt) at stmts
  rw [List.forall₂_map_left_iff, List.forall₂_map_right_iff, List.forall₂_iff_zip] at stmts
  rw [List.forall₂_iff_zip]
  refine ⟨stmts.1, fun {s s'} pair => (stmts.2 pair).mono since fun e outermost awaited => ?_⟩
  rcases awaited with due | noted
  · exact notes due s (List.of_mem_zip pair).1 e outermost
  · exact grown.noted noted

/-- The visit of a tree rewrites it. -/
theorem Follows.run {remedy : Remedy σ} (follows : R.Follows knows due unit mark remedy) {env : PassEnv}
    (splicer : env.splicer = .standard) (distinct : ((Node.unit unit).subtree.map Node.id).Nodup)
    (old : ∀ n ∈ (Node.unit unit).subtree, n.id < mark) (n : Node) (above : List Node)
    (comes : R.Comes due unit mark n above) :
    R.Turns knows due unit mark n above ((remedy.visitor env).run n) := by
  intro ws was rest
  have lawful := ledger_lawful (R := R) distinct old
  have outside {ws : List (Node × List PendingFix)} {was : Prop} {site : Site Note σ}
      (order : R.Order knows unit ws was (n :: above) site) : R.Order knows unit ws was above site :=
    { order with knows := follows.outward n above _ order.knows }
  rw [Visitor.run_eq]
  unfold Remedy.visitor
  dsimp only
  refine (follows.enter n above _ ((n, []) :: ws) was comes).bind ?_
  intro goOn
  cases goOn with
  | false =>
    refine .pure fun site h => ?_
    obtain ⟨⟨order, holds⟩, e, rfl, gives, noted⟩ := h
    refine ⟨⟨outside order, .waiting gives (.inr ?_)⟩, lawful.became _ _, holds⟩
    obtain ⟨⟨_, fixes⟩, back, waiting, rfl, -⟩ := List.map_eq_cons_iff.mp holds.path
    rw [waiting, nearestFixes_open rfl] at noted
    rwa [waiting]
  | true =>
    rw [if_pos rfl]
    rintro site out site' ⟨⟨order, holds⟩, given⟩ ran
    obtain ⟨walked, site₁, ran₁, ran₂⟩ := VisitM.ok_of_bind ran
    obtain ⟨⟨visited, new⟩, made, holds₁⟩ := descend_turns follows.sparing comes distinct old
      (fun c hc => follows.run splicer distinct old c (n :: above) (comes.child hc given)) rest
      ⟨order, holds⟩ ran₁
    split at ran₂
    next before after =>
      rw [splicer] at ran₂
      obtain ⟨_, site₂, left, ran₂⟩ := VisitM.ok_of_bind ran₂
      obtain ⟨settled, holds₂⟩ := follows.leave_settles comes ⟨visited, holds₁⟩ left
      obtain ⟨block, _, repaired, done⟩ := VisitM.ok_of_bind ran₂
      cases done
      obtain ⟨order', underway⟩ := repair_rewrites follows.sparing comes distinct old made
        (new.imp Node.block.inj And.right) ⟨settled, holds₂⟩ repaired
      exact ⟨⟨outside order', underway.mono id fun _ _ => False.elim⟩,
        Regime.repair_mends lawful comes.stands made rest holds₂ repaired⟩
    next unblocked =>
      cases ran₂
      refine ⟨⟨outside visited.order, ?_⟩, made.became, holds₁⟩
      have open_ : n.block? = none := by
        cases n with
        | block before =>
          have sort := made.became.sort
          cases out with
          | block after => exact (unblocked before after rfl rfl).elim
          | _ => cases sort
        | _ => rfl
      exact visited.underway_node open_ given made new holds₁
termination_by sizeOf n
decreasing_by exact Node.sizeOf_lt_of_mem_children hc

/-- In a unit and in a class, all expressions stand in blocks. -/
theorem not_outermost_unit {p : γ} {e : Expr} (h : R.Outermost e p (.unit unit)) : False := by
  cases h with
  | under _ _ mem inner =>
    obtain ⟨c, -, rfl⟩ := List.mem_map.mp mem
    cases inner with
    | under _ _ mem inner =>
      cases List.mem_singleton.mp mem
      cases inner with
      | under _ open_ => cases open_

/-- A pass that follows a rewriting makes of a unit what the rewriting makes of it, and asks
for the class that it refers to if and only if something gives way. -/
theorem Follows.pass {remedy : Remedy σ} {env : PassEnv} {own : σ} {out : PassResult} {used : NodeId}
    (follows : R.Follows knows due unit mark remedy) (splicer : env.splicer = .standard)
    (distinct : ((Node.unit unit).subtree.map Node.id).Nodup)
    (old : ∀ n ∈ (Node.unit unit).subtree, n.id < mark) (start : knows [] own)
    (ran : (remedy.visitor env).pass own unit mark = (.ok out, used)) :
    ∃ changed : CompilationUnit, R.Rewritten R.outside (.unit unit) (.unit changed) ∧
      (¬ R.Acts R.outside (.unit unit) ∧ out.unit = unit ∧ changed = unit ∨
        R.Acts R.outside (.unit unit) ∧ ∃ set : ImportRequests, set.requested = [R.refers] ∧
          ∃ next, out.unit = (set.apply changed next).1) := by
  unfold Visitor.pass at ran
  split at ran
  next => cases ran
  next node site ended =>
    have comes : R.Comes due unit mark (.unit unit) [] :=
      ⟨Regime.stands_root rfl, rfl, .inr trivial⟩
    have order : R.Order knows unit [(.unit unit, [])] False []
        { cursor := .ofRoot (.unit unit), next := mark, own : Site Note σ } :=
      ⟨Cursor.legible_ofPath ⟨[.unit unit]⟩, .inl rfl, False.elim, Grown.refl _, start⟩
    obtain ⟨⟨order, underway⟩, -, holds⟩ := follows.run splicer distinct old _ _ comes [] False 0
      ⟨order, Regime.holds_root rfl own⟩ ended
    -- At the unit, nothing waits any more.
    have underway : R.Underway mark (site.cursor.asked ≠ []) (fun _ => False) R.outside (.unit unit)
        node := underway.mono id fun e outermost _ => not_outermost_unit outermost
    have rewritten := underway.rewritten fun _ => id
    cases node with
    | unit made =>
      dsimp only at ran
      refine ⟨made, rewritten, ?_⟩
      split at ran
      next same =>
        cases ran
        have back : Node.unit made = .unit unit := by
          refine underway.new.resolve_right fun late => ?_
          have late : mark ≤ made.id := late.1
          rw [same] at late
          exact Nat.not_lt_of_le late (old _ Node.mem_subtree_self)
        refine .inl ⟨fun acts => ?_, Node.unit.inj back, Node.unit.inj back⟩
        obtain ⟨-, m, mem, late⟩ := underway.of_acts (fun _ => id) acts
        rw [back] at mem
        exact Nat.not_lt_of_le late (old m mem)
      next differs =>
        cases ran
        have acts := (underway.new.resolve_left fun back => differs (congrArg Node.id back)).2
        have asked := order.asked.resolve_left (underway.of_acts (fun _ => id) acts).1
        refine .inr ⟨acts, _, ?_, _, rfl⟩
        rw [Cursor.requested_takeImports, Cursor.asked_takeFindings, asked.1]
    | _ => cases rewritten.sameSort

end

end Rewriting

end JavaMend
