import JavaMend.Proofs.RandomStrings.Sweeping
import JavaMend.Proofs.Remedy.Rewriting

/-!
# The end of the visit of a block

When the visit of a block ends, the calls that wait there give way one by one
(`RandomString.Halfway.run`). Then a class that gets a generator gets its members: each of
these fixes edits the segment of its anchor (`RandomString.edited_of_advance`), also if they
all have the same one. Together they turn the block (`RandomString.repair_turns`).
-/

namespace JavaMend

namespace Regime

variable {G : Regime} {σ : Type} {before : Block} {above : List Node} {todo : List PendingFix}
  {fix : PendingFix} {rest : Multiset Node} {c c' : Repair} {parts : List (Stmt × Segment)}
  {site site' : Site Note σ}

/-- Applying a fix only asks for imports. -/
theorem Repairing.asks (h : G.Repairing before above (fix :: todo) rest c parts site)
    (anchored : G.Anchored (.block before :: above) fix)
    (ran : Repair.apply .standard c fix site = .ok c' site') : site.Asks site' := by
  obtain ⟨b, above', at_, inside⟩ := anchored.anchor
  cases at_
  obtain ⟨⟨anchor, front, core, back⟩, mem, rfl⟩ : ∃ p ∈ parts, p.1 = fix.anchor :=
    List.mem_map.mp (h.anchors ▸ inside)
  obtain ⟨core, rfl⟩ := Option.isSome_iff_exists.mp (h.alive fix List.mem_cons_self _ mem rfl)
  obtain ⟨pre, post, rfl⟩ := List.append_of_mem mem
  have tracks := h.tracks
  rw [List.flatMap_cons, List.map_append] at tracks
  exact (Repair.apply_tracks tracks ran).1

end Regime

namespace RandomString

open Rewriting (Noted Grown nearestFixes)

/-! ## Fixes that may wait -/

/-- The fix lets a call give way. -/
structure Replaces (mark : NodeId) (path : List Node) (fix : PendingFix) : Prop where
  kind : ∃ new, fix.kind = .replace new [] ∧ Makes new ∧ mark ≤ new.id
  outermost : turning.Outermost fix.tainted (turning.place path) (.stmt fix.anchor)

/-- The nodes of a unit, none twice, and the fixes of the pass for random strings. -/
abbrev ledger (unit : CompilationUnit) (mark : NodeId) : Regime where
  hidden _ := false
  tree := (Node.unit unit).parts fun _ => false
  mark := mark
  fits path fix := fix.kind.tag = .replace → Replaces mark path fix
  became _ _ _ := True
  segment _ _ _ := True

theorem ledger_lawful {unit : CompilationUnit} {mark : NodeId}
    (distinct : ((Node.unit unit).subtree.map Node.id).Nodup)
    (old : ∀ n ∈ (Node.unit unit).subtree, n.id < mark) : (ledger unit mark).Lawful where
  drawn := .of_distinct distinct old
  became_self _ _ := trivial
  became_refilled _ _ _ _ _ _ := trivial
  segment_visited _ _ _ _ _ _ := trivial
  segment_step _ _ _ _ _ _ _ _ _ _ _ _ _ _ _ := trivial
  became_repaired _ _ _ _ _ _ _ _ := trivial

/-- Fixes that bring the new members of a class that gets a generator, and these members. -/
inductive Joins (mark : NodeId) (above : List Node) (b : Block) :
    List PendingFix → List Stmt → List Stmt → Prop where
  | none (stays : newOwner? above b = none) : Joins mark above b [] [] []
  | some {owner : Ty} {first last : Stmt} {next next' : NodeId} (call : Expr)
      (joins : newOwner? above b = some owner) (head : b.stmts.head? = some first)
      (tail : b.stmts.getLast? = some last) (early : mark ≤ next) (late : mark ≤ next') :
      Joins mark above b
        (⟨first, call, none, .insertBefore (mkHead owner next).1⟩ ::
          ⟨last, call, none, .insertAfter [(mkMethod owner (utilsFor (drawsOf b)) next').1]⟩ ::
          (loneField? b lengthField).toList.map fun s => ⟨s, call, none, .remove⟩)
        (mkHead owner next).1 [(mkMethod owner (utilsFor (drawsOf b)) next').1]

variable {mark : NodeId} {above : List Node} {b before after : Block} {front back : List Stmt}
  {fixes olds added todo : List PendingFix} {fix : PendingFix} {parts parts' : List (Stmt × Segment)}
  {pairs : List (Stmt × Stmt)}

theorem Joins.members (h : Joins mark above b added front back) : Members mark above b front back := by
  unfold Members
  cases h with
  | none stays =>
    rw [stays]
    exact ⟨rfl, rfl⟩
  | some call joins _ _ early late =>
    rw [joins]
    exact ⟨⟨_, early, rfl⟩, _, late, rfl⟩

/-! ## The calls -/

section

variable {unit : CompilationUnit} {rest : Multiset Node} {c c' : Repair} {site site' : Site Note Unit}

/-- A block after its visit, while the calls `todo` are still to give way. -/
def Halfway (mark : NodeId) (path : List Node) (todo : List PendingFix)
    (parts : List (Stmt × Segment)) : Prop :=
  ∀ q ∈ parts, ∃ swept core, q.2 = .ofStmt core ∧ Swept mark path (.stmt q.1) (.stmt swept) ∧
    ((Node.stmt swept).subtree.map Node.id).Nodup ∧
    turning.Underway mark True (Noted todo) (turning.place path) (.stmt swept) (.stmt core)

/-- One call gives way. -/
theorem Halfway.step (comes : turning.Comes False unit mark (.block before) above)
    (distinct : ((Node.unit unit).subtree.map Node.id).Nodup)
    (old : ∀ n ∈ (Node.unit unit).subtree, n.id < mark) {pending : List PendingFix}
    (repairing : (ledger unit mark).Repairing before above (fix :: pending) rest c parts site)
    (anchored : (ledger unit mark).Anchored (.block before :: above) fix)
    (replaces : fix.kind.tag = .replace)
    (h : Halfway mark (.block before :: above) (fix :: todo) parts)
    (advance : Repair.Advance site.next fix parts parts') :
    Halfway mark (.block before :: above) todo parts' := by
  obtain ⟨b, up, at_, inside⟩ := anchored.anchor
  cases at_
  obtain ⟨⟨new, kind, made, late⟩, outermost⟩ := anchored.fits replaces
  have nodup : (parts.map (·.1)).Nodup := by
    rw [repairing.anchors]
    exact comes.nodup distinct
  -- The other calls wait on.
  have elsewhere {q : Stmt × Segment} (mem : q ∈ parts) (other : q.1 ≠ fix.anchor) :
      ∃ swept core, q.2 = .ofStmt core ∧
        Swept mark (.block before :: above) (.stmt q.1) (.stmt swept) ∧
        ((Node.stmt swept).subtree.map Node.id).Nodup ∧
        turning.Underway mark True (Noted todo) (turning.place (.block before :: above))
          (.stmt swept) (.stmt core) := by
    obtain ⟨swept, core, at_, isSwept, own, underway⟩ := h q mem
    refine ⟨swept, core, at_, isSwept, own, underway.mono id ?_⟩
    rintro e waits ⟨fix', mem', tag, same⟩
    rcases List.mem_cons.mp mem' with rfl | mem'
    · have listed : q.1 ∈ before.stmts := by
        rw [← repairing.anchors]
        exact List.mem_map_of_mem mem
      exact (other (comes.apart distinct inside listed outermost.mem
        (isSwept.outermost_iff.mp waits).mem same)).elim
    · exact ⟨fix', mem', tag, same⟩
  have changed {pre post : List (Stmt × Segment)} {g : Segment} {swept core' : Stmt}
      (split : parts = pre ++ (fix.anchor, g) :: post)
      (isSwept : Swept mark (.block before :: above) (.stmt fix.anchor) (.stmt swept))
      (own : ((Node.stmt swept).subtree.map Node.id).Nodup)
      (underway : turning.Underway mark True (fun id => Noted (fix :: todo) id ∧ id ≠ fix.tainted.id)
        (turning.place (.block before :: above)) (.stmt swept) (.stmt core')) :
      Halfway mark (.block before :: above) todo (pre ++ (fix.anchor, .ofStmt core') :: post) := by
    intro q mem
    rcases Rewriting.mem_of_split (split ▸ nodup) mem with rfl | ⟨mem, other⟩
    · refine ⟨swept, core', rfl, isSwept, own, underway.mono id ?_⟩
      rintro e - ⟨⟨fix', mem', tag, same⟩, other⟩
      rcases List.mem_cons.mp mem' with rfl | mem'
      · exact (other same.symm).elim
      · exact ⟨fix', mem', tag, same⟩
    · exact elsewhere (split ▸ mem) other
  cases advance with
  | @missed pre post front back core misses =>
    obtain ⟨swept, _, at_, isSwept, own, underway⟩ :=
      h (fix.anchor, _) (List.mem_append_right _ List.mem_cons_self)
    cases at_
    refine changed rfl isSwept own (underway.missed ?_)
    exact Stmt.absent_of_replaceExpr? (misses.2 new _ kind)
  | @stepped pre post front back before' after' core core' used step =>
    have mem : (fix.anchor, ⟨front, some core, back⟩) ∈
      pre ++ (fix.anchor, ⟨front, some core, back⟩) :: post := List.mem_append_right _ List.mem_cons_self
    obtain ⟨swept, _, at_, isSwept, own, underway⟩ := h _ mem
    cases at_
    have member : core ∈ c.block.stmts := by
      rw [repairing.tracks.stmts]
      exact List.mem_flatMap.mpr ⟨_, mem, by simp [Segment.stmts]⟩
    cases step with
    | @replace new' imports stmt replaced kind' below changes =>
      cases kind.symm.trans kind'
      have within : Node.expr fix.tainted ∈ (Node.unit unit).subtree :=
        (Node.subtree_sublist_of_genuine comes.stands.genuine comes.root).subset
          (Node.mem_subtree_of_child (List.mem_map_of_mem inside) outermost.mem)
      refine changed rfl isSwept own ?_
      refine underway.replaced (isSwept.outermost_iff.mpr outermost) own (old _ within) made id trivial
        late ?_ repairing.holds.owns.le ?_ (Stmt.replaceExpr?_node changes)
      · intro m mem early
        rw [Node.subtree_eq, children_of_makes made] at mem
        cases List.mem_singleton.mp mem
        exact absurd early (Nat.not_lt_of_le late)
      · exact (repairing.replaced (ledger_lawful distinct old) anchored member replaces).1
    | extract kind' => cases kind.symm.trans kind'
    | guardAfter kind' => cases kind.symm.trans kind'
    | insertAfter kind' => cases kind.symm.trans kind'
    | insertBefore kind' => cases kind.symm.trans kind'
    | remove kind' => cases kind.symm.trans kind'

/-- Asking for imports leaves alone what waits. -/
theorem waiting_of_asks (legible : site.cursor.Legible) (asks : site.Asks site') :
    site'.cursor.Legible ∧ site'.cursor.waiting = site.cursor.waiting := by
  obtain ⟨-, fqns, same⟩ := asks
  rw [same]
  exact ⟨legible.requestImports fqns, site.cursor.waiting_requestImports fqns⟩

/-- All the calls give way. -/
theorem Halfway.run (comes : turning.Comes False unit mark (.block before) above)
    (distinct : ((Node.unit unit).subtree.map Node.id).Nodup)
    (old : ∀ n ∈ (Node.unit unit).subtree, n.id < mark) {later : List PendingFix}
    (anchored : ∀ fix ∈ todo ++ later, (ledger unit mark).Anchored (.block before :: above) fix)
    (replaces : ∀ fix ∈ todo, fix.kind.tag = .replace)
    (precede : (todo ++ later).Pairwise PendingFixes.Precedes)
    (repairing : (ledger unit mark).Repairing before above (todo ++ later) rest c parts site)
    (h : Halfway mark (.block before :: above) todo parts) (legible : site.cursor.Legible)
    (ran : todo.foldlM (Repair.apply .standard) c site = .ok c' site') :
    ∃ parts', (ledger unit mark).Repairing before above later rest c' parts' site' ∧
      Halfway mark (.block before :: above) [] parts' ∧
      site'.cursor.Legible ∧ site'.cursor.waiting = site.cursor.waiting := by
  induction todo generalizing c parts site with
  | nil =>
    cases ran
    exact ⟨parts, repairing, h, legible, rfl⟩
  | cons fix todo ih =>
    rw [List.foldlM_cons] at ran
    obtain ⟨first, precede⟩ := List.pairwise_cons.mp precede
    obtain ⟨c₁, site₁, ran₁, ran₂⟩ := VisitM.ok_of_bind ran
    have anchor := anchored fix List.mem_cons_self
    obtain ⟨parts₁, repairing₁, advance⟩ := repairing.step (ledger_lawful distinct old) anchor first ran₁
    obtain ⟨legible₁, same⟩ := waiting_of_asks legible (repairing.asks anchor ran₁)
    have h₁ := h.step comes distinct old repairing anchor (replaces fix List.mem_cons_self) advance
    rw [← same]
    exact ih (fun fix mem => anchored fix (List.mem_cons_of_mem _ mem))
      (fun fix mem => replaces fix (List.mem_cons_of_mem _ mem)) precede repairing₁ h₁ legible₁ ran₂

end

/-! ## The members -/

/-- What a fix that writes or removes makes of the segment of its anchor. -/
def edit (fix : PendingFix) (g : Segment) : Segment :=
  match fix.kind with
  | .insertAfter stmts => ⟨g.front, g.core, stmts ++ g.back⟩
  | .insertBefore stmts => ⟨g.front ++ stmts, g.core, g.back⟩
  | .remove => ⟨g.front, none, g.back⟩
  | _ => g

/-- What a fix makes of the segment of a statement. -/
def editAt (s : Stmt) (g : Segment) (fix : PendingFix) : Segment :=
  if fix.anchor.id = s.id then edit fix g else g

/-- Such a fix edits the segment of its anchor. -/
theorem edited_of_advance {next : NodeId} (nodup : (parts.map (·.1.id)).Nodup)
    (edits : fix.kind.tag ∈ [.insertAfter, .insertBefore, .remove])
    (advance : Repair.Advance next fix parts parts') :
    parts' = parts.map fun q => (q.1, editAt q.1 q.2 fix) := by
  have around {pre post : List (Stmt × Segment)} {g g' : Segment} (changes : g' = edit fix g)
      (split : parts = pre ++ (fix.anchor, g) :: post) :
      pre ++ (fix.anchor, g') :: post = parts.map fun q => (q.1, editAt q.1 q.2 fix) := by
    subst split
    rw [List.map_append, List.map_cons, List.nodup_append, List.nodup_cons] at nodup
    have same {qs : List (Stmt × Segment)} (apart : ∀ q ∈ qs, q.1.id ≠ fix.anchor.id) :
        (qs.map fun q => (q.1, editAt q.1 q.2 fix)) = qs := by
      refine (List.map_congr_left fun q mem => ?_).trans (List.map_id qs)
      unfold editAt
      rw [if_neg (apart q mem).symm]
      rfl
    rw [List.map_append, List.map_cons,
      same fun q mem => nodup.2.2 _ (List.mem_map_of_mem mem) _ List.mem_cons_self,
      same fun q mem at_ => nodup.2.1.1 (List.mem_map.mpr ⟨q, mem, at_⟩)]
    unfold editAt
    rw [if_pos rfl, changes]
  cases advance with
  | missed misses =>
    refine around ?_ rfl
    obtain ⟨⟨stays, nothing⟩, -⟩ := misses
    obtain ⟨anchor, call, parent, kind⟩ := fix
    cases kind <;> simp_all [edit, FixKind.written, FixKind.tag]
  | stepped step =>
    refine around ?_ rfl
    cases step with
    | insertAfter kind => simp [edit, kind]
    | insertBefore kind => simp [edit, kind]
    | remove kind => simp [edit, kind]
    | extract kind => simp [kind, FixKind.tag] at edits
    | guardAfter kind => simp [kind, FixKind.tag] at edits
    | replace kind => simp [kind, FixKind.tag] at edits

/-- All the edits are made. -/
theorem edited_run {unit : CompilationUnit} {rest : Multiset Node} {c c' : Repair}
    {site site' : Site Note Unit} (lawful : (ledger unit mark).Lawful)
    (nodup : (before.stmts.map (·.id)).Nodup)
    (anchored : ∀ fix ∈ todo, (ledger unit mark).Anchored (.block before :: above) fix)
    (edits : ∀ fix ∈ todo, fix.kind.tag ∈ [.insertAfter, .insertBefore, .remove])
    (precede : todo.Pairwise PendingFixes.Precedes)
    (repairing : (ledger unit mark).Repairing before above todo rest c parts site)
    (legible : site.cursor.Legible)
    (ran : todo.foldlM (Repair.apply .standard) c site = .ok c' site') :
    (ledger unit mark).Repairing before above [] rest c'
        (parts.map fun q => (q.1, todo.foldl (editAt q.1) q.2)) site' ∧
      site'.cursor.Legible ∧ site'.cursor.waiting = site.cursor.waiting := by
  induction todo generalizing c parts site with
  | nil =>
    cases ran
    exact ⟨by simpa using repairing, legible, rfl⟩
  | cons fix todo ih =>
    rw [List.foldlM_cons] at ran
    obtain ⟨first, precede⟩ := List.pairwise_cons.mp precede
    obtain ⟨c₁, site₁, ran₁, ran₂⟩ := VisitM.ok_of_bind ran
    have anchor := anchored fix List.mem_cons_self
    obtain ⟨parts₁, repairing₁, advance⟩ := repairing.step lawful anchor first ran₁
    obtain ⟨legible₁, same⟩ := waiting_of_asks legible (repairing.asks anchor ran₁)
    have ids : (parts.map (·.1.id)).Nodup := by
      rwa [← repairing.anchors, List.map_map] at nodup
    cases edited_of_advance ids (edits fix List.mem_cons_self) advance
    rw [← same]
    have done := ih (fun fix mem => anchored fix (List.mem_cons_of_mem _ mem))
      (fun fix mem => edits fix (List.mem_cons_of_mem _ mem)) precede repairing₁ legible₁ ran₂
    rwa [List.map_map] at done

/-- Replacements come before fixes that write or remove. -/
theorem ordered_append (replaces : ∀ fix ∈ olds, fix.kind.tag = .replace)
    (edits : ∀ fix ∈ added, fix.kind.tag ∈ [.insertAfter, .insertBefore, .remove]) :
    PendingFixes.ordered ⟨olds ++ added⟩ = olds ++ PendingFixes.ordered ⟨added⟩ := by
  have first (tag : FixTag) :
      olds.filter (·.kind.tag == tag) = if tag = .replace then olds else [] := by
    split
    next at_ => exact List.filter_eq_self.mpr fun fix mem => by rw [replaces fix mem, at_]; rfl
    next other =>
      refine List.filter_eq_nil_iff.mpr fun fix mem same => other ?_
      rw [← eq_of_beq same, replaces fix mem]
  have second (tag : FixTag) (other : tag ∉ [.insertAfter, .insertBefore, .remove]) :
      added.filter (·.kind.tag == tag) = [] :=
    List.filter_eq_nil_iff.mpr fun fix mem same => other (eq_of_beq same ▸ edits fix mem)
  unfold PendingFixes.ordered FixTag.all
  simp only [List.flatMap_cons, List.flatMap_nil, List.filter_append]
  rw [first .extract, first .guardAfter, first .replace, first .insertAfter, first .insertBefore,
    first .remove, second .extract (by decide), second .guardAfter (by decide),
    second .replace (by decide)]
  simp

/-- What the fixes for the new members of a class write and remove. -/
theorem Joins.stmts_edited (h : Joins mark above b added front back) (s core : Stmt) :
    ((PendingFixes.ordered ⟨added⟩).foldl (editAt s) (.ofStmt core)).stmts =
      (if b.stmts.head?.any (·.id == s.id) then front else []) ++
        ((if drops above b s then [] else [core]) ++
          if b.stmts.getLast?.any (·.id == s.id) then back else []) := by
  cases h with
  | none stays =>
    unfold drops
    simp [stays, Segment.ofStmt, Segment.stmts, PendingFixes.ordered, FixTag.all]
  | @some owner first last next next' call joins head tail _ _ =>
    unfold drops
    rw [head, tail, joins]
    cases loneField? b lengthField with
    | none =>
      show (editAt s (editAt s _ _) _).stmts = _
      by_cases first.id = s.id <;> by_cases last.id = s.id <;>
        simp_all [editAt, edit, Segment.ofStmt, Segment.stmts]
    | some lone =>
      show (editAt s (editAt s (editAt s _ _) _) _).stmts = _
      by_cases first.id = s.id <;> by_cases last.id = s.id <;> by_cases lone.id = s.id <;>
        simp_all [editAt, edit, Segment.ofStmt, Segment.stmts]

theorem Joins.edits (h : Joins mark above b added front back) :
    ∀ fix ∈ added, fix.kind.tag ∈ [.insertAfter, .insertBefore, .remove] := by
  cases h with
  | none => exact fun fix mem => (List.not_mem_nil mem).elim
  | some => cases loneField? b lengthField <;> simp [FixKind.tag]

/-- What is written before the first element of a list stands in front of all. -/
theorem flatMap_first {α β : Type} {key : α → NodeId} {l : List α} (nodup : (l.map key).Nodup)
    (front : List β) (mid : α → List β) (some : l = [] → front = []) :
    (l.flatMap fun x => (if (l.map key).head?.any (· == key x) then front else []) ++ mid x) =
      front ++ l.flatMap mid := by
  cases l with
  | nil => rw [some rfl]; rfl
  | cons a l =>
    rw [List.map_cons, List.nodup_cons] at nodup
    have later : ∀ x ∈ l, (if ((a :: l).map key).head?.any (· == key x) then front else []) ++ mid x =
        mid x := by
      intro x mem
      have other : key a ≠ key x := fun same => nodup.1 (same ▸ List.mem_map_of_mem mem)
      simp [other]
    rw [List.flatMap_cons, List.flatMap_congr later, List.flatMap_cons, ← List.append_assoc]
    simp

/-- What is written behind the last element of a list stands behind all. -/
theorem flatMap_last {α β : Type} {key : α → NodeId} {l : List α} (nodup : (l.map key).Nodup)
    (back : List β) (mid : α → List β) (some : l = [] → back = []) :
    (l.flatMap fun x => mid x ++ if (l.map key).getLast?.any (· == key x) then back else []) =
      l.flatMap mid ++ back := by
  rcases List.eq_nil_or_concat' l with rfl | ⟨l, a, rfl⟩
  · rw [some rfl]; rfl
  · rw [List.map_append, List.map_cons, List.map_nil, List.nodup_append] at nodup
    have earlier : ∀ x ∈ l, (mid x ++
        if ((l ++ [a]).map key).getLast?.any (· == key x) then back else []) = mid x := by
      intro x mem
      have other : key a ≠ key x :=
        fun same => nodup.2.2 _ (List.mem_map_of_mem mem) _ List.mem_cons_self same.symm
      simp [other]
    rw [List.flatMap_append, List.flatMap_congr earlier, List.flatMap_append, List.append_assoc]
    simp

/-- The statements of a block after all the edits. -/
theorem Joins.stmts (h : Joins mark above b added front back) (nodup : (b.stmts.map (·.id)).Nodup)
    (before : pairs.map (·.1) = b.stmts) :
    ((pairs.map fun p => (p.1, Segment.ofStmt p.2)).map fun q =>
        (q.1, (PendingFixes.ordered ⟨added⟩).foldl (editAt q.1) q.2)).flatMap (·.2.stmts) =
      front ++ (pairs.filter (!drops above b ·.1)).map (·.2) ++ back := by
  have heads : (pairs.map (·.1.id)) = b.stmts.map (·.id) := by rw [← before, List.map_map]; rfl
  have joined (none : pairs = []) : front = [] ∧ back = [] := by
    rw [none] at before
    cases h with
    | none => exact ⟨rfl, rfl⟩
    | some _ _ head =>
      rw [← before] at head
      cases head
  rw [← heads] at nodup
  rw [List.map_map, List.flatMap_map]
  simp only [Function.comp_apply, h.stmts_edited]
  have first (p : Stmt × Stmt) : b.stmts.head?.any (·.id == p.1.id) =
      (pairs.map (·.1.id)).head?.any (· == p.1.id) := by
    rw [heads, List.head?_map, Option.any_map]
  have last (p : Stmt × Stmt) : b.stmts.getLast?.any (·.id == p.1.id) =
      (pairs.map (·.1.id)).getLast?.any (· == p.1.id) := by
    rw [heads, List.getLast?_map, Option.any_map]
  have kept (ps : List (Stmt × Stmt)) : (ps.filter (!drops above b ·.1)).map (·.2) =
      ps.flatMap fun p => if drops above b p.1 then [] else [p.2] := by
    induction ps with
    | nil => rfl
    | cons p ps ih => cases dropped : drops above b p.1 <;> simp [dropped, ih]
  simp only [first, last]
  rw [flatMap_first nodup front _ fun none => (joined none).1,
    flatMap_last nodup back _ fun none => (joined none).2, kept, List.append_assoc]

/-- When all the calls have given way, the statements are turned. -/
theorem Halfway.turned (h : Halfway mark (.block before :: above) [] parts) :
    ∃ pairs : List (Stmt × Stmt), parts = pairs.map (fun p => (p.1, .ofStmt p.2)) ∧
      ∀ p ∈ pairs, Turned mark (.block before :: above) (.stmt p.1) (.stmt p.2) := by
  induction parts with
  | nil => exact ⟨[], rfl, fun p mem => (List.not_mem_nil mem).elim⟩
  | cons q parts ih =>
    obtain ⟨pairs, rfl, turned⟩ := ih fun q mem => h q (List.mem_cons_of_mem _ mem)
    obtain ⟨swept, core, at_, isSwept, -, underway⟩ := h q List.mem_cons_self
    refine ⟨(q.1, core) :: pairs, by rw [List.map_cons, ← at_], fun p mem => ?_⟩
    rcases List.mem_cons.mp mem with rfl | mem
    · refine isSwept.turned (fun parent up at_ => ?_) underway ?_
      · cases at_
        rfl
      · rintro id ⟨fix, none, -⟩
        exact (List.not_mem_nil none).elim
    · exact turned p mem

/-! ## The end of the visit -/

/-- Between two steps of the visit, what waited in `ws` still does, and only calls wait. -/
structure Order (ws : List (Node × List PendingFix)) (site : Site Note Unit) : Prop where
  legible : site.cursor.Legible
  grown : Grown ws site.cursor.waiting
  replaces : ∀ p ∈ site.cursor.waiting, ∀ fix ∈ p.2, fix.kind.tag = .replace

/-- At the end of the visit of a block, all the calls in it wait there, and so do the new
members of a class that gets a generator. -/
structure Leaving (mark : NodeId) (above : List Node) (before : Block)
    (ws : List (Node × List PendingFix)) (site : Site Note Unit) : Prop where
  legible : site.cursor.Legible
  waiting : ∃ olds added front back outer,
    site.cursor.waiting = (.block before, olds ++ added) :: outer ∧
    Joins mark above before added front back ∧ (∀ fix ∈ olds, fix.kind.tag = .replace) ∧
    (∀ s ∈ before.stmts, ∀ e, turning.Outermost e (turning.place (.block before :: above)) (.stmt s) →
      Noted olds e.id) ∧
    Grown ws outer ∧ ∀ p ∈ outer, ∀ fix ∈ p.2, fix.kind.tag = .replace

/-- Taking the fixes that wait at a block. -/
theorem take_leaving {ws : List (Node × List PendingFix)} :
    VisitM.Triple (Leaving mark above before ws)
      (VisitM.modifyCursor (·.take Note.fixTopic) : PassM Unit _) fun pending site =>
        Order ((.block before, []) :: ws) site ∧ ∃ olds added front back,
          ((pending.map (·.fixes)).getD []) = olds ++ added ∧ Joins mark above before added front back ∧
          (∀ fix ∈ olds, fix.kind.tag = .replace) ∧
          ∀ s ∈ before.stmts, ∀ e,
            turning.Outermost e (turning.place (.block before :: above)) (.stmt s) → Noted olds e.id := by
  refine .modifyCursor fun site h => ?_
  obtain ⟨legible, olds, added, front, back, outer, waiting, joins, replaces, noted, grown, plain⟩ := h
  have order {c : Cursor Note} (legible : c.Legible) (left : c.waiting = (.block before, []) :: outer) :
      Order ((.block before, []) :: ws) { site with cursor := c } := by
    refine ⟨legible, ?_, ?_⟩ <;> dsimp only <;> rw [left]
    · exact grown.outer
    · exact List.forall_mem_cons.mpr ⟨fun fix none => (List.not_mem_nil none).elim, plain⟩
  rcases Cursor.waiting_take waiting with ⟨none, empty, same⟩ | ⟨pending, taken, at_, left⟩
  · rw [empty] at waiting
    refine ⟨order legible.take_fixes (same.trans waiting), olds, added, front, back, ?_, joins, replaces,
      noted⟩
    rw [none, empty]
    rfl
  · refine ⟨order legible.take_fixes left, olds, added, front, back, ?_, joins, replaces, noted⟩
    rw [taken]
    exact at_

/-- Before the first call gives way. -/
theorem Halfway.start (own : ((Node.block after).subtree.map Node.id).Nodup)
    (swept : List.Forall₂ (fun s s' => Swept mark (.block before :: above) (.stmt s) (.stmt s'))
      before.stmts after.stmts)
    (noted : ∀ s ∈ before.stmts, ∀ e,
      turning.Outermost e (turning.place (.block before :: above)) (.stmt s) → Noted olds e.id) :
    Halfway mark (.block before :: above) olds (Repair.visited before after) := by
  intro q mem
  obtain ⟨r, hr, rfl⟩ := List.mem_map.mp mem
  obtain ⟨mem, mem'⟩ := List.of_mem_zip hr
  have isSwept := (List.forall₂_iff_zip.mp swept).2 hr
  refine ⟨r.2, r.2, rfl, isSwept, Node.distinct_child own (List.mem_map_of_mem mem'), ?_⟩
  refine isSwept.underway (fun parent up at_ => ?_) (noted r.1 mem)
  cases at_
  rfl

/-- Where fixes wait, something gives way. -/
theorem acts_of_fixes {unit : CompilationUnit} (genuine : Path.GenuineList (.block before :: above))
    (joins : Joins mark above before added front back)
    (replaces : ∀ fix ∈ olds, fix.kind.tag = .replace) (some : olds ++ added ≠ [])
    (anchored : ∀ fix ∈ olds ++ added, (ledger unit mark).Anchored (.block before :: above) fix) :
    turning.Acts (turning.place above) (.block before) := by
  cases olds with
  | cons fix olds =>
    have anchor := anchored fix List.mem_cons_self
    obtain ⟨b, up, at_, inside⟩ := anchor.anchor
    cases at_
    have outermost := (anchor.fits (replaces fix List.mem_cons_self)).outermost
    exact acts_of_child (List.mem_map_of_mem inside) outermost.acts
  | nil =>
    cases joins with
    | none => exact (some rfl).elim
    | some call joins =>
      obtain ⟨lacks, parent, up, ⟨head, body⟩, rfl, isClass⟩ := newOwner?_isSome (by rw [joins]; rfl)
      have child := genuine.1
      rw [Node.children_of_class isClass] at child
      cases List.mem_singleton.mp child
      show turning.Acts (turning.inside (turning.place up) parent) _
      rw [inside_of_class isClass]
      exact acts_of_lacks lacks

/-- A block whose statements are turned and edited. -/
theorem Turned.of_segments {out : Block} (joins : Joins mark above before added front back)
    (nodup : (before.stmts.map (·.id)).Nodup) (anchors : parts.map (·.1) = before.stmts)
    (h : Halfway mark (.block before :: above) [] parts) (isStatic : out.isStatic = before.isStatic)
    (new : out = before ∨ mark ≤ out.id ∧ turning.Acts (turning.place above) (.block before))
    (stmts : out.stmts = (parts.map fun q =>
      (q.1, (PendingFixes.ordered ⟨added⟩).foldl (editAt q.1) q.2)).flatMap (·.2.stmts)) :
    Turned mark above (.block before) (.block out) := by
  obtain ⟨pairs, rfl, turned⟩ := h.turned
  rw [List.map_map] at anchors
  rw [joins.stmts nodup anchors] at stmts
  refine .block isStatic new joins.members ?_ stmts fun p mem => turned p (List.mem_filter.mp mem).1
  rw [← anchors]
  show _ = (pairs.map (·.1)).filter _
  rw [List.filter_map]
  rfl

/-- At the end of the visit of a block, it is turned. -/
theorem repair_turns {unit : CompilationUnit} {rest : Multiset Node}
    {ws : List (Node × List PendingFix)} (comes : turning.Comes False unit mark (.block before) above)
    (distinct : ((Node.unit unit).subtree.map Node.id).Nodup)
    (old : ∀ n ∈ (Node.unit unit).subtree, n.id < mark)
    (walked : (ledger unit mark).Walked above (.block before) (.block after))
    (new : after = before ∨ turning.Acts (turning.place above) (.block before))
    (swept : List.Forall₂ (fun s s' => Swept mark (.block before :: above) (.stmt s) (.stmt s'))
      before.stmts after.stmts) :
    VisitM.Triple
      (fun site => Leaving mark above before ws site ∧
        (ledger unit mark).Holds (.block before :: above) (after.parts (fun _ => false) + rest) site)
      (repair .standard before after : PassM Unit Block)
      fun out site => Order ((.block before, []) :: ws) site ∧
        Turned mark above (.block before) (.block out) := by
  have lawful := ledger_lawful distinct old
  have stands : (ledger unit mark).Stands (.block before) above :=
    ⟨comes.stands.genuine, comes.stands.parts, comes.stands.body⟩
  have ids : (before.stmts.map (·.id)).Nodup := stands.distinct_stmts lawful.drawn.distinct
  have isStatic : after.isStatic = before.isStatic := Node.Label.block.inj walked.label
  have visited : (Repair.visited before after).map (·.1) = before.stmts := by
    unfold Repair.visited
    rw [List.map_map]
    exact List.map_fst_zip (Nat.le_of_eq swept.length_eq)
  have own {hand : Multiset Node} {site : Site Note Unit}
      (holds : (ledger unit mark).Holds (.block before :: above) (after.parts (fun _ => false) + hand) site) :
      ((Node.block after).subtree.map Node.id).Nodup := by
    have inside : (Node.block after).parts (fun _ => false) ≤
        after.parts (fun _ => false) + hand + (ledger unit mark).load site.cursor.waiting :=
      le_trans (Multiset.le_add_right _ _) (Multiset.le_add_right _ _)
    have ids := Multiset.nodup_of_le (Multiset.map_le_map inside) (lawful.nodup_ids holds.owns)
    rwa [Node.parts_all, Multiset.map_coe, Multiset.coe_nodup] at ids
  unfold repair
  refine ((take_leaving.and (Regime.take_holds (after.parts (fun _ => false) + rest))).mono
    (fun _ h => h) fun _ _ h => h).bind fun pending => ?_
  cases pending with
  | none =>
    refine .pure fun site h => ?_
    obtain ⟨⟨order, olds, added, front, back, fixes, joins, replaces, noted⟩, holds⟩ := h
    obtain ⟨rfl, rfl⟩ := List.append_eq_nil_iff.mp fixes.symm
    refine ⟨order, .of_segments joins ids visited (.start (own holds) swept noted) isStatic ?_ ?_⟩
    · rcases walked.became.new with same | late
      · exact .inl (Node.block.inj same)
      · exact new.imp_right fun acts => ⟨late, acts⟩
    · show after.stmts = ((Repair.visited before after).map fun q => (q.1, q.2)).flatMap (·.2.stmts)
      rw [List.map_id']
      exact (Repair.stmts_visited swept.length_eq).symm
  | some pending =>
    rintro site out site' ⟨⟨order, olds, added, front, back, fixes, joins, replaces, noted⟩,
      allows, holds⟩ ran
    obtain ⟨path, _, ran₁, ran⟩ := VisitM.ok_of_bind ran
    cases ran₁
    obtain ⟨c, site₁, ran, done⟩ := VisitM.ok_of_bind ran
    cases done
    obtain ⟨fixes'⟩ := pending
    cases (show fixes' = olds ++ added from fixes)
    have todo := ordered_append replaces joins.edits
    have anchored : ∀ fix ∈ PendingFixes.ordered ⟨olds ++ added⟩,
        (ledger unit mark).Anchored (.block before :: above) fix := fun fix mem =>
      allows.anchored fix ((PendingFixes.ordered_perm ⟨olds ++ added⟩).mem_iff.mp mem)
    have precede := PendingFixes.ordered_precedes allows.distinct
    have loaded : after.parts (fun _ => false) +
        PendingFix.loadOf (fun _ => false) (PendingFixes.ordered ⟨olds ++ added⟩) + rest =
          after.parts (fun _ => false) + rest + PendingFix.loadOf (fun _ => false) (olds ++ added) := by
      rw [PendingFix.loadOf_perm (PendingFixes.ordered_perm ⟨olds ++ added⟩)]
      abel
    have repairing := Regime.Repairing.start lawful stands walked anchored
      (holds.weaken (le_of_eq loaded)) site.cursor.path
    rw [todo] at anchored precede repairing ran
    -- If there is nothing to repair, the block stays as the visit left it.
    have changes : c.block = before ∨ turning.Acts (turning.place above) (.block before) := by
      by_cases none : olds ++ added = []
      · obtain ⟨rfl, rfl⟩ := List.append_eq_nil_iff.mp none
        cases ran
        exact new
      · exact .inr (acts_of_fixes comes.stands.genuine joins replaces none allows.anchored)
    -- First the calls, then the members.
    rw [List.foldlM_append] at ran
    obtain ⟨c₁, site₂, ran₁, ran₂⟩ := VisitM.ok_of_bind ran
    have holds' : (ledger unit mark).Holds (.block before :: above)
      (after.parts (fun _ => false) + (rest + PendingFix.loadOf (fun _ => false) (olds ++ added))) site :=
      holds.weaken (le_of_eq (add_assoc _ _ _).symm)
    obtain ⟨parts, repairing₁, turned, legible, same⟩ := (Halfway.start (own holds') swept noted).run
      comes distinct old anchored replaces precede repairing order.legible ran₁
    obtain ⟨repaired, legible', same'⟩ := edited_run lawful ids
      (fun fix mem => anchored fix (List.mem_append_right _ mem))
      (fun fix mem => joins.edits fix ((PendingFixes.ordered_perm ⟨added⟩).mem_iff.mp mem)) (List.pairwise_append.mp precede).2.1 repairing₁ legible ran₂
    have waiting := same'.trans same
    refine ⟨⟨legible', waiting ▸ order.grown, waiting ▸ order.replaces⟩,
      .of_segments joins ids repairing₁.anchors turned repaired.isStatic ?_ repaired.tracks.stmts⟩
    rcases repaired.new with same | late
    · exact .inl same
    · exact changes.imp_right fun acts => ⟨late, acts⟩

end RandomString

end JavaMend
