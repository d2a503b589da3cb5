import Mathlib.Data.List.Nodup
import JavaMend.Proofs.Patch.Applied

/-!
# Fixes act on segments

Applying fixes to a block changes the block statement by statement. Each statement
of the block before the visit owns a segment of the block that is being repaired:
what was written before it, what stands in its place, and what was written after
it. A fix changes the segment of its anchor and no other (`Repair.apply_tracks`),
whatever was done to the block before.

What makes this true is that statements are found by their ids: no two statements
of the block, and none that a later fix is going to write, have the same id, and
the statements that were replaced do not come back (`Repair.Tracks`).
-/

namespace JavaMend

/-- What became of a statement: what was written before it, what stands in its
place unless it was removed, and what was written after it. -/
structure Segment where
  front : List Stmt
  core : Option Stmt
  back : List Stmt

namespace Segment

def stmts (g : Segment) : List Stmt := g.front ++ g.core.toList ++ g.back

/-- A statement in whose place another one stands and that nothing was written
around. -/
def ofStmt (stmt : Stmt) : Segment := ⟨[], some stmt, []⟩

/-- After a fix, a statement of a segment was there before or is what the fix put there. -/
theorem mem_stmts_of_step {front back before after : List Stmt} {core core' : Option Stmt} {t : Stmt}
    (mem : t ∈ stmts ⟨front ++ before, core', after ++ back⟩) :
    t ∈ stmts ⟨front, core, back⟩ ∨ t ∈ before ++ core'.toList ++ after := by
  simp only [stmts, List.mem_append] at mem ⊢
  tauto

end Segment

/-! ## Following statements -/

namespace Repair

/-- The ids of the statements of the block. -/
def ids (c : Repair) : List NodeId := c.block.stmts.map (·.id)

/-- Following a statement goes through statements of `known`, those that were put in
the place of others among them. -/
theorem follow_of_grown {c c' : Repair} {known : List Stmt} {fuel fuel' : Nat} {stmt core : Stmt}
    (more : fuel ≤ fuel') (replaced : ∀ p ∈ c.renamed, p.2 ∈ known) (start : stmt ∈ known)
    (renamed : c.renamed <+: c'.renamed)
    (gone : ∀ s ∈ known, s.id ∉ c.ids → s.id ∉ c'.ids)
    (here : core.id ∈ c'.ids) (found : c.follow fuel stmt = some core) :
    c'.follow fuel' stmt = some core := by
  induction fuel generalizing stmt fuel' with
  | zero => cases found
  | succ fuel ih =>
    obtain ⟨left, rfl⟩ : ∃ left, fuel' = left + 1 := ⟨fuel' - 1, by omega⟩
    rw [follow] at found ⊢
    by_cases present : (c.block.position? stmt).isSome
    · rw [if_pos present] at found
      cases found
      rw [if_pos (Block.position?_isSome.mpr here)]
    · rw [if_neg present] at found
      have absent : ¬ (c'.block.position? stmt).isSome := by
        rw [Block.position?_isSome] at present ⊢
        exact gone stmt start present
      rw [if_neg absent]
      cases next : c.renamed.find? (·.1.same stmt) with
      | none =>
        rw [next] at found
        cases found
      | some pair =>
        rw [next] at found
        obtain ⟨rest, grown⟩ := renamed
        rw [← grown, List.find?_append, next]
        exact ih (Nat.le_of_succ_le_succ more) (replaced pair (List.mem_of_find?_eq_some next)) found

/-- A statement that was followed to `core` is followed one step further once `core`
has been replaced. -/
theorem follow_of_swapped {c c' : Repair} {known : List Stmt} {fuel : Nat}
    {stmt core changed : Stmt} (replaced : ∀ p ∈ c.renamed, p.2 ∈ known) (start : stmt ∈ known)
    (renamed : c'.renamed = c.renamed ++ [(core, changed)])
    (fresh : ∀ p ∈ c.renamed, p.1.id ≠ core.id)
    (gone : ∀ s ∈ known, s.id ∉ c.ids → s.id ∉ c'.ids)
    (removed : core.id ∉ c'.ids)
    (here : changed.id ∈ c'.ids) (found : c.follow fuel stmt = some core) :
    c'.follow (fuel + 1) stmt = some changed := by
  induction fuel generalizing stmt with
  | zero => cases found
  | succ fuel ih =>
    rw [follow] at found
    rw [follow]
    by_cases present : (c.block.position? stmt).isSome
    · rw [if_pos present] at found
      cases found
      rw [if_neg (by rwa [Block.position?_isSome]), renamed, List.find?_append]
      have none : c.renamed.find? (·.1.same core) = none := by
        rw [List.find?_eq_none]
        intro p mem
        exact fun same => fresh p mem (eq_of_beq same)
      have last : [(core, changed)].find? (·.1.same core) = some (core, changed) :=
        List.find?_cons_of_pos (beq_self_eq_true core.id)
      rw [none, Option.none_or, last]
      dsimp only
      rw [follow, if_pos (Block.position?_isSome.mpr here)]
    · rw [if_neg present] at found
      have absent : ¬ (c'.block.position? stmt).isSome := by
        rw [Block.position?_isSome] at present ⊢
        exact gone stmt start present
      rw [if_neg absent]
      cases next : c.renamed.find? (·.1.same stmt) with
      | none =>
        rw [next] at found
        cases found
      | some pair =>
        rw [next] at found
        rw [renamed, List.find?_append, next]
        exact ih (replaced pair (List.mem_of_find?_eq_some next)) found

/-! ## The invariant -/

/-- A block in repair is made of the segments of some statements. Each statement is
followed to what stands in its place. No two statements of the block have one id,
and `waiting` are the ids of statements that later fixes write: they are not in the
block yet, and nothing that was ever in it has them. -/
structure Tracks (waiting : List NodeId) (next : NodeId) (c : Repair)
    (parts : List (Stmt × Segment)) : Prop where
  stmts : c.block.stmts = parts.flatMap (·.2.stmts)
  resolves : ∀ p ∈ parts, ∀ core, p.2.core = some core → c.resolve? p.1 = some core
  distinct : (c.ids ++ waiting).Nodup
  retired : ∀ p ∈ c.renamed, p.1.id < next ∧ p.1.id ∉ c.ids ++ waiting
  known : ∀ s ∈ parts.map (·.1) ++ c.renamed.map (·.2), s.id < next ∧ s.id ∉ waiting
  bounded : ∀ id ∈ c.ids ++ waiting, id < next

/-- How a repair keeps track of a segment that changed: what stands in the place of
the statement is what did before, or nothing does any more, or something new does. -/
inductive Renames (next used : NodeId) (c c' : Repair) (g g' : Segment) : Prop where
  | same (renamed : c'.renamed = c.renamed) (core : g'.core = g.core)
  | gone (renamed : c'.renamed = c.renamed) (core : g'.core = none)
  | swapped {old new : Stmt} (core : g.core = some old) (core' : g'.core = some new)
      (renamed : c'.renamed = c.renamed ++ [(old, new)])
      (removed : old.id ∉ g'.stmts.map (·.id)) (above : next ≤ new.id) (below : new.id < used)

/-- One segment of a block is changed, by statements that were waiting and are
released now, or that are new. -/
structure Edit (released waiting : List NodeId) (next used : NodeId) (c c' : Repair)
    (pre post : List (Stmt × Segment)) (anchor : Stmt) (g g' : Segment) : Prop where
  before : Tracks (released ++ waiting) next c (pre ++ (anchor, g) :: post)
  grown : next ≤ used
  stmts : c'.block.stmts = (pre ++ (anchor, g') :: post).flatMap (·.2.stmts)
  distinct : (g'.stmts.map (·.id)).Nodup
  from_ : ∀ id ∈ g'.stmts.map (·.id),
    id ∈ g.stmts.map (·.id) ∨ id ∈ released ∨ next ≤ id ∧ id < used
  renames : Renames next used c c' g g'

theorem Renames.extends {next used : NodeId} {c c' : Repair} {g g' : Segment}
    (h : Renames next used c c' g g') : c.renamed <+: c'.renamed := by
  cases h with
  | same renamed => exact renamed ▸ List.prefix_refl _
  | gone renamed => exact renamed ▸ List.prefix_refl _
  | swapped _ _ renamed => exact renamed ▸ List.prefix_append _ _

theorem Tracks.mono {waiting : List NodeId} {next used : NodeId} {c : Repair}
    {parts : List (Stmt × Segment)} (h : Tracks waiting next c parts) (le : next ≤ used) :
    Tracks waiting used c parts where
  stmts := h.stmts
  resolves := h.resolves
  distinct := h.distinct
  retired p mem := ⟨Nat.lt_of_lt_of_le (h.retired p mem).1 le, (h.retired p mem).2⟩
  known s mem := ⟨Nat.lt_of_lt_of_le (h.known s mem).1 le, (h.known s mem).2⟩
  bounded id mem := Nat.lt_of_lt_of_le (h.bounded id mem) le

/-- In a list without repetitions, ids in the middle give way to some of their own, to
released and to new ones. -/
theorem nodup_edit {front mid mid' back released waiting : List NodeId} {next used : NodeId}
    (distinct : (front ++ (mid ++ back) ++ (released ++ waiting)).Nodup)
    (bounded : ∀ id ∈ front ++ (mid ++ back) ++ (released ++ waiting), id < next)
    (distinct' : mid'.Nodup)
    (from_ : ∀ id ∈ mid', id ∈ mid ∨ id ∈ released ∨ next ≤ id ∧ id < used) :
    (front ++ (mid' ++ back) ++ waiting).Nodup := by
  simp only [List.nodup_append, List.mem_append] at *
  grind

theorem ids_of_stmts {c : Repair} {pre post : List (Stmt × Segment)} {anchor : Stmt} {g : Segment}
    (h : c.block.stmts = (pre ++ (anchor, g) :: post).flatMap (·.2.stmts)) :
    c.ids = (pre.flatMap (·.2.stmts)).map (·.id) ++
      (g.stmts.map (·.id) ++ (post.flatMap (·.2.stmts)).map (·.id)) := by
  unfold ids
  rw [h]
  simp only [List.flatMap_append, List.flatMap_cons, List.map_append]

namespace Edit

variable {waiting released : List NodeId} {next used : NodeId} {c c' : Repair}
  {pre post : List (Stmt × Segment)} {anchor : Stmt} {g g' : Segment}

theorem distinctAfter (h : Edit released waiting next used c c' pre post anchor g g') :
    (c'.ids ++ waiting).Nodup := by
  have distinct := h.before.distinct
  have bounded := h.before.bounded
  rw [ids_of_stmts h.before.stmts] at distinct bounded
  rw [ids_of_stmts h.stmts]
  exact nodup_edit distinct bounded h.distinct h.from_

theorem ids_after (h : Edit released waiting next used c c' pre post anchor g g') :
    ∀ id ∈ c'.ids, id ∈ c.ids ∨ id ∈ released ∨ next ≤ id ∧ id < used := by
  rw [ids_of_stmts h.before.stmts, ids_of_stmts h.stmts]
  intro id mem
  have := h.from_ id
  simp only [List.mem_append] at mem ⊢
  tauto

/-- What was not in the block before does not come in if it was known before. -/
theorem absent (h : Edit released waiting next used c c' pre post anchor g g') {id : NodeId}
    (early : id < next) (kept : id ∉ released) (out : id ∉ c.ids) : id ∉ c'.ids := by
  intro mem
  rcases h.ids_after id mem with here | here | ⟨late, -⟩
  · exact out here
  · exact kept here
  · exact Nat.not_le_of_lt early late

theorem absent_known (h : Edit released waiting next used c c' pre post anchor g g') :
    ∀ s ∈ (pre ++ (anchor, g) :: post).map (·.1) ++ c.renamed.map (·.2),
      s.id ∉ c.ids → s.id ∉ c'.ids := fun s mem =>
  h.absent (h.before.known s mem).1 fun r => (h.before.known s mem).2 (List.mem_append_left _ r)

theorem core_mem (h : Edit released waiting next used c c' pre post anchor g g') {old : Stmt}
    (core : g.core = some old) : old.id ∈ c.ids := by
  have here : old.id ∈ g.stmts.map (·.id) := by simp [Segment.stmts, core]
  rw [ids_of_stmts h.before.stmts]
  exact List.mem_append_right _ (List.mem_append_left _ here)

/-- What stood in the place of the statement and was replaced is not in the block. -/
theorem removed (h : Edit released waiting next used c c' pre post anchor g g') {old : Stmt}
    (core : g.core = some old) (removed : old.id ∉ g'.stmts.map (·.id)) :
    old.id ∉ c'.ids ++ waiting := by
  have here : old.id ∈ g.stmts.map (·.id) := by simp [Segment.stmts, core]
  have distinct := h.before.distinct
  rw [ids_of_stmts h.before.stmts] at distinct
  rw [ids_of_stmts h.stmts]
  simp only [List.nodup_append, List.mem_append] at distinct ⊢
  grind

theorem resolves (h : Edit released waiting next used c c' pre post anchor g g') :
    ∀ p ∈ pre ++ (anchor, g') :: post, ∀ core, p.2.core = some core →
      c'.resolve? p.1 = some core := by
  have known : ∀ q ∈ c.renamed, q.2 ∈ (pre ++ (anchor, g) :: post).map (·.1) ++
      c.renamed.map (·.2) := fun q hq => List.mem_append_right _ (List.mem_map_of_mem hq)
  -- A statement whose place did not change is followed as before.
  have unchanged : ∀ p ∈ pre ++ (anchor, g) :: post, ∀ core, p.2.core = some core →
      core.id ∈ c'.ids → c'.resolve? p.1 = some core := fun p mem core hcore here =>
    follow_of_grown (Nat.succ_le_succ h.renames.extends.length_le) known
      (List.mem_append_left _ (List.mem_map_of_mem mem)) h.renames.extends h.absent_known here
      (h.before.resolves p mem core hcore)
  intro p mem core hcore
  have here : core.id ∈ c'.ids := by
    unfold ids
    rw [h.stmts]
    refine List.mem_map_of_mem (List.mem_flatMap.mpr ⟨p, mem, ?_⟩)
    simp [Segment.stmts, hcore]
  rcases List.mem_append.mp mem with mem | mem
  · exact unchanged p (List.mem_append_left _ mem) core hcore here
  rcases List.mem_cons.mp mem with rfl | mem
  · have own : (anchor, g) ∈ pre ++ (anchor, g) :: post :=
      List.mem_append_right _ List.mem_cons_self
    cases h.renames with
    | same _ core' => exact unchanged (anchor, g) own core (core' ▸ hcore) here
    | gone _ core' => rw [core'] at hcore; cases hcore
    | @swapped old new oldCore newCore renamed absent =>
      cases newCore.symm.trans hcore
      have fresh : ∀ q ∈ c.renamed, q.1.id ≠ old.id := fun q hq same =>
        (h.before.retired q hq).2 (same ▸ List.mem_append_left _ (h.core_mem oldCore))
      have followed := follow_of_swapped known (List.mem_append_left _ (List.mem_map_of_mem own))
        renamed fresh h.absent_known
        (fun mem => h.removed oldCore absent (List.mem_append_left _ mem)) here
        (h.before.resolves (anchor, g) own old oldCore)
      unfold resolve?
      rwa [renamed, List.length_append]
  · exact unchanged p (List.mem_append_right _ (List.mem_cons_of_mem _ mem)) core hcore here

theorem retired (h : Edit released waiting next used c c' pre post anchor g g') :
    ∀ p ∈ c'.renamed, p.1.id < used ∧ p.1.id ∉ c'.ids ++ waiting := by
  have still : ∀ p ∈ c.renamed, p.1.id < used ∧ p.1.id ∉ c'.ids ++ waiting := by
    intro p mem
    obtain ⟨early, out⟩ := h.before.retired p mem
    simp only [List.mem_append, not_or] at out ⊢
    exact ⟨Nat.lt_of_lt_of_le early h.grown, h.absent early out.2.1 out.1, out.2.2⟩
  intro p mem
  cases h.renames with
  | same renamed => exact still p (renamed ▸ mem)
  | gone renamed => exact still p (renamed ▸ mem)
  | swapped core _ renamed absent =>
    rw [renamed, List.mem_append, List.mem_singleton] at mem
    rcases mem with mem | rfl
    · exact still p mem
    · have early := h.before.bounded _ (List.mem_append_left _ (h.core_mem core))
      exact ⟨Nat.lt_of_lt_of_le early h.grown, h.removed core absent⟩

theorem known (h : Edit released waiting next used c c' pre post anchor g g') :
    ∀ s ∈ (pre ++ (anchor, g') :: post).map (·.1) ++ c'.renamed.map (·.2),
      s.id < used ∧ s.id ∉ waiting := by
  have still : ∀ s ∈ (pre ++ (anchor, g') :: post).map (·.1) ++ c.renamed.map (·.2),
      s.id < used ∧ s.id ∉ waiting := by
    intro s mem
    have early := h.before.known s (by simpa using mem)
    exact ⟨Nat.lt_of_lt_of_le early.1 h.grown, fun w => early.2 (List.mem_append_right _ w)⟩
  intro s mem
  cases h.renames with
  | same renamed => exact still s (renamed ▸ mem)
  | gone renamed => exact still s (renamed ▸ mem)
  | @swapped old new _ _ renamed _ above below =>
    have grown : c'.renamed.map (·.2) = c.renamed.map (·.2) ++ [new] := by
      rw [renamed, List.map_append]
      rfl
    rw [grown, ← List.append_assoc] at mem
    rcases List.mem_append.mp mem with mem | mem
    · exact still s mem
    · cases List.mem_singleton.mp mem
      refine ⟨below, fun w => Nat.not_le_of_lt (h.before.bounded _ ?_) above⟩
      exact List.mem_append_right _ (List.mem_append_right _ w)

theorem bounded (h : Edit released waiting next used c c' pre post anchor g g') :
    ∀ id ∈ c'.ids ++ waiting, id < used := by
  have early : ∀ id ∈ c.ids ++ (released ++ waiting), id < used := fun id mem =>
    Nat.lt_of_lt_of_le (h.before.bounded id mem) h.grown
  intro id mem
  rcases List.mem_append.mp mem with mem | mem
  · rcases h.ids_after id mem with here | here | ⟨-, below⟩
    · exact early id (List.mem_append_left _ here)
    · exact early id (List.mem_append_right _ (List.mem_append_left _ here))
    · exact below
  · exact early id (List.mem_append_right _ (List.mem_append_right _ mem))

/-- Changing one segment keeps track of all of them. -/
theorem tracks (h : Edit released waiting next used c c' pre post anchor g g') :
    Tracks waiting used c' (pre ++ (anchor, g') :: post) :=
  ⟨h.stmts, h.resolves, h.distinctAfter, h.retired, h.known, h.bounded⟩

end Edit

/-! ## Before the first fix -/

section

variable {path : Path} {before after : Block} {mark next : NodeId} {waiting : List NodeId}

/-- The statements of a block with what a visit made of them. -/
def visited (before after : Block) : List (Stmt × Segment) :=
  (before.stmts.zip after.stmts).map fun p => (p.1, .ofStmt p.2)

theorem stmts_visited (same : before.stmts.length = after.stmts.length) :
    (visited before after).flatMap (·.2.stmts) = after.stmts := by
  unfold visited
  rw [List.flatMap_map]
  show (before.stmts.zip after.stmts).flatMap (fun p => [p.2]) = after.stmts
  rw [← List.map_eq_flatMap, List.map_snd_zip (Nat.le_of_eq same.symm)]

/-- A statement of the block before a visit is paired with one statement. -/
theorem eq_of_mem_zip (same : before.stmts.length = after.stmts.length)
    (distinct : (before.stmts.map (·.id)).Nodup) {p q : Stmt × Stmt}
    (hp : p ∈ before.stmts.zip after.stmts) (hq : q ∈ before.stmts.zip after.stmts)
    (equal : p.1.id = q.1.id) : p = q := by
  have firsts : (before.stmts.zip after.stmts).map (fun p => p.1.id) = before.stmts.map (·.id) := by
    have fst := congrArg (List.map fun s : Stmt => s.id) (List.map_fst_zip (Nat.le_of_eq same))
    rwa [List.map_map] at fst
  exact List.inj_on_of_nodup_map (firsts ▸ distinct) hp hq equal

/-- What a visit makes of a block: each statement came back, or something new did. -/
structure Visited (mark : NodeId) (before after : Block) : Prop where
  stmts : List.Forall₂ (fun old new => new = old ∨ mark ≤ new.id) before.stmts after.stmts
  distinct : (before.stmts.map (·.id)).Nodup
  old : ∀ s ∈ before.stmts, s.id < mark

theorem Visited.of_mem_zip (h : Visited mark before after) {p : Stmt × Stmt}
    (mem : p ∈ before.stmts.zip after.stmts) : p.2 = p.1 ∨ mark ≤ p.2.id :=
  (List.forall₂_iff_zip.mp h.stmts).2 mem

/-- A statement that did not come back is not in the block any more. -/
theorem Visited.replaced (h : Visited mark before after) {p : Stmt × Stmt}
    (mem : p ∈ before.stmts.zip after.stmts) (other : p.1.id ≠ p.2.id) :
    p.1.id ∉ after.stmts.map (·.id) := by
  have same := h.stmts.length_eq
  intro present
  obtain ⟨s, hs, equal⟩ := List.mem_map.mp present
  obtain ⟨i, hi, rfl⟩ := List.mem_iff_getElem.mp hs
  have hi' : i < before.stmts.length := same ▸ hi
  have paired : (before.stmts[i], after.stmts[i]) ∈ before.stmts.zip after.stmts := by
    refine List.mem_iff_getElem.mpr ⟨i, by simpa using ⟨hi', hi⟩, by simp⟩
  rcases h.of_mem_zip paired with back | new
  · have found := eq_of_mem_zip same h.distinct mem paired (by rw [← equal]; exact congrArg Stmt.id back)
    subst found
    exact other (congrArg Stmt.id back).symm
  · have early := h.old p.1 (List.of_mem_zip mem).1
    exact Nat.not_lt_of_le (equal ▸ new) early

/-- A repair starts with the statements that the visit left. -/
theorem tracks_start (h : Visited mark before after)
    (distinct : (after.stmts.map (·.id) ++ waiting).Nodup) (new : ∀ id ∈ waiting, mark ≤ id)
    (bounded : ∀ id ∈ after.stmts.map (·.id) ++ waiting, id < next) (le : mark ≤ next) :
    Tracks waiting next (.start path before after) (visited before after) := by
  have same := h.stmts.length_eq
  have renamed : (start path before after).renamed =
      (before.stmts.zip after.stmts).filter fun p => !p.1.same p.2 := if_pos same
  have early : ∀ s ∈ before.stmts, s.id < next ∧ s.id ∉ waiting := fun s mem =>
    ⟨Nat.lt_of_lt_of_le (h.old s mem) le, fun waits => Nat.not_lt_of_le (new _ waits) (h.old s mem)⟩
  have other : ∀ p ∈ (start path before after).renamed,
      p ∈ before.stmts.zip after.stmts ∧ p.1.id ≠ p.2.id := by
    rw [renamed]
    intro p mem
    obtain ⟨mem, differs⟩ := List.mem_filter.mp mem
    exact ⟨mem, by simpa [Stmt.same] using differs⟩
  refine ⟨(stmts_visited same).symm, ?_, distinct, ?_, ?_, bounded⟩
  · intro q mem core hcore
    obtain ⟨p, hp, rfl⟩ := List.mem_map.mp mem
    cases hcore
    have here : ((start path before after).block.position? p.2).isSome :=
      Block.position?_isSome.mpr (List.mem_map_of_mem (List.of_mem_zip hp).2)
    unfold resolve?
    by_cases differs : p.1.id = p.2.id
    · have back : p.2 = p.1 := (h.of_mem_zip hp).resolve_right fun new =>
        Nat.not_lt_of_le new (differs ▸ h.old p.1 (List.of_mem_zip hp).1)
      rw [← back, follow, if_pos here]
    · have listed : p ∈ (start path before after).renamed := by
        rw [renamed]
        exact List.mem_filter.mpr ⟨hp, by simpa [Stmt.same] using differs⟩
      have found : (start path before after).renamed.find? (·.1.same p.1) = some p := by
        cases found : (start path before after).renamed.find? (·.1.same p.1) with
        | none =>
          have missed := List.find?_eq_none.mp found p listed
          exact (missed (beq_self_eq_true p.1.id)).elim
        | some q =>
          have same_node := List.find?_some found
          have same_id : q.1.id = p.1.id := eq_of_beq same_node
          rw [eq_of_mem_zip same h.distinct (other q (List.mem_of_find?_eq_some found)).1 hp same_id]
      obtain ⟨fuel, length⟩ : ∃ fuel, (start path before after).renamed.length = fuel + 1 :=
        Nat.exists_eq_succ_of_ne_zero (List.length_pos_of_mem listed).ne'
      rw [length, follow, if_neg, found]
      · dsimp only
        rw [follow, if_pos here]
      · rw [Block.position?_isSome]
        exact h.replaced hp differs
  · intro p mem
    obtain ⟨mem, differs⟩ := other p mem
    have start := early p.1 (List.of_mem_zip mem).1
    exact ⟨start.1, fun present => (List.mem_append.mp present).elim (h.replaced mem differs) start.2⟩
  · intro s mem
    rcases List.mem_append.mp mem with mem | mem
    · obtain ⟨q, hq, rfl⟩ := List.mem_map.mp mem
      obtain ⟨p, hp, rfl⟩ := List.mem_map.mp hq
      exact early p.1 (List.of_mem_zip hp).1
    · obtain ⟨p, hp, rfl⟩ := List.mem_map.mp mem
      have present : p.2.id ∈ after.stmts.map (·.id) :=
        List.mem_map_of_mem (List.of_mem_zip (other p hp).1).2
      refine ⟨bounded _ (List.mem_append_left _ present), ?_⟩
      exact fun waits => (List.nodup_append.mp distinct).2.2 _ present _ waits rfl

end

/-! ## Applying fixes -/

variable {σ : Type} {site site' : Site Note σ} {c c' : Repair} {fix : PendingFix}
  {waiting : List NodeId} {pre post : List (Stmt × Segment)} {front back : List Stmt} {core : Stmt}

/-- The place in the block of what stands for an anchor. -/
theorem Tracks.split {next : NodeId} {anchor : Stmt}
    (h : Tracks waiting next c (pre ++ (anchor, ⟨front, some core, back⟩) :: post)) :
    c.block.stmts = (pre.flatMap (·.2.stmts) ++ front) ++ core :: (back ++ post.flatMap (·.2.stmts)) ∧
      core.id ∉ (pre.flatMap (·.2.stmts) ++ front).map (·.id) := by
  have split : c.block.stmts =
      (pre.flatMap (·.2.stmts) ++ front) ++ core :: (back ++ post.flatMap (·.2.stmts)) := by
    rw [h.stmts]
    simp [Segment.stmts]
  refine ⟨split, ?_⟩
  have distinct := h.distinct
  unfold ids at distinct
  rw [split, List.map_append, List.map_cons] at distinct
  have apart := (List.nodup_append.mp (List.nodup_append.mp distinct).1).2.2
  exact fun mem => apart _ mem _ List.mem_cons_self rfl

/-- The ids of a segment and of what is going to be written. -/
theorem Tracks.own {released : List NodeId} {next : NodeId} {anchor : Stmt} {g : Segment}
    (h : Tracks (released ++ waiting) next c (pre ++ (anchor, g) :: post)) :
    (g.stmts.map (·.id) ++ released).Nodup ∧ ∀ id ∈ g.stmts.map (·.id) ++ released, id < next := by
  have distinct := h.distinct
  have bounded := h.bounded
  rw [ids_of_stmts h.stmts] at distinct bounded
  simp only [List.nodup_append, List.mem_append] at distinct bounded ⊢
  grind

/-- What a fix does to the segments of a block: nothing if it misses, else a step at the
segment of its anchor. -/
inductive Advance (next : NodeId) (fix : PendingFix) :
    List (Stmt × Segment) → List (Stmt × Segment) → Prop where
  | missed {pre post : List (Stmt × Segment)} {front back : List Stmt} {core : Stmt}
      (misses : fix.Misses next core) :
      Advance next fix (pre ++ (fix.anchor, ⟨front, some core, back⟩) :: post)
        (pre ++ (fix.anchor, ⟨front, some core, back⟩) :: post)
  | stepped {pre post : List (Stmt × Segment)} {front back before after : List Stmt} {core : Stmt}
      {core' : Option Stmt} {used : NodeId} (step : FixStep next used fix core before core' after) :
      Advance next fix (pre ++ (fix.anchor, ⟨front, some core, back⟩) :: post)
        (pre ++ (fix.anchor, ⟨front ++ before, core', after ++ back⟩) :: post)

/-- A fix that is applied changes the segment of its anchor and no other. -/
theorem apply_tracks
    (h : Tracks (fix.kind.written.map (·.id) ++ waiting) site.next c
      (pre ++ (fix.anchor, ⟨front, some core, back⟩) :: post))
    (ran : apply .standard c fix site = .ok c' site') :
    site.Asks site' ∧
      (c' = c ∧ fix.Misses site.next core ∧ Tracks waiting site'.next c
          (pre ++ (fix.anchor, ⟨front, some core, back⟩) :: post) ∨
        ∃ used before core' after, site'.next = used + 1 ∧ site.next ≤ used ∧
          FixStep site.next used fix core before core' after ∧
          c'.block.id = used ∧ c'.block.isStatic = c.block.isStatic ∧
          Tracks waiting site'.next c'
            (pre ++ (fix.anchor, ⟨front ++ before, core', after ++ back⟩) :: post)) := by
  have resolved := h.resolves (fix.anchor, ⟨front, some core, back⟩)
    (List.mem_append_right _ List.mem_cons_self) core rfl
  obtain ⟨split, first⟩ := h.split
  obtain ⟨asks, ⟨none, misses, rfl⟩ | ⟨used, before, core', after, at_, applied⟩⟩ :=
    apply_cases resolved split first ran
  · rw [none] at h
    exact ⟨asks, .inl ⟨rfl, misses, h.mono asks.1⟩⟩
  · obtain ⟨more, renamed, successor⟩ := applied.renamed
    refine ⟨asks, .inr ⟨used, before, core', after, at_, applied.grown, applied.step, ?_, ?_, ?_⟩⟩
    · rw [applied.block]
    · rw [applied.block]
    obtain ⟨own, early⟩ := h.own
    have core_written : (core.id :: fix.kind.written.map (·.id)).Nodup := by
      simp only [Segment.stmts, Option.toList, List.map_append, List.map_cons, List.map_nil,
        List.nodup_append, List.mem_append, List.nodup_cons] at own ⊢
      grind
    obtain ⟨distinct, from_, removed⟩ := applied.step.ids core_written
      (early _ (by simp [Segment.stmts]))
    have edit : Edit (fix.kind.written.map (·.id)) waiting site.next used c c' pre post fix.anchor
        ⟨front, some core, back⟩ ⟨front ++ before, core', after ++ back⟩ := by
      refine ⟨h, applied.grown, ?_, ?_, ?_, ?_⟩
      · rw [applied.block]
        simp [Segment.stmts]
      · simp only [Segment.stmts, Option.toList, List.map_append, List.map_cons, List.map_nil,
          List.nodup_append, List.mem_append, List.mem_singleton] at own early distinct from_ ⊢
        grind
      · simp only [Segment.stmts, Option.toList, List.map_append, List.map_cons, List.map_nil,
          List.mem_append, List.mem_singleton] at from_ ⊢
        grind
      · cases successor with
        | same => exact .same (renamed.trans (List.append_nil _)) rfl
        | gone => exact .gone (renamed.trans (List.append_nil _)) rfl
        | @swapped changed above below =>
          refine .swapped rfl rfl renamed ?_ above below
          have other : some changed ≠ some core := by
            rintro ⟨⟩
            exact Nat.not_lt_of_le above (early _ (by simp [Segment.stmts]))
          have gone := removed other
          simp only [Segment.stmts, Option.toList, List.map_append, List.map_cons, List.map_nil,
            List.nodup_append, List.mem_append, List.mem_singleton] at own gone ⊢
          grind
    rw [at_]
    exact edit.tracks.mono (Nat.le_succ _)

end Repair

end JavaMend
