import JavaMend.Proofs.Patch.Load

/-!
# Where the statements of a repaired block come from

Whatever fixes were noted for a block, a repair neither loses nor repeats its
statements. Each statement of the block keeps a slot: what stands in its place,
and the gaps before and after it, which hold what fixes have written there
(`Slot.Accounted`). A slot that no fix is anchored at holds the statement and
nothing else.

Anchors may be any statements: those of the block before the visit or after
it, statements that other fixes write, or strangers. One thing is asked of what
fixes write: it is no statement of the block. A fix that writes a statement the
block has already repeats it (`repair_repeats_written`).
-/

namespace JavaMend

/-! ## What fixes write -/

namespace PendingFix

/-- The statement that a fix writes on a side of its anchor. -/
inductive Writes (fix : PendingFix) : SpliceSide → Stmt → Prop
  | declaration {base name : String} {stmt : Stmt} {next used : NodeId}
      (kind : fix.kind = .extract base)
      (made : Stmt.mkDeclare [.final] fix.tainted.ty name (some fix.tainted) next = (stmt, used)) :
      Writes fix .before stmt
  | guard {variant : GuardVariant} {message : String} {parent : Expr} {thrown : ThrownException}
      {stmt : Stmt} {next used : NodeId} (kind : fix.kind = .guardAfter variant message)
      (given : fix.parent = some parent)
      (made : mkGuard variant thrown message fix.tainted parent next = (stmt, used)) :
      Writes fix .after stmt
  | before {stmts : List Stmt} {stmt : Stmt} (kind : fix.kind = .insertBefore stmts)
      (mem : stmt ∈ stmts) : Writes fix .before stmt
  | after {stmts : List Stmt} {stmt : Stmt} (kind : fix.kind = .insertAfter stmts)
      (mem : stmt ∈ stmts) : Writes fix .after stmt

/-- The fix is anchored at a statement: the node before the visit, or the one that
the visit left in its place. -/
def At (fix : PendingFix) (old new : Stmt) : Prop :=
  fix.anchor.id = old.id ∨ fix.anchor.id = new.id

end PendingFix

variable {fixes : List PendingFix} {old new : Stmt}

/-- What fixes make of a statement in its place. -/
inductive Rewritten (fixes : List PendingFix) (old new : Stmt) : Stmt → Prop
  | self : Rewritten fixes old new new
  | extract {stmt changed : Stmt} {fix : PendingFix} {base name : String} {read : Expr}
      {start next used : NodeId} (rewritten : Rewritten fixes old new stmt) (mem : fix ∈ fixes)
      (anchored : fix.At old new) (kind : fix.kind = .extract base)
      (reads : Expr.mkIdent name fix.tainted.ty start = (read, next))
      (made : stmt.replaceAlike? fix.tainted read next = (some changed, used)) :
      Rewritten fixes old new changed
  | replace {stmt changed : Stmt} {fix : PendingFix} {other : Expr} {imports : List String}
      {next used : NodeId} (rewritten : Rewritten fixes old new stmt) (mem : fix ∈ fixes)
      (anchored : fix.At old new) (kind : fix.kind = .replace other imports)
      (made : stmt.replaceExpr? fix.tainted other next = (some changed, used)) :
      Rewritten fixes old new changed

/-- What fixes put into the gap on a side of a statement: they are anchored at the
statement, or at one that stands in the same gap. -/
inductive Placed (fixes : List PendingFix) (old new : Stmt) (side : SpliceSide) : Stmt → Prop
  | at_ {fix : PendingFix} {stmt : Stmt} (mem : fix ∈ fixes) (anchored : fix.At old new)
      (writes : fix.Writes side stmt) : Placed fixes old new side stmt
  | beside {fix : PendingFix} {stmt beside : Stmt} {side' : SpliceSide}
      (placed : Placed fixes old new side beside) (mem : fix ∈ fixes)
      (anchored : fix.anchor = beside) (writes : fix.Writes side' stmt) :
      Placed fixes old new side stmt

/-- Without a fix anchored at the statement, nothing comes into its gaps. -/
theorem Placed.exists_at {side : SpliceSide} {stmt : Stmt} (h : Placed fixes old new side stmt) :
    ∃ fix ∈ fixes, fix.At old new := by
  induction h with
  | at_ mem anchored => exact ⟨_, mem, anchored⟩
  | beside _ _ _ _ ih => exact ih

/-- Without a fix anchored at the statement, it stays what it is. -/
theorem Rewritten.eq_or_exists_at {stmt : Stmt} (h : Rewritten fixes old new stmt) :
    stmt = new ∨ ∃ fix ∈ fixes, fix.At old new := by
  cases h with
  | self => exact .inl rfl
  | extract _ mem anchored => exact .inr ⟨_, mem, anchored⟩
  | replace _ mem anchored => exact .inr ⟨_, mem, anchored⟩

namespace FixStep

variable {next used : NodeId} {fix : PendingFix} {core : Stmt} {before after : List Stmt}
  {core' : Option Stmt}

theorem writes_before (step : FixStep next used fix core before core' after) {stmt : Stmt}
    (mem : stmt ∈ before) : fix.Writes .before stmt := by
  cases step with
  | extract kind above below hread hchanged hdeclaration =>
    cases List.mem_singleton.mp mem
    exact .declaration kind hdeclaration
  | insertBefore kind => exact .before kind mem
  | _ => cases mem

theorem writes_after (step : FixStep next used fix core before core' after) {stmt : Stmt}
    (mem : stmt ∈ after) : fix.Writes .after stmt := by
  cases step with
  | guardAfter kind hparent above below hguard =>
    cases List.mem_singleton.mp mem
    exact .guard kind hparent hguard
  | insertAfter kind => exact .after kind mem
  | _ => cases mem

theorem rewritten (step : FixStep next used fix core before core' after) (mem : fix ∈ fixes)
    (anchored : fix.At old new) (h : Rewritten fixes old new core) {stmt : Stmt}
    (stays : core' = some stmt) : Rewritten fixes old new stmt := by
  cases step with
  | extract kind above below hread hchanged hdeclaration =>
    cases stays
    exact h.extract mem anchored kind hread hchanged
  | replace kind below hchanged =>
    cases stays
    exact h.replace mem anchored kind hchanged
  | remove kind => cases stays
  | _ =>
    cases stays
    exact h

/-- Only a removal leaves nothing in the place of a statement. -/
theorem tag_of_gone (step : FixStep next used fix core before core' after) (gone : core' = none) :
    fix.kind.tag = .remove := by
  cases step with
  | remove kind => rw [kind]; rfl
  | _ => cases gone

/-- What is written into a gap was given to be written, or is new and not what stands
in the place of the statement. -/
theorem new_of_gap (step : FixStep next used fix core before core' after) (early : core.id < next)
    {stmt : Stmt} (mem : stmt ∈ before ∨ stmt ∈ after) :
    stmt ∈ fix.kind.written ∨
      (next ≤ stmt.id ∧ stmt.id < used) ∧ ∀ s, core' = some s → s.id ≠ stmt.id := by
  cases step with
  | @extract base name changed declaration read start named replaced declared kind above below hread
      hchanged hdeclaration =>
    have named_le : start ≤ named := by
      cases hread
      exact Nat.le_succ _
    have changedId := Stmt.replaceAlike?_id hchanged
    have declarationId := Stmt.mkDeclare_id hdeclaration
    obtain rfl : stmt = declaration := by simpa using mem
    have order : changed.id < stmt.id := Nat.lt_of_lt_of_le changedId.2 declarationId.1
    have late : next ≤ stmt.id := Nat.le_trans (Nat.le_trans above named_le)
      (Nat.le_trans changedId.1 (Nat.le_of_lt order))
    refine .inr ⟨⟨late, Nat.lt_of_lt_of_le declarationId.2 below⟩, fun s stays => ?_⟩
    cases stays
    exact Nat.ne_of_lt order
  | guardAfter kind hparent above below hguard =>
    have guardId := mkGuard_id hguard
    obtain rfl : stmt = _ := by simpa using mem
    have late : next ≤ stmt.id := Nat.le_trans above guardId.1
    refine .inr ⟨⟨late, Nat.lt_of_lt_of_le guardId.2 below⟩, fun s stays => ?_⟩
    cases stays
    exact Nat.ne_of_lt (Nat.lt_of_lt_of_le early late)
  | insertAfter kind =>
    rw [kind]
    exact .inl (mem.resolve_left List.not_mem_nil)
  | insertBefore kind =>
    rw [kind]
    exact .inl (mem.resolve_right List.not_mem_nil)
  | _ => simp at mem

end FixStep

/-- Does a fix of this sort look into its anchor and write something of its own? The other
sorts come later; they write what they were given, or nothing. -/
def FixTag.makes : FixTag → Bool
  | .extract => true
  | .guardAfter => true
  | .replace => true
  | .insertAfter => false
  | .insertBefore => false
  | .remove => false

namespace FixStep

variable {next used : NodeId} {fix : PendingFix} {core : Stmt} {before after : List Stmt}
  {core' : Option Stmt}

/-- The later sorts of fixes leave the statement alone, or remove it, and write what they
were given. -/
theorem of_later (step : FixStep next used fix core before core' after)
    (later : fix.kind.tag.makes = false) :
    (core' = none ∨ core' = some core) ∧ ∀ stmt, stmt ∈ before ∨ stmt ∈ after →
      stmt ∈ fix.kind.written ∧ ∃ side, fix.Writes side stmt := by
  have writes {stmt : Stmt} (mem : stmt ∈ before ∨ stmt ∈ after) : ∃ side, fix.Writes side stmt :=
    mem.elim (fun mem => ⟨_, step.writes_before mem⟩) fun mem => ⟨_, step.writes_after mem⟩
  refine ⟨?_, fun stmt mem => ⟨?_, writes mem⟩⟩
  · cases step with
    | insertAfter kind => exact .inr rfl
    | insertBefore kind => exact .inr rfl
    | remove kind => exact .inl rfl
    | _ kind => rw [kind] at later; cases later
  · cases step with
    | insertAfter kind => rw [kind]; exact mem.resolve_left List.not_mem_nil
    | insertBefore kind => rw [kind]; exact mem.resolve_right List.not_mem_nil
    | remove kind => simp at mem
    | _ kind => rw [kind] at later; cases later

end FixStep

theorem FixKind.written_of_makes {kind : FixKind} (makes : kind.tag.makes = true) :
    kind.written = [] := by
  cases kind <;> first | rfl | cases makes

/-- Fixes that make something come before those that write what they were given. -/
theorem PendingFixes.ordered_makes (pending : PendingFixes) :
    pending.ordered.Pairwise fun a b => b.kind.tag.makes = true → a.kind.tag.makes = true := by
  unfold ordered
  rw [List.pairwise_flatMap]
  have tagged {tag : FixTag} {fix : PendingFix}
      (mem : fix ∈ pending.fixes.filter (·.kind.tag == tag)) : fix.kind.tag = tag :=
    eq_of_beq (List.mem_filter.mp mem).2
  constructor
  · intro tag _
    refine List.pairwise_of_forall_mem_list fun a ha b hb makes => ?_
    rwa [tagged ha, ← tagged hb]
  · have sorted : FixTag.all.Pairwise fun a b => b.makes = true → a.makes = true := by decide
    refine sorted.imp fun {s t} order a ha b hb makes => ?_
    rw [tagged ha]
    exact order (tagged hb ▸ makes)

/-! ## Slots -/

/-- A statement of a block and what became of it: the node before the visit, the one
that the visit left in its place, those that replaced it since, and what stands there. -/
structure Slot where
  old : Stmt
  new : Stmt
  later : List Stmt
  now : Segment

namespace Slot

/-- What stood in the place of the statement at some time. -/
def formers (a : Slot) : List Stmt := a.old :: a.new :: a.later

/-- What stands around the place of the statement. -/
def gaps (a : Slot) : List Stmt := a.now.front ++ a.now.back

/-- No statement has stood in both places. -/
def Apart (a b : Slot) : Prop := ∀ s ∈ a.formers, ∀ t ∈ b.formers, s.id ≠ t.id

instance : Std.Symm Apart := ⟨fun _ _ apart s hs t ht same => apart t ht s hs same.symm⟩

/-- All that stands in the slot comes from the statement or from a fix that is anchored
there, and the statement is gone only if one of these is a removal. -/
structure Accounted (fixes : List PendingFix) (a : Slot) : Prop where
  gone : a.now.core = none → ∃ fix ∈ fixes, fix.kind.tag = .remove ∧ fix.At a.old a.new
  core : ∀ stmt, a.now.core = some stmt → Rewritten fixes a.old a.new stmt
  front : ∀ stmt ∈ a.now.front, Placed fixes a.old a.new .before stmt
  back : ∀ stmt ∈ a.now.back, Placed fixes a.old a.new .after stmt

/-- A statement of a slot other than the one in the place of its statement stands in one of
its gaps. -/
theorem split_gap {a : Slot} {front back : List Stmt} {stmt : Stmt}
    (split : a.now.stmts = front ++ stmt :: back) (other : a.now.core ≠ some stmt) :
    (∃ rest, a.now.front = front ++ stmt :: rest ∧ back = rest ++ a.now.core.toList ++ a.now.back) ∨
      ∃ rest, a.now.back = rest ++ stmt :: back ∧
        front = a.now.front ++ a.now.core.toList ++ rest := by
  rw [Segment.stmts] at split
  rcases List.append_eq_append_iff.mp split with ⟨rest, before, own⟩ | ⟨rest, own, after⟩
  · exact .inr ⟨rest, own, before⟩
  cases rest with
  | nil => exact .inr ⟨[], after.symm, by rw [own, List.append_nil, List.append_nil]⟩
  | cons first rest =>
    rw [List.cons_append] at after
    obtain ⟨rfl, behind⟩ := List.cons.inj after
    rcases List.append_eq_append_iff.mp own with ⟨rest', -, core⟩ | ⟨rest', front', core⟩
    · have mem : stmt ∈ a.now.core.toList := core ▸ List.mem_append_right _ List.mem_cons_self
      exact (other (Option.mem_toList.mp mem)).elim
    cases rest' with
    | nil =>
      rw [List.nil_append] at core
      have mem : stmt ∈ a.now.core.toList := core ▸ List.mem_cons_self
      exact (other (Option.mem_toList.mp mem)).elim
    | cons first rest' =>
      rw [List.cons_append] at core
      obtain ⟨rfl, rfl⟩ := List.cons.inj core
      exact .inl ⟨rest', front', behind⟩

/-- A slot that no fix is anchored at holds the statement. -/
theorem Accounted.idle {a : Slot} (h : a.Accounted fixes) (free : ∀ fix ∈ fixes, ¬ fix.At a.old a.new) :
    a.now = .ofStmt a.new := by
  have absent : ¬ ∃ fix ∈ fixes, fix.At a.old a.new := fun ⟨fix, mem, anchored⟩ =>
    free fix mem anchored
  obtain ⟨old, new, later, front, core, back⟩ := a
  have noFront : front = [] := List.eq_nil_iff_forall_not_mem.mpr fun stmt mem =>
    absent (h.front stmt mem).exists_at
  have noBack : back = [] := List.eq_nil_iff_forall_not_mem.mpr fun stmt mem =>
    absent (h.back stmt mem).exists_at
  subst noFront noBack
  cases core with
  | none =>
    obtain ⟨fix, mem, -, anchored⟩ := h.gone rfl
    exact (free fix mem anchored).elim
  | some stmt => rw [(h.core stmt rfl).eq_or_exists_at.resolve_right absent]; rfl

end Slot

/-! ## What is asked of blocks and fixes -/

/-- A block that a visit left: each statement came back or is none of the block
before, and no statement stands in it twice. -/
structure Block.Rebuilt (before after : Block) : Prop where
  stmts : List.Forall₂ (fun old new => new = old ∨ new.id ∉ before.stmts.map (·.id)) before.stmts
    after.stmts
  before : (before.stmts.map (·.id)).Nodup
  after : (after.stmts.map (·.id)).Nodup

/-- Fixes that were noted before `mark` for a block, which write none of its statements.
Nodes are what they are: two statements with one id are one statement. -/
structure PendingFix.Recorded (mark : NodeId) (stmts : List Stmt) (fixes : List PendingFix) : Prop where
  coherent : ∀ s ∈ stmts ++ fixes.flatMap (fun fix => fix.anchor :: fix.kind.written),
    ∀ t ∈ stmts ++ fixes.flatMap (fun fix => fix.anchor :: fix.kind.written), s.id = t.id → s = t
  early : ∀ s ∈ stmts ++ fixes.flatMap (fun fix => fix.anchor :: fix.kind.written), s.id < mark
  new : ∀ fix ∈ fixes, ∀ s ∈ fix.kind.written, s.id ∉ stmts.map (·.id)

theorem PendingFix.anchor_mem {fix : PendingFix} (stmts : List Stmt) (mem : fix ∈ fixes) :
    fix.anchor ∈ stmts ++ fixes.flatMap fun fix => fix.anchor :: fix.kind.written :=
  List.mem_append_right _ (List.mem_flatMap.mpr ⟨fix, mem, List.mem_cons_self⟩)

theorem PendingFix.written_mem {s : Stmt} (stmts : List Stmt)
    (mem : s ∈ fixes.flatMap (·.kind.written)) :
    s ∈ stmts ++ fixes.flatMap fun fix => fix.anchor :: fix.kind.written := by
  obtain ⟨fix, noted, written⟩ := List.mem_flatMap.mp mem
  refine List.mem_append_right _ (List.mem_flatMap.mpr ⟨fix, noted, ?_⟩)
  exact List.mem_cons_of_mem _ written

/-! ## The invariant -/

/-- A place in a concatenation is a place in one of its parts. -/
theorem exists_split_flatMap {α β : Type} {f : α → List β} {items : List α} {front back : List β}
    {b : β} (h : items.flatMap f = front ++ b :: back) :
    ∃ pre a post front' back', items = pre ++ a :: post ∧ f a = front' ++ b :: back' ∧
      front = pre.flatMap f ++ front' ∧ back = back' ++ post.flatMap f := by
  induction items generalizing front with
  | nil => simp at h
  | cons a items ih =>
    rw [List.flatMap_cons] at h
    rcases List.append_eq_append_iff.mp h with ⟨front', rfl, rest⟩ | ⟨back', here, rest⟩
    · obtain ⟨pre, a', post, front, back', rfl, own, rfl, rfl⟩ := ih rest
      exact ⟨a :: pre, a', post, front, back', rfl, own, by simp, rfl⟩
    · cases back' with
      | nil =>
        have rest : items.flatMap f = [] ++ b :: back := rest.symm
        obtain ⟨pre, a', post, front', back', rfl, own, nothing, rfl⟩ := ih rest
        refine ⟨a :: pre, a', post, front', back', rfl, own, ?_, rfl⟩
        rw [List.flatMap_cons, here, List.append_nil, List.append_assoc, ← nothing, List.append_nil]
      | cons b' back' =>
        cases rest
        exact ⟨[], a, items, front, back', rfl, here, rfl, rfl⟩

section

variable {α : Type} {pre post : List α} {a a' b : α}

/-- Where one item of a list is changed, each item is the changed one or was there before. -/
theorem mem_or_eq_of_changed (mem : b ∈ pre ++ a' :: post) : b ∈ pre ++ a :: post ∨ b = a' := by
  rw [List.mem_append, List.mem_cons] at mem ⊢
  rcases mem with mem | mem | mem
  · exact .inl (.inl mem)
  · exact .inr mem
  · exact .inl (.inr (.inr mem))

/-- What holds of all pairs still does after a change of one item that keeps it. -/
theorem pairwise_changed {R : α → α → Prop} [Std.Symm R] (all : (pre ++ a :: post).Pairwise R)
    (kept : ∀ b ∈ pre ++ a :: post, R a b → R a' b) : (pre ++ a' :: post).Pairwise R := by
  obtain ⟨front, back, cross⟩ := List.pairwise_append.mp all
  obtain ⟨first, back⟩ := List.pairwise_cons.mp back
  refine List.pairwise_append.mpr ⟨front, List.pairwise_cons.mpr ⟨fun b mem => ?_, back⟩, ?_⟩
  · exact kept b (List.mem_append_right _ (List.mem_cons_of_mem _ mem)) (first b mem)
  · intro b mem d mem'
    rcases List.mem_cons.mp mem' with rfl | mem'
    · have apart := symm (r := R) (cross b mem a List.mem_cons_self)
      exact symm (r := R) (kept b (List.mem_append_left _ mem) apart)
    · exact cross b mem d (List.mem_cons_of_mem _ mem')

/-- What holds of all items still does after some came in the place of one, if they take it
over from that one. -/
theorem forall_mem_replaced {P : α → Prop} {news : List α} (all : ∀ b ∈ pre ++ a :: post, P b)
    (taken : P a → ∀ b ∈ news, P b) : ∀ b ∈ pre ++ news ++ post, P b := by
  intro b mem
  rcases List.mem_append.mp mem with mem | mem
  · rcases List.mem_append.mp mem with mem | mem
    · exact all b (List.mem_append_left _ mem)
    · exact taken (all a (List.mem_append_right _ List.mem_cons_self)) b mem
  · exact all b (List.mem_append_right _ (List.mem_cons_of_mem _ mem))

end

namespace Repair

variable {mark next used : NodeId} {stmts : List Stmt} {c c' : Repair} {slots pre post : List Slot}
  {a a' : Slot} {fix : PendingFix} {core : Stmt}

/-- A block in repair is made of slots. The statements that stood in a place are told
apart by their ids from those of other places and from all that stands in gaps, so that
following one of them ends in its own place. -/
structure InSlots (mark next : NodeId) (stmts : List Stmt) (fixes : List PendingFix) (c : Repair)
    (slots : List Slot) : Prop where
  block : c.block.stmts = slots.flatMap (·.now.stmts)
  known : ∀ a ∈ slots, a.old ∈ stmts ∧ a.new ∈ stmts
  core : ∀ a ∈ slots, ∀ s, a.now.core = some s → s ∈ a.formers
  renamed : ∀ p ∈ c.renamed, ∃ a ∈ slots, p.1 ∈ a.formers ∧ p.2 ∈ a.formers
  apart : slots.Pairwise Slot.Apart
  gaps : ∀ a ∈ slots, ∀ b ∈ slots, ∀ s ∈ a.formers, ∀ t ∈ b.gaps, s.id ≠ t.id
  coherent : ∀ a ∈ slots, ∀ s ∈ a.formers, ∀ t ∈ a.formers, s.id = t.id → s = t
  later : ∀ a ∈ slots, ∀ s ∈ a.later, mark ≤ s.id
  given : ∀ a ∈ slots, ∀ s ∈ a.gaps, s ∈ fixes.flatMap (·.kind.written) ∨ mark ≤ s.id
  bounded : ∀ a ∈ slots, ∀ s, s ∈ a.formers ∨ s ∈ a.gaps → s.id < next
  accounted : ∀ a ∈ slots, a.Accounted fixes

namespace InSlots

/-- A statement has stood in one place only. -/
theorem eq_of_formers (h : InSlots mark next stmts fixes c slots) {b : Slot} (ha : a ∈ slots)
    (hb : b ∈ slots) {s t : Stmt} (hs : s ∈ a.formers) (ht : t ∈ b.formers) (same : s.id = t.id) :
    a = b ∧ s = t := by
  have equal : a = b := by
    by_contra other
    exact h.apart.forall ha hb other s hs t ht same
  subst equal
  exact ⟨rfl, h.coherent a ha s hs t ht same⟩

/-- What stood in a place and is in the block stands there now. -/
theorem core_of_former (h : InSlots mark next stmts fixes c slots) (ha : a ∈ slots) {s : Stmt}
    (hs : s ∈ a.formers) (present : s.id ∈ c.ids) : a.now.core = some s := by
  obtain ⟨t, ht, same⟩ := List.mem_map.mp present
  rw [h.block] at ht
  obtain ⟨b, hb, ht⟩ := List.mem_flatMap.mp ht
  rw [Segment.stmts, List.mem_append, List.mem_append] at ht
  rcases ht with (ht | ht) | ht
  · exact (h.gaps a ha b hb s hs t (List.mem_append_left _ ht) same.symm).elim
  · have ht := Option.mem_toList.mp ht
    obtain ⟨rfl, rfl⟩ := h.eq_of_formers ha hb hs (h.core b hb t ht) same.symm
    exact ht
  · exact (h.gaps a ha b hb s hs t (List.mem_append_right _ ht) same.symm).elim

/-- Following what stood in a place ends there. -/
theorem follow_former (h : InSlots mark next stmts fixes c slots) (ha : a ∈ slots) {fuel : Nat}
    {s : Stmt} (hs : s ∈ a.formers) (found : c.follow fuel s = some core) :
    a.now.core = some core := by
  induction fuel generalizing s with
  | zero => cases found
  | succ fuel ih =>
    rw [follow] at found
    split at found
    next present =>
      cases found
      exact h.core_of_former ha hs (Block.position?_isSome.mp present)
    next =>
      cases next : c.renamed.find? (·.1.same s) with
      | none =>
        rw [next] at found
        cases found
      | some pair =>
        rw [next] at found
        obtain ⟨b, hb, first, second⟩ := h.renamed pair (List.mem_of_find?_eq_some next)
        have found_same := List.find?_some next
        have same : pair.1.id = s.id := eq_of_beq found_same
        obtain ⟨rfl, -⟩ := h.eq_of_formers hb ha first hs same
        exact ih second found

/-- Following what never stood in a place leads nowhere. -/
theorem follow_other (h : InSlots mark next stmts fixes c slots) {fuel : Nat} {s : Stmt}
    (other : ∀ a ∈ slots, ∀ t ∈ a.formers, t.id ≠ s.id) (found : c.follow fuel s = some core) :
    core = s ∧ s.id ∈ c.ids := by
  cases fuel with
  | zero => cases found
  | succ fuel =>
    rw [follow] at found
    split at found
    next present =>
      cases found
      exact ⟨rfl, Block.position?_isSome.mp present⟩
    next =>
      have none : c.renamed.find? (·.1.same s) = none := List.find?_eq_none.mpr fun p mem same => by
        obtain ⟨a, ha, first, -⟩ := h.renamed p mem
        exact other a ha p.1 first (eq_of_beq same)
      rw [none] at found
      cases found

/-- The anchor of a fix stands for what is in the place of a statement, or is itself a
statement in a gap. -/
theorem resolve_cases (h : InSlots mark next stmts fixes c slots)
    (recorded : PendingFix.Recorded mark stmts fixes) (mem : fix ∈ fixes)
    (resolved : c.resolve? fix.anchor = some core) :
    (∃ a ∈ slots, fix.At a.old a.new ∧ a.now.core = some core) ∨
      core = fix.anchor ∧ core.id ∈ c.ids ∧ ∀ a ∈ slots, ∀ s ∈ a.formers, s.id ≠ core.id := by
  have anchor := PendingFix.anchor_mem stmts mem
  by_cases former : ∃ a ∈ slots, ∃ s ∈ a.formers, s.id = fix.anchor.id
  · obtain ⟨a, ha, s, hs, same⟩ := former
    have first : s = a.old ∨ s = a.new := by
      rcases List.mem_cons.mp hs with rfl | hs
      · exact .inl rfl
      rcases List.mem_cons.mp hs with rfl | hs
      · exact .inr rfl
      have late := h.later a ha s hs
      rw [same] at late
      exact (Nat.not_lt_of_le late (recorded.early _ anchor)).elim
    have among : s ∈ stmts := first.elim (· ▸ (h.known a ha).1) (· ▸ (h.known a ha).2)
    obtain rfl := recorded.coherent s (List.mem_append_left _ among) fix.anchor anchor same
    exact .inl ⟨a, ha, first.imp (congrArg Stmt.id) (congrArg Stmt.id), h.follow_former ha hs resolved⟩
  · have other : ∀ a ∈ slots, ∀ s ∈ a.formers, s.id ≠ fix.anchor.id :=
      fun a ha s hs same => former ⟨a, ha, s, hs, same⟩
    obtain ⟨rfl, present⟩ := h.follow_other other resolved
    exact .inr ⟨rfl, present, other⟩

/-- What stands in another slot never stood in the place of the statement. -/
theorem other_of_apart (h : InSlots mark next stmts fixes c slots) {b : Slot} (ha : a ∈ slots)
    (hb : b ∈ slots) (apart : a.Apart b) {s t : Stmt} (hs : s ∈ a.formers) (ht : t ∈ b.now.stmts) :
    s.id ≠ t.id := by
  rw [Segment.stmts, List.mem_append, List.mem_append] at ht
  rcases ht with (ht | ht) | ht
  · exact h.gaps a ha b hb s hs t (List.mem_append_left _ ht)
  · exact apart s hs t (h.core b hb t (Option.mem_toList.mp ht))
  · exact h.gaps a ha b hb s hs t (List.mem_append_right _ ht)

/-- The place in the block of what stands in the place of a statement. -/
theorem split_core (h : InSlots mark next stmts fixes c (pre ++ a :: post))
    (stands : a.now.core = some core) :
    c.block.stmts = (pre.flatMap (·.now.stmts) ++ a.now.front) ++
        core :: (a.now.back ++ post.flatMap (·.now.stmts)) ∧
      core.id ∉ (pre.flatMap (·.now.stmts) ++ a.now.front).map (·.id) := by
  have ha : a ∈ pre ++ a :: post := List.mem_append_right _ List.mem_cons_self
  have own := h.core a ha core stands
  refine ⟨?_, fun present => ?_⟩
  · rw [h.block]
    simp [Segment.stmts, stands]
  · obtain ⟨s, hs, same⟩ := List.mem_map.mp present
    rcases List.mem_append.mp hs with hs | hs
    · obtain ⟨b, hb, hs⟩ := List.mem_flatMap.mp hs
      have apart := (List.pairwise_append.mp h.apart).2.2 b hb a List.mem_cons_self
      exact h.other_of_apart ha (List.mem_append_left _ hb) (symm (r := Slot.Apart) apart) own hs
        same.symm
    · exact h.gaps a ha a ha core own s (List.mem_append_left _ hs) same.symm

/-- The place in the block of a statement in a gap: it is the first of its id. -/
theorem split_gap (h : InSlots mark next stmts fixes c slots)
    (recorded : PendingFix.Recorded mark stmts fixes) (mem : fix ∈ fixes) (isAnchor : core = fix.anchor)
    (present : core.id ∈ c.ids) (other : ∀ a ∈ slots, ∀ s ∈ a.formers, s.id ≠ core.id) :
    ∃ pre a post front back, slots = pre ++ a :: post ∧ a.now.stmts = front ++ core :: back ∧
      c.block.stmts = (pre.flatMap (·.now.stmts) ++ front) ++
        core :: (back ++ post.flatMap (·.now.stmts)) ∧
      core.id ∉ (pre.flatMap (·.now.stmts) ++ front).map (·.id) := by
  have anchor : core ∈ stmts ++ fixes.flatMap fun fix => fix.anchor :: fix.kind.written :=
    isAnchor ▸ PendingFix.anchor_mem stmts mem
  -- Every statement of the block with the id of the anchor is the anchor.
  have only : ∀ s ∈ c.block.stmts, s.id = core.id → s = core := by
    intro s hs same
    rw [h.block] at hs
    obtain ⟨a, ha, hs⟩ := List.mem_flatMap.mp hs
    have gap : s ∈ a.gaps := by
      simp only [Segment.stmts, List.mem_append, Slot.gaps] at hs ⊢
      rcases hs with (hs | hs) | hs
      · exact .inl hs
      · exact (other a ha s (h.core a ha s (Option.mem_toList.mp hs)) same).elim
      · exact .inr hs
    rcases h.given a ha s gap with written | late
    · exact recorded.coherent s (PendingFix.written_mem stmts written) core anchor same
    · exact (Nat.not_lt_of_le (same ▸ late) (recorded.early _ anchor)).elim
  have among : core ∈ c.block.stmts := by
    obtain ⟨s, hs, same⟩ := List.mem_map.mp present
    exact only s hs same ▸ hs
  obtain ⟨F, B, split, first⟩ := List.eq_append_cons_of_mem among
  obtain ⟨pre, a, post, front, back, rfl, own, rfl, rfl⟩ :=
    exists_split_flatMap (h.block.symm.trans split)
  refine ⟨pre, a, post, front, back, rfl, own, split, fun early => ?_⟩
  obtain ⟨s, hs, same⟩ := List.mem_map.mp early
  exact first (only s (split ▸ List.mem_append_left _ hs) same ▸ hs)

end InSlots

/-- One slot of a block is changed: fixes write into its gaps, and what stands in its place
gives way to what was there before or to something new. -/
structure SlotEdit (next used : NodeId) (fixes : List PendingFix) (a a' : Slot) (more : Option Stmt) :
    Prop where
  old : a'.old = a.old
  new : a'.new = a.new
  later : a'.later = a.later ++ more.toList
  fresh : ∀ s, more = some s → next ≤ s.id ∧ s.id < used
  core : ∀ s, a'.now.core = some s → a.now.core = some s ∨ more = some s
  gaps : ∀ s ∈ a'.gaps, s ∈ a.gaps ∨ s ∈ fixes.flatMap (·.kind.written) ∨
    (next ≤ s.id ∧ s.id < used) ∧ ∀ t, more = some t → t.id ≠ s.id
  accounted : a'.Accounted fixes

section

variable {more : Option Stmt} (edit : SlotEdit next used fixes a a' more)
include edit

theorem SlotEdit.formers : a'.formers = a.formers ++ more.toList := by
  rw [Slot.formers, edit.old, edit.new, edit.later]
  rfl

theorem SlotEdit.former_cases {s : Stmt} (hs : s ∈ a'.formers) : s ∈ a.formers ∨ more = some s := by
  rwa [edit.formers, List.mem_append, Option.mem_toList] at hs

theorem SlotEdit.former_kept {s : Stmt} (hs : s ∈ a.formers) : s ∈ a'.formers :=
  edit.formers ▸ List.mem_append_left _ hs

/-- A new statement has stood in no other place. -/
theorem SlotEdit.apart {b : Slot} (bounded : ∀ s ∈ b.formers, s.id < next) (h : a.Apart b) :
    a'.Apart b := by
  intro s hs t ht
  rcases edit.former_cases hs with hs | hs
  · exact h s hs t ht
  · exact Nat.ne_of_gt (Nat.lt_of_lt_of_le (bounded t ht) (edit.fresh s hs).1)

/-- What stood in the place is told apart by its ids. -/
theorem SlotEdit.coherent (bounded : ∀ s ∈ a.formers, s.id < next)
    (h : ∀ s ∈ a.formers, ∀ t ∈ a.formers, s.id = t.id → s = t) :
    ∀ s ∈ a'.formers, ∀ t ∈ a'.formers, s.id = t.id → s = t := by
  intro s hs t ht same
  rcases edit.former_cases hs with hs | hs <;> rcases edit.former_cases ht with ht | ht
  · exact h s hs t ht same
  · have before := Nat.lt_of_lt_of_le (bounded s hs) (edit.fresh t ht).1
    exact (Nat.ne_of_lt before same).elim
  · have before := Nat.lt_of_lt_of_le (bounded t ht) (edit.fresh s hs).1
    exact (Nat.ne_of_gt before same).elim
  · exact Option.some.inj (hs.symm.trans ht)

end

/-- What fixes are given to write never stood in a place. -/
theorem InSlots.written_other (h : InSlots mark next stmts fixes c slots)
    (recorded : PendingFix.Recorded mark stmts fixes) (ha : a ∈ slots) {s t : Stmt}
    (hs : s ∈ a.formers) (ht : t ∈ fixes.flatMap (·.kind.written)) : s.id ≠ t.id := by
  have early := recorded.early t (PendingFix.written_mem stmts ht)
  obtain ⟨fix, mem, ht⟩ := List.mem_flatMap.mp ht
  intro same
  have stranger := recorded.new fix mem t ht
  rcases List.mem_cons.mp hs with rfl | hs
  · exact stranger (same ▸ List.mem_map_of_mem (h.known a ha).1)
  rcases List.mem_cons.mp hs with rfl | hs
  · exact stranger (same ▸ List.mem_map_of_mem (h.known a ha).2)
  have late := h.later a ha s hs
  exact Nat.not_lt_of_le (same ▸ late) early

theorem InSlots.edit (h : InSlots mark next stmts fixes c (pre ++ a :: post))
    (recorded : PendingFix.Recorded mark stmts fixes) (started : mark ≤ next) (grown : next ≤ used)
    {more : Option Stmt} (edit : SlotEdit next used fixes a a' more)
    (block : c'.block.stmts = (pre ++ a' :: post).flatMap (·.now.stmts))
    (renamed : ∀ p ∈ c'.renamed, p ∈ c.renamed ∨ p.1 ∈ a'.formers ∧ p.2 ∈ a'.formers) :
    InSlots mark used stmts fixes c' (pre ++ a' :: post) := by
  have ha : a ∈ pre ++ a :: post := List.mem_append_right _ List.mem_cons_self
  have ha' : a' ∈ pre ++ a' :: post := List.mem_append_right _ List.mem_cons_self
  -- What stood in a place did so before, or is what stands there from now on.
  have formers : ∀ b ∈ pre ++ a' :: post, ∀ s ∈ b.formers,
      (∃ b₀ ∈ pre ++ a :: post, s ∈ b₀.formers) ∨ more = some s := by
    intro b hb s hs
    rcases mem_or_eq_of_changed hb with hb | rfl
    · exact .inl ⟨b, hb, hs⟩
    · exact (edit.former_cases hs).imp_left fun hs => ⟨a, ha, hs⟩
  have gaps : ∀ b ∈ pre ++ a' :: post, ∀ s ∈ b.gaps,
      (∃ b₀ ∈ pre ++ a :: post, s ∈ b₀.gaps) ∨ s ∈ fixes.flatMap (·.kind.written) ∨
        (next ≤ s.id ∧ s.id < used) ∧ ∀ t, more = some t → t.id ≠ s.id := by
    intro b hb s hs
    rcases mem_or_eq_of_changed hb with hb | rfl
    · exact .inl ⟨b, hb, hs⟩
    · exact (edit.gaps s hs).imp_left fun hs => ⟨a, ha, hs⟩
  have early : ∀ s ∈ fixes.flatMap (·.kind.written), s.id < mark :=
    fun s hs => recorded.early s (PendingFix.written_mem stmts hs)
  refine ⟨block, ?_, ?_, ?_, ?_, ?_, ?_, ?_, ?_, ?_, ?_⟩
  · intro b hb
    rcases mem_or_eq_of_changed hb with hb | rfl
    · exact h.known b hb
    · rw [edit.old, edit.new]
      exact h.known a ha
  · intro b hb s hs
    rcases mem_or_eq_of_changed hb with hb | rfl
    · exact h.core b hb s hs
    · rw [edit.formers, List.mem_append, Option.mem_toList]
      exact (edit.core s hs).imp_left (h.core a ha s)
  · intro p mem
    rcases renamed p mem with mem | own
    · obtain ⟨b, hb, first, second⟩ := h.renamed p mem
      rcases mem_or_eq_of_changed hb with hb | rfl
      · exact ⟨b, hb, first, second⟩
      · exact ⟨a', ha', edit.former_kept first, edit.former_kept second⟩
    · exact ⟨a', ha', own⟩
  · exact pairwise_changed h.apart fun b hb => edit.apart fun s hs => h.bounded b hb s (.inl hs)
  · intro b hb d hd s hs t ht
    rcases formers b hb s hs with ⟨b₀, hb₀, hs⟩ | hs <;>
      rcases gaps d hd t ht with ⟨d₀, hd₀, ht⟩ | ht | ⟨ht, other⟩
    · exact h.gaps b₀ hb₀ d₀ hd₀ s hs t ht
    · exact h.written_other recorded hb₀ hs ht
    · exact Nat.ne_of_lt (Nat.lt_of_lt_of_le (h.bounded b₀ hb₀ s (.inl hs)) ht.1)
    · exact Nat.ne_of_gt (Nat.lt_of_lt_of_le (h.bounded d₀ hd₀ t (.inr ht)) (edit.fresh s hs).1)
    · have late := Nat.le_trans started (edit.fresh s hs).1
      exact Nat.ne_of_gt (Nat.lt_of_lt_of_le (early t ht) late)
    · exact other s hs
  · intro b hb
    rcases mem_or_eq_of_changed hb with hb | rfl
    · exact h.coherent b hb
    · exact edit.coherent (fun s hs => h.bounded a ha s (.inl hs)) (h.coherent a ha)
  · intro b hb s hs
    rcases mem_or_eq_of_changed hb with hb | rfl
    · exact h.later b hb s hs
    · rw [edit.later, List.mem_append, Option.mem_toList] at hs
      rcases hs with hs | hs
      · exact h.later a ha s hs
      · exact Nat.le_trans started (edit.fresh s hs).1
  · intro b hb s hs
    rcases gaps b hb s hs with ⟨b₀, hb₀, hs⟩ | hs | ⟨hs, -⟩
    · exact h.given b₀ hb₀ s hs
    · exact .inl hs
    · exact .inr (Nat.le_trans started hs.1)
  · intro b hb s hs
    rcases hs with hs | hs
    · rcases formers b hb s hs with ⟨b₀, hb₀, hs⟩ | hs
      · exact Nat.lt_of_lt_of_le (h.bounded b₀ hb₀ s (.inl hs)) grown
      · exact (edit.fresh s hs).2
    · rcases gaps b hb s hs with ⟨b₀, hb₀, hs⟩ | hs | ⟨hs, -⟩
      · exact Nat.lt_of_lt_of_le (h.bounded b₀ hb₀ s (.inr hs)) grown
      · exact Nat.lt_of_lt_of_le (early s hs) (Nat.le_trans started grown)
      · exact hs.2
  · intro b hb
    rcases mem_or_eq_of_changed hb with hb | rfl
    · exact h.accounted b hb
    · exact edit.accounted

/-! ## Applying one fix -/

theorem InSlots.mono (h : InSlots mark next stmts fixes c slots) (grown : next ≤ used) :
    InSlots mark used stmts fixes c slots :=
  { h with bounded := fun a ha s hs => Nat.lt_of_lt_of_le (h.bounded a ha s hs) grown }

/-- A fix that is anchored at the statement of a slot changes the slot. -/
theorem slotEdit_at {before after : List Stmt} {core' : Option Stmt} {pairs : List (Stmt × Stmt)}
    (step : FixStep next used fix core before core' after)
    (successor : Successor next used core core' pairs) (mem : fix ∈ fixes)
    (anchored : fix.At a.old a.new) (stands : a.now.core = some core) (early : core.id < next)
    (accounted : a.Accounted fixes) :
    ∃ more : Option Stmt, pairs = more.toList.map (core, ·) ∧
      SlotEdit next used fixes a
        { a with later := a.later ++ more.toList
                 now := ⟨a.now.front ++ before, core', after ++ a.now.back⟩ } more := by
  obtain ⟨more, hpairs, fresh, hcore, among⟩ : ∃ more : Option Stmt, pairs = more.toList.map (core, ·) ∧
      (∀ s, more = some s → next ≤ s.id ∧ s.id < used) ∧
      (∀ s, core' = some s → some core = some s ∨ more = some s) ∧
      ∀ s, more = some s → core' = some s := by
    cases successor with
    | same => exact ⟨none, rfl, by simp, by simp, by simp⟩
    | gone => exact ⟨none, rfl, by simp, by simp, by simp⟩
    | @swapped changed above below =>
      refine ⟨some changed, rfl, ?_, fun s h => .inr h, fun s h => h⟩
      rintro s ⟨⟩
      exact ⟨above, below⟩
  refine ⟨more, hpairs, rfl, rfl, rfl, fresh, stands ▸ hcore, fun s hs => ?_, ?_⟩
  · have written {s : Stmt} (put : s ∈ before ∨ s ∈ after) : s ∈ fixes.flatMap (·.kind.written) ∨
        (next ≤ s.id ∧ s.id < used) ∧ ∀ t, more = some t → t.id ≠ s.id := by
      rcases step.new_of_gap early put with given | ⟨new, other⟩
      · exact .inl (List.mem_flatMap.mpr ⟨fix, mem, given⟩)
      · exact .inr ⟨new, fun t ht => other t (among t ht)⟩
    simp only [Slot.gaps, List.mem_append] at hs ⊢
    rcases hs with (hs | hs) | hs | hs
    · exact .inl (.inl hs)
    · exact .inr (written (.inl hs))
    · exact .inr (written (.inr hs))
    · exact .inl (.inr hs)
  · refine ⟨fun gone => ⟨fix, mem, step.tag_of_gone gone, anchored⟩, fun s stays => ?_, ?_, ?_⟩
    · exact step.rewritten mem anchored (accounted.core core stands) stays
    · intro s hs
      rcases List.mem_append.mp hs with hs | hs
      · exact accounted.front s hs
      · exact .at_ mem anchored (step.writes_before hs)
    · intro s hs
      rcases List.mem_append.mp hs with hs | hs
      · exact .at_ mem anchored (step.writes_after hs)
      · exact accounted.back s hs

/-- A fix that is anchored at a statement in a gap changes the gap. -/
theorem slotEdit_beside {before after front back : List Stmt} {core' : Option Stmt}
    (step : FixStep next used fix core before core' after) (mem : fix ∈ fixes)
    (isAnchor : core = fix.anchor) (later : fix.kind.tag.makes = false)
    (split : a.now.stmts = front ++ core :: back) (other : a.now.core ≠ some core)
    (accounted : a.Accounted fixes) :
    ∃ now : Segment, now.stmts = front ++ (before ++ core'.toList ++ after) ++ back ∧
      SlotEdit next used fixes a { a with now } none := by
  obtain ⟨stays, put⟩ := step.of_later later
  have put' : ∀ s ∈ before ++ core'.toList ++ after, s = core ∨
      s ∈ fixes.flatMap (·.kind.written) ∧ ∃ side, fix.Writes side s := by
    intro s hs
    simp only [List.mem_append, Option.mem_toList] at hs
    rcases hs with (hs | hs) | hs
    · exact .inr ((put s (.inl hs)).imp_left fun given => List.mem_flatMap.mpr ⟨fix, mem, given⟩)
    · rcases stays with none | same
      · cases none.symm.trans hs
      · exact .inl (Option.some.inj (hs.symm.trans same))
    · exact .inr ((put s (.inr hs)).imp_left fun given => List.mem_flatMap.mpr ⟨fix, mem, given⟩)
  have placed {side : SpliceSide} (own : Placed fixes a.old a.new side core) :
      ∀ s ∈ before ++ core'.toList ++ after, Placed fixes a.old a.new side s := by
    intro s hs
    rcases put' s hs with rfl | ⟨-, side', writes⟩
    · exact own
    · exact own.beside mem isAnchor.symm writes
  have gaps {X Y : List Stmt} (old : ∀ s ∈ X ++ core :: Y, s ∈ a.gaps) :
      ∀ s ∈ X ++ (before ++ core'.toList ++ after) ++ Y,
        s ∈ a.gaps ∨ s ∈ fixes.flatMap (·.kind.written) :=
    forall_mem_replaced (fun s hs => .inl (old s hs)) fun own s hs => by
      rcases put' s hs with rfl | ⟨given, -⟩
      · exact own
      · exact .inr given
  rcases Slot.split_gap split other with ⟨rest, hfront, rfl⟩ | ⟨rest, hback, rfl⟩
  · refine ⟨⟨front ++ (before ++ core'.toList ++ after) ++ rest, a.now.core, a.now.back⟩, ?_, rfl, rfl,
      (List.append_nil _).symm, by simp, fun s h => .inl h, fun s hs => ?_, ?_⟩
    · simp [Segment.stmts]
    · rcases List.mem_append.mp hs with hs | hs
      · refine (gaps (fun s hs => ?_) s hs).imp_right .inl
        exact List.mem_append_left _ (hfront ▸ hs)
      · exact .inl (List.mem_append_right _ hs)
    · refine ⟨accounted.gone, accounted.core, ?_, accounted.back⟩
      exact forall_mem_replaced (hfront ▸ accounted.front) placed
  · refine ⟨⟨a.now.front, a.now.core, rest ++ (before ++ core'.toList ++ after) ++ back⟩, ?_, rfl, rfl,
      (List.append_nil _).symm, by simp, fun s h => .inl h, fun s hs => ?_, ?_⟩
    · simp [Segment.stmts]
    · rcases List.mem_append.mp hs with hs | hs
      · exact .inl (List.mem_append_left _ hs)
      · refine (gaps (fun s hs => ?_) s hs).imp_right .inl
        exact List.mem_append_right _ (hback ▸ hs)
    · refine ⟨accounted.gone, accounted.core, accounted.front, ?_⟩
      exact forall_mem_replaced (hback ▸ accounted.back) placed

variable {σ : Type} {site site' : Site Note σ}

/-- Only new statements stand in the gaps. -/
def Untouched (mark : NodeId) (slots : List Slot) : Prop :=
  ∀ a ∈ slots, ∀ s ∈ a.gaps, mark ≤ s.id

theorem Untouched.edit (h : Untouched mark (pre ++ a :: post)) (own : ∀ s ∈ a'.gaps, mark ≤ s.id) :
    Untouched mark (pre ++ a' :: post) := by
  intro b hb
  rcases mem_or_eq_of_changed hb with hb | rfl
  · exact h b hb
  · exact own

/-- A repair goes on with the slots of the same statements. -/
structure Goes (mark next used : NodeId) (stmts : List Stmt) (fixes : List PendingFix) (c' : Repair)
    (slots slots' : List Slot) : Prop where
  inSlots : InSlots mark used stmts fixes c' slots'
  grown : next ≤ used
  olds : slots'.map (·.old) = slots.map (·.old)
  news : slots'.map (·.new) = slots.map (·.new)

/-- A fix whose anchor stands for what is in the place of a statement changes its slot. -/
theorem InSlots.apply_at (h : InSlots mark site.next stmts fixes c (pre ++ a :: post))
    (started : mark ≤ site.next) (mem : fix ∈ fixes) (recorded : PendingFix.Recorded mark stmts fixes)
    (resolved : c.resolve? fix.anchor = some core) (anchored : fix.At a.old a.new)
    (stands : a.now.core = some core)
    (untouched : fix.kind.tag.makes = true → Untouched mark (pre ++ a :: post))
    (ran : apply .standard c fix site = .ok c' site') :
    ∃ slots', Goes mark site.next site'.next stmts fixes c' (pre ++ a :: post) slots' ∧
      (fix.kind.tag.makes = true → Untouched mark slots') := by
  have ha : a ∈ pre ++ a :: post := List.mem_append_right _ List.mem_cons_self
  obtain ⟨split, first⟩ := h.split_core stands
  obtain ⟨asks, ⟨-, -, rfl⟩ | ⟨used, before, core', after, at_, applied⟩⟩ :=
    apply_cases resolved split first ran
  · exact ⟨_, ⟨h.mono asks.1, asks.1, rfl, rfl⟩, untouched⟩
  obtain ⟨pairs, renamed, successor⟩ := applied.renamed
  have own := h.core a ha core stands
  have early := h.bounded a ha core (.inl own)
  obtain ⟨more, rfl, edit⟩ := slotEdit_at applied.step successor mem anchored stands early
    (h.accounted a ha)
  have pairs : ∀ p ∈ c'.renamed, p ∈ c.renamed ∨ p.1 ∈ a.formers ++ more.toList ∧
      p.2 ∈ a.formers ++ more.toList := by
    intro p hp
    rw [renamed, List.mem_append, List.mem_map] at hp
    refine hp.imp_right ?_
    rintro ⟨s, hs, rfl⟩
    exact ⟨List.mem_append_left _ own, List.mem_append_right _ hs⟩
  have kept := h.edit recorded started applied.grown edit
    (by rw [applied.block]; simp [Segment.stmts]) (edit.formers ▸ pairs)
  rw [at_]
  refine ⟨_, ⟨kept.mono (Nat.le_succ _), Nat.le_succ_of_le applied.grown, by simp, by simp⟩, ?_⟩
  intro makes
  refine (untouched makes).edit fun s hs => ?_
  have new {s : Stmt} (put : s ∈ before ∨ s ∈ after) : mark ≤ s.id := by
    rcases applied.step.new_of_gap early put with given | ⟨new, -⟩
    · rw [FixKind.written_of_makes makes] at given
      cases given
    · exact Nat.le_trans started new.1
  have old {s : Stmt} (gap : s ∈ a.gaps) : mark ≤ s.id := untouched makes a ha s gap
  simp only [Slot.gaps, List.mem_append] at hs old
  rcases hs with (hs | hs) | hs | hs
  · exact old (.inl hs)
  · exact new (.inl hs)
  · exact new (.inr hs)
  · exact old (.inr hs)

/-- A fix whose anchor is a statement that a fix has written into a gap changes the gap. -/
theorem InSlots.apply_beside {front back : List Stmt}
    (h : InSlots mark site.next stmts fixes c (pre ++ a :: post)) (started : mark ≤ site.next)
    (mem : fix ∈ fixes) (recorded : PendingFix.Recorded mark stmts fixes)
    (resolved : c.resolve? fix.anchor = some core) (isAnchor : core = fix.anchor)
    (place : a.now.stmts = front ++ core :: back) (stranger : a.now.core ≠ some core)
    (split : c.block.stmts = (pre.flatMap (·.now.stmts) ++ front) ++
      core :: (back ++ post.flatMap (·.now.stmts)))
    (first : core.id ∉ (pre.flatMap (·.now.stmts) ++ front).map (·.id))
    (untouched : fix.kind.tag.makes = true → Untouched mark (pre ++ a :: post))
    (ran : apply .standard c fix site = .ok c' site') :
    ∃ slots', Goes mark site.next site'.next stmts fixes c' (pre ++ a :: post) slots' ∧
      (fix.kind.tag.makes = true → Untouched mark slots') := by
  have ha : a ∈ pre ++ a :: post := List.mem_append_right _ List.mem_cons_self
  have gap : core ∈ a.gaps := by
    have among : core ∈ a.now.stmts := place ▸ List.mem_append_right _ List.mem_cons_self
    simp only [Segment.stmts, List.mem_append, Option.mem_toList] at among
    rcases among with (front | stands) | back
    · exact List.mem_append_left _ front
    · exact (stranger stands).elim
    · exact List.mem_append_right _ back
  have later : fix.kind.tag.makes = false := by
    refine Bool.eq_false_of_not_eq_true fun makes => ?_
    have early := recorded.early _ (PendingFix.anchor_mem stmts mem)
    exact Nat.not_lt_of_le (untouched makes a ha core gap) (isAnchor ▸ early)
  obtain ⟨asks, ⟨-, -, rfl⟩ | ⟨used, before, core', after, at_, applied⟩⟩ :=
    apply_cases resolved split first ran
  · exact ⟨_, ⟨h.mono asks.1, asks.1, rfl, rfl⟩, untouched⟩
  obtain ⟨now, stmts_now, edit⟩ := slotEdit_beside applied.step mem isAnchor later place stranger
    (h.accounted a ha)
  -- Nothing takes the place of the anchor, so that nothing is kept track of.
  have renamed : c'.renamed = c.renamed := by
    obtain ⟨pairs, renamed, successor⟩ := applied.renamed
    cases successor with
    | same => exact renamed.trans (List.append_nil _)
    | gone => exact renamed.trans (List.append_nil _)
    | swapped above =>
      rcases (applied.step.of_later later).1 with none | same
      · cases none
      · cases same
        exact (Nat.not_lt_of_le above (h.bounded a ha core (.inr gap))).elim
  have kept := h.edit recorded started applied.grown edit
    (by rw [applied.block]; simp [stmts_now]) (fun p hp => .inl (renamed ▸ hp))
  rw [at_]
  refine ⟨_, ⟨kept.mono (Nat.le_succ _), Nat.le_succ_of_le applied.grown, by simp, by simp⟩, ?_⟩
  intro makes
  cases makes.symm.trans later

/-- A fix changes the slot that its anchor stands in, or nothing. -/
theorem InSlots.apply (h : InSlots mark site.next stmts fixes c slots)
    (recorded : PendingFix.Recorded mark stmts fixes) (started : mark ≤ site.next) (mem : fix ∈ fixes)
    (untouched : fix.kind.tag.makes = true → Untouched mark slots)
    (ran : apply .standard c fix site = .ok c' site') :
    ∃ slots', Goes mark site.next site'.next stmts fixes c' slots slots' ∧
      (fix.kind.tag.makes = true → Untouched mark slots') := by
  cases resolved : c.resolve? fix.anchor with
  | none =>
    obtain ⟨rfl, rfl⟩ := apply_of_unresolved resolved ran
    exact ⟨slots, ⟨h, Nat.le_refl _, rfl, rfl⟩, untouched⟩
  | some core =>
    rcases h.resolve_cases recorded mem resolved with
      ⟨a, ha, anchored, stands⟩ | ⟨isAnchor, present, other⟩
    · obtain ⟨pre, post, rfl⟩ := List.append_of_mem ha
      exact h.apply_at started mem recorded resolved anchored stands untouched ran
    · obtain ⟨pre, a, post, front, back, rfl, place, split, first⟩ :=
        h.split_gap recorded mem isAnchor present other
      have ha : a ∈ pre ++ a :: post := List.mem_append_right _ List.mem_cons_self
      exact h.apply_beside started mem recorded resolved isAnchor place
        (fun stands => other a ha core (h.core a ha core stands) rfl) split first untouched ran

/-- Applying fixes one after the other keeps the slots. -/
theorem InSlots.run {todo : List PendingFix} (h : InSlots mark site.next stmts fixes c slots)
    (recorded : PendingFix.Recorded mark stmts fixes) (started : mark ≤ site.next)
    (noted : ∀ fix ∈ todo, fix ∈ fixes)
    (order : todo.Pairwise fun a b => b.kind.tag.makes = true → a.kind.tag.makes = true)
    (untouched : (∃ fix ∈ todo, fix.kind.tag.makes = true) → Untouched mark slots)
    (ran : todo.foldlM (Repair.apply .standard) c site = .ok c' site') :
    ∃ slots', Goes mark site.next site'.next stmts fixes c' slots slots' := by
  induction todo generalizing c slots site with
  | nil =>
    cases ran
    exact ⟨slots, h, Nat.le_refl _, rfl, rfl⟩
  | cons fix todo ih =>
    rw [List.foldlM_cons] at ran
    obtain ⟨first, order⟩ := List.pairwise_cons.mp order
    obtain ⟨c₁, site₁, ran₁, ran₂⟩ := VisitM.ok_of_bind ran
    obtain ⟨slots₁, went, untouched₁⟩ := h.apply recorded started (noted fix List.mem_cons_self)
      (fun makes => untouched ⟨fix, List.mem_cons_self, makes⟩) ran₁
    obtain ⟨slots', goes⟩ := ih went.inSlots (Nat.le_trans started went.grown)
      (fun fix mem => noted fix (List.mem_cons_of_mem _ mem)) order
      (fun ⟨later, mem, makes⟩ => untouched₁ (first later mem makes)) ran₂
    exact ⟨slots', goes.inSlots, Nat.le_trans went.grown goes.grown, goes.olds.trans went.olds,
      goes.news.trans went.news⟩

/-! ## Before the first fix -/

/-- The slots of a block that a visit has rebuilt. -/
def slotsOf (before after : Block) : List Slot :=
  (before.stmts.zip after.stmts).map fun p => ⟨p.1, p.2, [], .ofStmt p.2⟩

variable {before after : Block}

theorem slotsOf_maps (same : before.stmts.length = after.stmts.length) :
    (slotsOf before after).map (·.old) = before.stmts ∧
      (slotsOf before after).map (·.new) = after.stmts ∧
      (slotsOf before after).flatMap (·.now.stmts) = after.stmts := by
  unfold slotsOf
  rw [List.map_map, List.map_map, List.flatMap_map]
  have olds : (before.stmts.zip after.stmts).map Prod.fst = before.stmts :=
    List.map_fst_zip (Nat.le_of_eq same)
  have news : (before.stmts.zip after.stmts).map Prod.snd = after.stmts :=
    List.map_snd_zip (Nat.le_of_eq same.symm)
  refine ⟨olds, news, ?_⟩
  show (before.stmts.zip after.stmts).flatMap (fun p => [p.2]) = after.stmts
  rw [← List.map_eq_flatMap]
  exact news

theorem gaps_slotsOf : ∀ a ∈ slotsOf before after, a.gaps = [] := by
  intro a ha
  obtain ⟨p, hp, rfl⟩ := List.mem_map.mp ha
  rfl

/-- The statements at different places of a block and of the rebuilt one are different. -/
theorem apart_slotsOf (rebuilt : before.Rebuilt after) :
    (slotsOf before after).Pairwise Slot.Apart := by
  have of_nodup {items : List Stmt} (distinct : (items.map (·.id)).Nodup) {i j : Nat}
      (hi : i < items.length) (hj : j < items.length) (other : i ≠ j) : items[i].id ≠ items[j].id := by
    have each := List.pairwise_iff_getElem.mp (List.pairwise_map.mp distinct)
    rcases Nat.lt_or_gt_of_ne other with lt | lt
    · exact each i j hi hj lt
    · exact (each j i hj hi lt).symm
  have across {i j : Nat} (hi : i < before.stmts.length) (hj : j < before.stmts.length)
      (hj' : j < after.stmts.length) (other : i ≠ j) : before.stmts[i].id ≠ after.stmts[j].id := by
    rcases (List.forall₂_iff_get.mp rebuilt.stmts).2 j hj hj' with same | stranger
    · have same : after.stmts[j] = before.stmts[j] := same
      rw [same]
      exact of_nodup rebuilt.before hi hj other
    · intro same
      refine stranger (List.mem_map.mpr ⟨before.stmts[i], List.getElem_mem hi, same⟩)
  unfold slotsOf
  rw [List.pairwise_map, List.pairwise_iff_getElem]
  intro i j hi hj lt
  simp only [List.length_zip, Nat.lt_min] at hi hj
  have other := Nat.ne_of_lt lt
  simp only [List.getElem_zip, Slot.Apart, Slot.formers, List.mem_cons, List.not_mem_nil, or_false]
  rintro s (rfl | rfl) t (rfl | rfl)
  · exact of_nodup rebuilt.before hi.1 hj.1 other
  · exact across hi.1 hj.1 hj.2 other
  · exact (across hj.1 hi.1 hi.2 other.symm).symm
  · exact of_nodup rebuilt.after hi.2 hj.2 other

/-- A repair starts with one slot for each statement and nothing in the gaps. -/
theorem inSlots_start (rebuilt : before.Rebuilt after)
    (recorded : PendingFix.Recorded mark (before.stmts ++ after.stmts) fixes) (path : Path) :
    InSlots mark mark (before.stmts ++ after.stmts) fixes (.start path before after)
      (slotsOf before after) := by
  have same := rebuilt.stmts.length_eq
  have renamed : (start path before after).renamed =
      (before.stmts.zip after.stmts).filter fun p => !p.1.same p.2 := if_pos same
  have of_mem : ∀ a ∈ slotsOf before after, ∃ s ∈ before.stmts, ∃ t ∈ after.stmts,
      a = ⟨s, t, [], .ofStmt t⟩ := by
    intro a ha
    obtain ⟨p, hp, rfl⟩ := List.mem_map.mp ha
    exact ⟨p.1, (List.of_mem_zip hp).1, p.2, (List.of_mem_zip hp).2, rfl⟩
  have known : ∀ a ∈ slotsOf before after, ∀ s ∈ a.formers, s ∈ before.stmts ++ after.stmts := by
    intro a ha s hs
    obtain ⟨old, hold, new, hnew, rfl⟩ := of_mem a ha
    simp only [Slot.formers, List.mem_cons, List.not_mem_nil, or_false] at hs
    rcases hs with rfl | rfl
    · exact List.mem_append_left _ hold
    · exact List.mem_append_right _ hnew
  have noGaps : ∀ a ∈ slotsOf before after, a.gaps = [] := gaps_slotsOf
  refine ⟨(slotsOf_maps same).2.2.symm, ?_, ?_, ?_, apart_slotsOf rebuilt, ?_, ?_, ?_, ?_, ?_, ?_⟩
  · intro a ha
    exact ⟨known a ha _ List.mem_cons_self, known a ha _ (List.mem_cons_of_mem _ List.mem_cons_self)⟩
  · intro a ha s hs
    obtain ⟨old, hold, new, hnew, rfl⟩ := of_mem a ha
    cases hs
    exact List.mem_cons_of_mem _ List.mem_cons_self
  · intro p hp
    rw [renamed] at hp
    refine ⟨_, List.mem_map_of_mem (List.mem_filter.mp hp).1, List.mem_cons_self, ?_⟩
    exact List.mem_cons_of_mem _ List.mem_cons_self
  · intro a ha b hb s hs t ht
    rw [noGaps b hb] at ht
    cases ht
  · intro a ha s hs t ht
    exact recorded.coherent s (List.mem_append_left _ (known a ha s hs)) t
      (List.mem_append_left _ (known a ha t ht))
  · intro a ha s hs
    obtain ⟨old, hold, new, hnew, rfl⟩ := of_mem a ha
    cases hs
  · intro a ha s hs
    rw [noGaps a ha] at hs
    cases hs
  · intro a ha s hs
    rw [noGaps a ha] at hs
    exact recorded.early s (List.mem_append_left _ (known a ha s (hs.resolve_right List.not_mem_nil)))
  · intro a ha
    obtain ⟨old, hold, new, hnew, rfl⟩ := of_mem a ha
    refine ⟨fun gone => ?_, fun s hs => ?_, fun s hs => ?_, fun s hs => ?_⟩
    · cases gone
    · cases hs
      exact .self
    · cases hs
    · cases hs

/-- Of what stood in a place the block holds what stands there now. -/
theorem InSlots.filter_formers (h : InSlots mark next stmts fixes c slots) (ha : a ∈ slots) :
    (c.block.stmts.filter fun s => a.formers.any (·.same s)) = a.now.core.toList := by
  have is_former {s : Stmt} : a.formers.any (·.same s) = true ↔ ∃ t ∈ a.formers, t.id = s.id := by
    simp [Stmt.same]
  have nothing {items : List Stmt} (other : ∀ s ∈ items, ∀ t ∈ a.formers, t.id ≠ s.id) :
      items.filter (fun s => a.formers.any (·.same s)) = [] :=
    List.filter_eq_nil_iff.mpr fun s hs former => by
      obtain ⟨t, ht, same⟩ := is_former.mp former
      exact other s hs t ht same
  obtain ⟨pre, post, rfl⟩ := List.append_of_mem ha
  obtain ⟨-, behind, cross⟩ := List.pairwise_append.mp h.apart
  have elsewhere {others : List Slot} (sub : ∀ b ∈ others, b ∈ pre ++ a :: post ∧ a.Apart b) :
      (others.flatMap (·.now.stmts)).filter (fun s => a.formers.any (·.same s)) = [] :=
    nothing fun s hs t ht => by
      obtain ⟨b, hb, hs⟩ := List.mem_flatMap.mp hs
      exact h.other_of_apart ha (sub b hb).1 (sub b hb).2 ht hs
  have inFront := @elsewhere pre fun b hb =>
    ⟨List.mem_append_left _ hb, symm (r := Slot.Apart) (cross b hb a List.mem_cons_self)⟩
  have inBack := @elsewhere post fun b hb =>
    ⟨List.mem_append_right _ (List.mem_cons_of_mem _ hb), (List.pairwise_cons.mp behind).1 b hb⟩
  have front := @nothing a.now.front fun s hs t ht =>
    h.gaps a ha a ha t ht s (List.mem_append_left _ hs)
  have back := @nothing a.now.back fun s hs t ht =>
    h.gaps a ha a ha t ht s (List.mem_append_right _ hs)
  have core : a.now.core.toList.filter (fun s => a.formers.any (·.same s)) = a.now.core.toList :=
    List.filter_eq_self.mpr fun s hs => is_former.mpr ⟨s, h.core a ha s (Option.mem_toList.mp hs), rfl⟩
  rw [h.block, List.flatMap_append, List.flatMap_cons, List.filter_append, List.filter_append,
    inFront, inBack, Segment.stmts, List.filter_append, List.filter_append, front, core, back]
  simp

end Repair

/-! ## The repair of a block -/

/-- The fixes that are noted on the current frame. -/
def Cursor.pending (c : Cursor Note) : List PendingFix :=
  (c.take Note.fixTopic).1.elim [] (·.fixes)

/-- What fixes have made of a slot of a block: all that stands there is accounted for, and
of what stood in the place of the statement the block holds what stands there now, once,
and nothing else. -/
structure Slot.Drained (fixes : List PendingFix) (out : List Stmt) (a : Slot) : Prop extends
    a.Accounted fixes where
  stands : ∀ s, a.now.core = some s → s ∈ a.formers
  once : (out.filter fun s => a.formers.any (·.same s)) = a.now.core.toList

/-- A repair neither loses nor repeats the statements of a block, if no fix writes one of
them. The result is made of the slots of its statements, in their order. A statement that
no fix is anchored at stands in its slot alone; another one stands there at most once, as
it was or as fixes have rewritten it, and is missing only if a fix removes it; and all
else comes from a fix and stands next to the anchor of the fix. -/
theorem repair_accounts {σ : Type} {before after out : Block} {site site' : Site Note σ}
    (rebuilt : before.Rebuilt after)
    (recorded : PendingFix.Recorded site.next (before.stmts ++ after.stmts) site.cursor.pending)
    (ran : repair .standard before after site = .ok out site') :
    ∃ slots : List Slot, slots.map (·.old) = before.stmts ∧ slots.map (·.new) = after.stmts ∧
      out.stmts = slots.flatMap (·.now.stmts) ∧
      ∀ a ∈ slots, a.Drained site.cursor.pending out.stmts ∧
        ((∀ fix ∈ site.cursor.pending, ¬ fix.At a.old a.new) → a.now = .ofStmt a.new) := by
  have start := Repair.inSlots_start rebuilt recorded
  have maps := Repair.slotsOf_maps rebuilt.stmts.length_eq
  have accounted {c : Repair} {slots : List Slot} {mark next : NodeId}
      (h : c.InSlots mark next (before.stmts ++ after.stmts) site.cursor.pending slots) :
      ∀ a ∈ slots, a.Drained site.cursor.pending c.block.stmts ∧
        ((∀ fix ∈ site.cursor.pending, ¬ fix.At a.old a.new) → a.now = .ofStmt a.new) :=
    fun a ha => ⟨⟨h.accounted a ha, h.core a ha, h.filter_formers ha⟩, (h.accounted a ha).idle⟩
  unfold repair at ran
  obtain ⟨answer, site₁, ran₁, ran⟩ := VisitM.ok_of_bind ran
  obtain ⟨taken, same⟩ : answer = (site.cursor.take Note.fixTopic).1 ∧ site.next = site₁.next := by
    cases ran₁
    exact ⟨rfl, rfl⟩
  cases answer with
  | none =>
    cases ran
    exact ⟨_, maps.1, maps.2.1, maps.2.2.symm, accounted (start ⟨[]⟩)⟩
  | some pending =>
    obtain ⟨path, _, ran₂, ran⟩ := VisitM.ok_of_bind ran
    cases ran₂
    obtain ⟨c, _, ran, done⟩ := VisitM.ok_of_bind ran
    cases done
    have noted : site.cursor.pending = pending.fixes := by rw [Cursor.pending, ← taken]; rfl
    have begun := start site₁.cursor.path
    rw [same] at begun recorded
    have untouched : Repair.Untouched site₁.next (Repair.slotsOf before after) :=
      fun a ha s hs => (List.not_mem_nil (Repair.gaps_slotsOf a ha ▸ hs)).elim
    obtain ⟨slots, goes⟩ := begun.run recorded (Nat.le_refl _)
      (fun fix mem => noted ▸ pending.ordered_perm.mem_iff.mp mem) pending.ordered_makes
      (fun _ => untouched) ran
    exact ⟨slots, goes.olds.trans maps.1, goes.news.trans maps.2.1, goes.inSlots.block,
      accounted goes.inSlots⟩

/-- `x;` is written before `a;`, which the visit has rebuilt meanwhile. -/
theorem repair_accounts_of_insertion :
    let expression (id : NodeId) (name : String) : Expr := ⟨id, .int, .ident name none⟩
    let a : Stmt := ⟨1, .expr (expression 2 "a")⟩
    let rebuilt : Stmt := ⟨3, .expr (expression 4 "b")⟩
    let x : Stmt := ⟨5, .expr (expression 6 "x")⟩
    let before : Block := ⟨0, false, [a]⟩
    let after : Block := ⟨7, false, [rebuilt]⟩
    let fix : PendingFix := ⟨a, expression 2 "a", none, .insertBefore [x]⟩
    let site : Site Note Unit :=
      ⟨⟨[⟨.block before, [(Note.fixTopic.key, Note.fixTopic.note ⟨[fix]⟩)]⟩]⟩, 8, ()⟩
    before.Rebuilt after ∧
      PendingFix.Recorded site.next (before.stmts ++ after.stmts) site.cursor.pending ∧
      ∃ out site', repair .standard before after site = .ok out site' ∧ out.stmts = [x, rebuilt] ∧
        ∃ slots : List Slot, slots.map (·.old) = before.stmts ∧ slots.map (·.new) = after.stmts ∧
          out.stmts = slots.flatMap (·.now.stmts) ∧
          ∀ a ∈ slots, a.Drained site.cursor.pending out.stmts ∧
            ((∀ fix ∈ site.cursor.pending, ¬ fix.At a.old a.new) → a.now = .ofStmt a.new) := by
  intro expression a rebuilt x before after fix site
  have visited : before.Rebuilt after :=
    ⟨by simp [before, after, a, rebuilt], by simp [before], by simp [after]⟩
  have recorded : PendingFix.Recorded site.next (before.stmts ++ after.stmts) site.cursor.pending := by
    have among : (before.stmts ++ after.stmts) ++
        site.cursor.pending.flatMap (fun fix => fix.anchor :: fix.kind.written) =
          [a, rebuilt, a, x] := rfl
    refine ⟨?_, ?_, ?_⟩
    · rw [among]
      simp [a, rebuilt, x]
    · rw [among]
      simp [a, rebuilt, x, site]
    · intro fix' mem
      obtain rfl := List.mem_singleton.mp mem
      simp [fix, FixKind.written, before, after, a, rebuilt, x]
  exact ⟨visited, recorded, _, _, rfl, rfl, repair_accounts visited recorded rfl⟩

/-- A fix that writes a statement of the block repeats it: `b;` has no fix anchored at it and
stands in the result twice. -/
theorem repair_repeats_written :
    let a : Stmt := ⟨1, .expr ⟨2, .int, .ident "a" none⟩⟩
    let b : Stmt := ⟨3, .expr ⟨4, .int, .ident "b" none⟩⟩
    let block : Block := ⟨0, false, [a, b]⟩
    let fix : PendingFix := ⟨a, ⟨2, .int, .ident "a" none⟩, none, .insertAfter [b]⟩
    let site : Site Note Unit :=
      ⟨⟨[⟨.block block, [(Note.fixTopic.key, Note.fixTopic.note ⟨[fix]⟩)]⟩]⟩, 5, ()⟩
    block.Rebuilt block ∧ (∀ fix ∈ site.cursor.pending, ¬ fix.At b b) ∧
      ∃ out site', repair .standard block block site = .ok out site' ∧
        out.stmts.countP (·.same b) = 2 := by
  intro a b block fix site
  refine ⟨⟨by simp [block], by simp [block, a, b], by simp [block, a, b]⟩, ?_, _, _, rfl, by decide⟩
  intro fix mem
  obtain rfl := List.mem_singleton.mp mem
  simp [PendingFix.At, fix, a, b]

end JavaMend
