import JavaMend.Patch.Repair
import JavaMend.Proofs.Patch.Messages
import JavaMend.Proofs.Traversal.Triple

/-!
# Fixes that can be applied

Applying a fix can fail in two ways only: a guard's template refuses its
operands, or a splice is anchored at a statement that the block does not have.
The second never happens, because `Repair.apply` looks the anchor up in the
block it is about to change (`Repair.apply_succeeds`), whatever the fixes before
it made of the block. The first is a property of the fix: `PendingFix.Renders`
says that a guard was chosen for the types of its operands and carries a message
without placeholders.

`Cursor.Sound` says that every fix noted anywhere on a cursor renders. It is the
invariant under which passes succeed.
-/

namespace JavaMend

/-! ## Fixes that render -/

/-- A guard is of the variant for the types of its operands, and no placeholder starts in its
message. -/
def PendingFix.Renders (fix : PendingFix) : Prop :=
  ∀ variant message parent, fix.kind = .guardAfter variant message → fix.parent = some parent →
    ¬ Template.opening <:+: message.toList ∧ GuardVariant.select? fix.tainted.ty parent.ty = some variant

/-- A fix that is no guard renders. -/
theorem PendingFix.renders_of_tag_ne {fix : PendingFix} (h : fix.kind.tag ≠ .guardAfter) :
    fix.Renders := by
  intro variant message parent kind _
  rw [kind] at h
  exact absurd rfl h

/-! ## Sound cursors -/

/-- Every fix of a note renders. -/
def Note.Sound : Note → Prop
  | fixes pending => ∀ fix ∈ pending.fixes, fix.Renders
  | _ => True

/-- Every fix noted on a frame renders. -/
def Frame.Sound (f : Frame Note) : Prop := ∀ entry ∈ f.notes, entry.2.Sound

/-- Every fix noted on a cursor renders. -/
def Cursor.Sound (c : Cursor Note) : Prop := ∀ f ∈ c.frames, f.Sound

namespace Frame

variable {f : Frame Note} {α : Type}

theorem Sound.insert (h : f.Sound) {key : String} {note : Note} (hnote : note.Sound) :
    (f.insert key note).Sound := by
  intro entry hentry
  rcases List.mem_cons.mp hentry with rfl | hentry
  · exact hnote
  · exact h entry ((List.mem_filter.mp hentry).1)

theorem Sound.erase (h : f.Sound) (key : String) : (f.erase key).Sound :=
  fun entry hentry => h entry ((List.mem_filter.mp hentry).1)

theorem Sound.note? (h : f.Sound) {key : String} {note : Note} (found : f.note? key = some note) :
    note.Sound := by
  obtain ⟨front, back, hnotes, -⟩ := List.lookup_eq_some_iff.mp found
  exact h (key, note) (by rw [hnotes]; simp)

theorem Sound.take (h : f.Sound) (topic : Topic Note α) : (f.take topic).2.Sound := by
  unfold Frame.take
  split
  · exact h.erase _
  · exact h

/-- Changing a value keeps a frame sound if all values of the topic are. -/
theorem Sound.modify (h : f.Sound) {topic : Topic Note α} {init : α} {change : α → α}
    (hnew : ∀ note value, topic.read? note = some value → note.Sound →
      (topic.note (change value)).Sound)
    (hinit : (topic.note (change init)).Sound) : (f.modify topic init change).2.Sound := by
  unfold Frame.modify
  split
  next => exact h.insert hinit
  next note found =>
    split
    next value read => exact h.insert (hnew note value read (h.note? found))
    next => exact h

theorem Sound.take_fixes (h : f.Sound) {pending : PendingFixes}
    (taken : (f.take Note.fixTopic).1 = some pending) : ∀ fix ∈ pending.fixes, fix.Renders := by
  cases read : f.read? Note.fixTopic with
  | none => simp [Frame.take, read] at taken
  | some value =>
    simp only [Frame.take, read, Option.some.injEq] at taken
    subst taken
    obtain ⟨note, hnote, hread⟩ := Option.bind_eq_some_iff.mp read
    have sound := h.note? hnote
    cases note with
    | fixes old => cases hread; exact sound
    | _ => cases hread

end Frame

namespace Cursor

variable {c : Cursor Note} {α : Type}

theorem Sound.push (h : c.Sound) (n : Node) : (c.push n).Sound := by
  intro f hf
  rcases List.mem_cons.mp hf with rfl | hf
  · intro entry hentry
    cases hentry
  · exact h f hf

theorem Sound.pop (h : c.Sound) : c.pop.Sound := fun f hf => h f (List.mem_of_mem_tail hf)

/-- A cursor without notes is sound. -/
theorem sound_ofPath (p : Path) : (Cursor.ofPath p : Cursor Note).Sound := by
  intro f hf entry hentry
  obtain ⟨n, -, rfl⟩ := List.mem_map.mp hf
  cases hentry

theorem sound_ofRoot (n : Node) : (Cursor.ofRoot n : Cursor Note).Sound :=
  sound_ofPath (.ofRoot n)

theorem Sound.frame? (h : c.Sound) {index : Nat} {f : Frame Note}
    (found : c.frame? index = some f) : f.Sound := by
  unfold Cursor.frame? at found
  split at found
  · exact h f (List.mem_of_getElem? found)
  · cases found

theorem Sound.atFrame (h : c.Sound) {index : Nat} {change : Frame Note → Option α × Frame Note}
    (keeps : ∀ f, f.Sound → (change f).2.Sound) : (c.atFrame index change).2.Sound := by
  unfold Cursor.atFrame
  split
  next => exact h
  next f found =>
    intro g hg
    rcases List.mem_or_eq_of_mem_set hg with hg | rfl
    · exact h g hg
    · exact keeps f (h.frame? found)

theorem Sound.requestImports (h : c.Sound) (fqns : List String) :
    (c.requestImports fqns).Sound := by
  induction fqns generalizing c with
  | nil => exact h
  | cons fqn rest ih =>
    refine ih (h.atFrame fun f hf => ?_)
    exact hf.modify (fun _ _ _ _ => trivial) trivial

theorem Sound.noteFinding (h : c.Sound) (finding : Finding) : (c.noteFinding finding).Sound :=
  h.atFrame fun _ hf => hf.modify (fun _ _ _ _ => trivial) trivial

/-- Noting a fix that renders keeps a cursor sound. -/
theorem Sound.noteFix (h : c.Sound) {fix : PendingFix} (renders : fix.Renders) :
    (c.noteFix fix).2.Sound := by
  have add : ∀ pending : PendingFixes, (∀ old ∈ pending.fixes, old.Renders) →
      (Note.fixTopic.note (pending.add fix)).Sound := by
    intro pending olds old hold
    rcases List.mem_append.mp hold with hold | hold
    · exact olds old (List.mem_filter.mp hold).1
    · rw [List.mem_singleton.mp hold]
      exact renders
  unfold Cursor.noteFix
  dsimp only
  split
  next => exact h
  next =>
    refine h.atFrame fun f hf => hf.modify (fun note pending read hnote => ?_) (add _ ?_)
    · cases note with
      | fixes _ => cases read; exact add _ hnote
      | _ => cases read
    · intro old hold
      cases hold

/-- The fixes that are taken from a sound cursor render. -/
theorem Sound.take_fixes (h : c.Sound) {pending : PendingFixes}
    (taken : (c.take Note.fixTopic).1 = some pending) : ∀ fix ∈ pending.fixes, fix.Renders := by
  cases found : c.frame? (c.depth - 1) with
  | none => simp [Cursor.take, Cursor.takeAt, Cursor.atFrame, found] at taken
  | some f =>
    simp only [Cursor.take, Cursor.takeAt, Cursor.atFrame, found] at taken
    exact (h.frame? found).take_fixes taken

end Cursor

/-! ## Repairs -/

/-- The visit of a pass succeeds and keeps the cursor sound. -/
abbrev PassM.Succeeds {σ α : Type} (action : PassM σ α) : Prop :=
  VisitM.Succeeds Cursor.Sound (fun _ => True) action

namespace PassM

variable {σ α ε : Type}

theorem requestImports_succeeds (fqns : List String) :
    Succeeds (requestImports fqns : PassM σ Unit) :=
  .modifyCursor fun _ hc => ⟨hc.requestImports fqns, trivial⟩

theorem noteFix_succeeds {fix : PendingFix} (renders : fix.Renders) :
    Succeeds (noteFix fix : PassM σ Bool) :=
  .modifyCursor fun _ hc => ⟨hc.noteFix renders, trivial⟩

/-- A fix that is no guard can always be noted. -/
theorem noteFix_succeeds_of_tag_ne {fix : PendingFix} (h : fix.kind.tag ≠ .guardAfter) :
    Succeeds (noteFix fix : PassM σ Bool) :=
  noteFix_succeeds (PendingFix.renders_of_tag_ne h)

/-- An action that makes something from every supply succeeds. -/
theorem make_succeeds {wrap : ε → EngineError} {action : ExceptT ε Fresh α} {post : α → Prop}
    (h : ∀ next, ∃ a next', action next = (.ok a, next') ∧ post a) :
    VisitM.Succeeds Cursor.Sound post (make wrap action : PassM σ α) := by
  have made : VisitM.Succeeds Cursor.Sound (fun r => ∃ a, r = .ok a ∧ post a)
      (VisitM.fresh action.run : PassM σ (Except ε α)) := by
    refine .fresh fun next => ?_
    obtain ⟨a, next', run, hpost⟩ := h next
    exact ⟨a, by rw [ExceptT.run, run], hpost⟩
  refine made.bind ?_
  intro r h
  obtain ⟨a, rfl, hpost⟩ := h
  exact .pure hpost

end PassM

/-- Splicing statements at a statement of the block succeeds. -/
theorem Block.splice_statements (block : Block) (stmts : List Stmt) (place : SplicePlace)
    (h : (block.position? place.anchor).isSome) (next : NodeId) :
    ∃ out next', block.splice (.statements stmts) place next = (.ok out, next') := by
  obtain ⟨index, found⟩ := Option.isSome_iff_exists.mp h
  unfold Block.splice
  rw [found]
  exact ⟨_, _, rfl⟩

namespace Repair

variable {σ : Type}

/-- An anchor that a repair answers stands in its block. -/
theorem position?_of_follow {c : Repair} {fuel : Nat} {stmt anchor : Stmt}
    (h : c.follow fuel stmt = some anchor) : (c.block.position? anchor).isSome := by
  induction fuel generalizing stmt with
  | zero => cases h
  | succ fuel ih =>
    unfold follow at h
    split at h
    next here => cases h; exact here
    next =>
      split at h
      next => exact ih h
      next => cases h

theorem splice_succeeds (c : Repair) (stmts : List Stmt) (side : SpliceSide) {anchor : Stmt}
    (h : (c.block.position? anchor).isSome) :
    PassM.Succeeds (c.splice .standard (.statements stmts) side anchor : PassM σ Repair) := by
  refine (PassM.make_succeeds fun next => ?_).then_ fun block => .pure trivial
  obtain ⟨out, next', run⟩ := c.block.splice_statements stmts ⟨side, anchor⟩ h next
  exact ⟨out, next', run, trivial⟩

theorem swap_succeeds (c : Repair) (stmts : List Stmt) {anchor : Stmt} (successor : Stmt)
    (h : (c.block.position? anchor).isSome) :
    PassM.Succeeds (c.swap .standard anchor stmts successor : PassM σ Repair) :=
  (c.splice_succeeds stmts .replace h).then_ fun _ => .pure trivial

theorem extract_succeeds (c : Repair) {anchor : Stmt} (tainted : Expr) (base : String)
    (h : (c.block.position? anchor).isSome) :
    PassM.Succeeds (c.extract .standard anchor tainted base : PassM σ Repair) := by
  unfold extract
  refine VisitM.Succeeds.then_ (.fresh fun _ => trivial) fun path => ?_
  refine VisitM.Succeeds.then_ (.fresh fun _ => trivial) fun read => ?_
  refine VisitM.Succeeds.then_ (.fresh fun _ => trivial) fun changed => ?_
  cases changed with
  | none => exact .pure trivial
  | some changed =>
    refine VisitM.Succeeds.then_ (.fresh fun _ => trivial) fun declaration => ?_
    refine (PassM.requestImports_succeeds _).then_ fun _ => ?_
    exact swap_succeeds _ _ _ h

/-- A guard that was chosen for the types of its operands can be written. -/
theorem guardAfter_succeeds (c : Repair) {anchor : Stmt} {tainted parent : Expr}
    {variant : GuardVariant} {message : String} (plain : ¬ Template.opening <:+: message.toList)
    (selected : GuardVariant.select? tainted.ty parent.ty = some variant)
    (h : (c.block.position? anchor).isSome) :
    PassM.Succeeds
      (c.guardAfter .standard anchor tainted parent variant message : PassM σ Repair) := by
  unfold guardAfter
  refine VisitM.Succeeds.then_ (.fresh fun _ => trivial) fun path => ?_
  obtain ⟨template, made, params, build⟩ :=
    guardTemplate_of_plain variant (path.child (.stmt anchor)).guardException plain
  have rendered : VisitM.Succeeds Cursor.Sound
      (fun fragment => ∃ stmts, fragment = .statements stmts)
      (PassM.make .template (template.render [tainted, parent]) : PassM σ Fragment) :=
    PassM.make_succeeds fun next =>
      ⟨_, _, Template.render_of_check (GuardVariant.check_of_select params selected) next,
        build _ next⟩
  simp only [made]
  refine rendered.bind ?_
  intro fragment h
  obtain ⟨stmts, rfl⟩ := h
  refine (PassM.requestImports_succeeds _).then_ fun _ => ?_
  exact c.splice_succeeds stmts .after h

theorem replace_succeeds (c : Repair) {anchor : Stmt} (tainted new : Expr) (imports : List String)
    (h : (c.block.position? anchor).isSome) :
    PassM.Succeeds (c.replace .standard anchor tainted new imports : PassM σ Repair) := by
  unfold replace
  refine VisitM.Succeeds.then_ (.fresh fun _ => trivial) fun changed => ?_
  cases changed with
  | none => exact .pure trivial
  | some changed =>
    refine (PassM.requestImports_succeeds _).then_ fun _ => ?_
    exact swap_succeeds _ _ _ h

/-- Applying a fix that renders succeeds, whatever became of the block. -/
theorem apply_succeeds (c : Repair) {fix : PendingFix} (renders : fix.Renders) :
    PassM.Succeeds (apply .standard c fix : PassM σ Repair) := by
  unfold apply
  cases found : c.resolve? fix.anchor with
  | none => exact .pure trivial
  | some anchor =>
    have here := position?_of_follow found
    cases kind : fix.kind with
    | extract base => exact c.extract_succeeds _ _ here
    | guardAfter variant message =>
      cases hparent : fix.parent with
      | none => exact .pure trivial
      | some parent =>
        obtain ⟨plain, selected⟩ := renders variant message parent kind hparent
        exact c.guardAfter_succeeds plain selected here
    | replace new imports => exact c.replace_succeeds _ _ _ here
    | insertAfter stmts => exact c.splice_succeeds _ _ here
    | insertBefore stmts => exact c.splice_succeeds _ _ here
    | remove => exact c.splice_succeeds _ _ here

end Repair

/-- The fixes noted on a sound cursor are all applied. -/
theorem repair_succeeds {σ : Type} (before after : Block) :
    PassM.Succeeds (repair .standard before after : PassM σ Block) := by
  unfold repair
  have taking : VisitM.Succeeds Cursor.Sound
      (fun taken => ∀ pending, taken = some pending → ∀ fix ∈ pending.fixes, fix.Renders)
      (VisitM.modifyCursor (·.take Note.fixTopic) : PassM σ (Option PendingFixes)) :=
    .modifyCursor fun c hc => ⟨hc.atFrame fun f hf => hf.take _, fun _ => hc.take_fixes⟩
  refine taking.bind fun taken renders => ?_
  cases taken with
  | none => exact .pure trivial
  | some pending =>
    refine VisitM.Succeeds.path.then_ fun path => ?_
    refine (VisitM.Succeeds.foldlM _ fun fix hfix c => ?_) _ |>.then_ fun _ => .pure trivial
    obtain ⟨tag, -, hfix⟩ := List.mem_flatMap.mp hfix
    exact Repair.apply_succeeds c (renders pending rfl fix (List.mem_filter.mp hfix).1)

end JavaMend
