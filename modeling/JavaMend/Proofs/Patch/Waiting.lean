import JavaMend.Proofs.Patch.Load

/-!
# Fixes that wait, and imports that are asked for

Of all that visitors note on a cursor, `Cursor.waiting` keeps the fixes: for each
node from the current one outward, the fixes that wait there. Notes of other sorts
do not touch them, and the fixes of a statement end up at the nearest block that has
the statement.

`Cursor.asked` keeps the classes whose import was asked for, on the frame of the root.
Fixes and findings do not touch them, and asking for more classes adds those that are
not there yet.

Every key is written to under one topic only, so what stands under a key can be read
(`Cursor.Legible`). This is what makes a note that is left one that is there.
-/

namespace JavaMend

/-! ## One frame -/

/-- The fixes noted on a frame. -/
def Frame.fixes (f : Frame Note) : List PendingFix :=
  ((f.read? Note.fixTopic).map (·.fixes)).getD []

namespace Frame

/-- Taking the fixes off a frame. -/
theorem take_fixes (f : Frame Note) :
    (f.take Note.fixTopic = (none, f) ∧ f.fixes = []) ∨
      ∃ pending, (f.take Note.fixTopic).1 = some pending ∧ pending.fixes = f.fixes ∧
        (f.take Note.fixTopic).2.fixes = [] := by
  cases read : f.read? Note.fixTopic with
  | none => exact .inl ⟨by simp only [take, read], by simp only [fixes, read]; rfl⟩
  | some pending =>
    refine .inr ⟨pending, by simp only [take, read], by simp only [fixes, read]; rfl, ?_⟩
    have erased : (f.erase Note.fixTopic.key).note? Note.fixTopic.key = none := by
      unfold erase note?
      refine List.lookup_eq_none_iff.mpr fun entry mem => ?_
      have other : entry.1 ≠ Note.fixTopic.key := bne_iff_ne.mp (List.mem_filter.mp mem).2
      exact bne_iff_ne.mpr other.symm
    simp only [take, read]
    unfold fixes read?
    rw [erased]
    rfl

theorem fixes_put (f : Frame Note) (pending : PendingFixes) :
    (f.put Note.fixTopic pending).fixes = pending.fixes := by
  unfold fixes read? put insert note?
  simp [Note.fixTopic]

/-- A note that stands under the key of a topic is one of the topic. -/
def Legible {α : Type} (topic : Topic Note α) (f : Frame Note) : Prop :=
  ∀ note, f.note? topic.key = some note → (topic.read? note).isSome

/-- Noting a fix on a frame, unless a note of another sort stands under the key. -/
theorem modify_fixes (f : Frame Note) (fix : PendingFix) :
    ((f.modify Note.fixTopic .empty (·.add fix)).2.fixes = f.fixes ∧ ¬ f.Legible Note.fixTopic) ∨
      (f.modify Note.fixTopic .empty (·.add fix)).2.fixes =
        (PendingFixes.add ⟨f.fixes⟩ fix).fixes := by
  unfold modify
  split
  next found =>
    have none : f.fixes = [] := by
      unfold fixes read?
      rw [found]
      rfl
    exact .inr (by rw [fixes_put, none]; rfl)
  next note found =>
    split
    next pending read =>
      have here : f.fixes = pending.fixes := by
        unfold fixes read?
        rw [found]
        simp [read]
      exact .inr (by rw [fixes_put, here])
    next unread =>
      refine .inl ⟨rfl, fun legible => ?_⟩
      have readable := legible note found
      rw [unread] at readable
      cases readable

/-- A change of notes under another key leaves the fixes. -/
theorem fixes_modify_of_ne {α : Type} (f : Frame Note) {topic : Topic Note α}
    (ne : Note.fixTopic.key ≠ topic.key) (init : α) (change : α → α) :
    (f.modify topic init change).2.fixes = f.fixes := by
  unfold fixes
  rw [read?_modify_of_ne ne]

end Frame

/-! ## Cursors -/

namespace Cursor

variable {c : Cursor Note}

/-- The nodes from the current one outward, and the fixes that wait at each. -/
def waiting (c : Cursor Note) : List (Node × List PendingFix) :=
  c.frames.map fun f => (f.node, f.fixes)

theorem outward_path (c : Cursor Note) : c.path.outward = c.waiting.map (·.1) := by
  unfold path waiting
  rw [List.map_map]
  rfl

theorem waiting_push (c : Cursor Note) (n : Node) : (c.push n).waiting = (n, []) :: c.waiting := rfl

theorem waiting_pop (c : Cursor Note) : c.pop.waiting = c.waiting.tail := by
  unfold waiting pop
  rw [List.map_tail]

theorem waiting_ofPath (p : Path) : (ofPath p).waiting = p.outward.map fun n => (n, []) := by
  unfold waiting ofPath
  rw [List.map_map]
  rfl

/-- A change of one frame that keeps its node and its fixes. -/
theorem waiting_atFrame {α : Type} {index : Nat} {change : Frame Note → Option α × Frame Note}
    (node : ∀ f, (change f).2.node = f.node) (fixes : ∀ f, (change f).2.fixes = f.fixes) :
    (c.atFrame index change).2.waiting = c.waiting := by
  have kept : List.Forall₂ (fun f f' => (f'.node, f'.fixes) = (f.node, f.fixes)) c.frames
      (c.atFrame index change).2.frames := by
    refine forall₂_atFrame ?_ ?_
    · exact fun _ => rfl
    · exact fun f => by rw [node, fixes]
  unfold waiting
  refine List.ext_getElem (by simp [kept.length_eq]) fun i hi hi' => ?_
  rw [List.length_map] at hi hi'
  simpa using (List.forall₂_iff_get.mp kept).2 i hi' hi

theorem waiting_requestImport (c : Cursor Note) (fqn : String) :
    (c.requestImport fqn).waiting = c.waiting :=
  waiting_atFrame (fun f => f.node_modify _ _ _)
    fun f => f.fixes_modify_of_ne (by decide) _ _

theorem waiting_requestImports (c : Cursor Note) (fqns : List String) :
    (c.requestImports fqns).waiting = c.waiting := by
  unfold requestImports
  induction fqns generalizing c with
  | nil => rfl
  | cons fqn fqns ih => exact (ih _).trans (waiting_requestImport c fqn)

theorem waiting_noteFinding (c : Cursor Note) (finding : Finding) :
    (c.noteFinding finding).waiting = c.waiting :=
  waiting_atFrame (fun f => f.node_modify _ _ _)
    fun f => f.fixes_modify_of_ne (by decide) _ _

/-- Taking the fixes of the current node. -/
theorem waiting_take {n : Node} {fixes : List PendingFix} {above : List (Node × List PendingFix)}
    (here : c.waiting = (n, fixes) :: above) :
    ((c.take Note.fixTopic).1 = none ∧ fixes = [] ∧ (c.take Note.fixTopic).2.waiting = c.waiting) ∨
      ∃ pending, (c.take Note.fixTopic).1 = some pending ∧ pending.fixes = fixes ∧
        (c.take Note.fixTopic).2.waiting = (n, []) :: above := by
  obtain ⟨f, frames, split, at_, rest⟩ := List.map_eq_cons_iff.mp here
  cases at_
  have depth : c.depth - 1 = frames.length := by
    unfold Cursor.depth
    rw [split, List.length_cons, Nat.add_sub_cancel]
  have taken : c.take Note.fixTopic =
      ((f.take Note.fixTopic).1, ⟨(f.take Note.fixTopic).2 :: frames⟩) := by
    unfold take takeAt
    rw [depth]
    exact atFrame_of_split (show c.frames = [] ++ f :: frames from split) _
  rw [taken]
  rcases f.take_fixes with ⟨none, empty⟩ | ⟨pending, some, same, empty⟩
  · refine .inl ⟨by rw [none], empty, ?_⟩
    unfold waiting
    rw [none, split]
  · refine .inr ⟨pending, some, same, ?_⟩
    unfold waiting
    dsimp only
    rw [List.map_cons, f.node_take, empty, rest]

/-- The block that a fix is noted on. -/
theorem nearest?_position {front above : List Node} {b : Block} {anchor : Stmt}
    (open_ : ∀ n ∈ front, n.block? = none) (mem : anchor ∈ b.stmts) :
    ((⟨front ++ .block b :: above⟩ : Path).nearest? fun n =>
      n.block?.bind (·.position? anchor)).map (·.1) = some above.length := by
  unfold Path.nearest?
  induction front with
  | nil =>
    have found : (b.position? anchor).isSome := Block.position?_isSome.mpr (List.mem_map_of_mem mem)
    obtain ⟨i, hi⟩ := Option.isSome_iff_exists.mp found
    rw [List.nil_append, Path.nearest?.go]
    simp only [Node.block?, Option.bind_some, hi, Option.map_some]
  | cons n front ih =>
    rw [List.cons_append, Path.nearest?.go]
    simp only [open_ n List.mem_cons_self, Option.bind_none]
    exact ih fun m hm => open_ m (List.mem_cons_of_mem _ hm)

/-- A fix for a statement of the nearest block waits at that block. It is not noted only if
something else stands in the place of fixes. -/
theorem waiting_noteFix {front above : List (Node × List PendingFix)} {b : Block}
    {fixes : List PendingFix} {fix : PendingFix}
    (split : c.waiting = front ++ (.block b, fixes) :: above)
    (open_ : ∀ p ∈ front, p.1.block? = none) (mem : fix.anchor ∈ b.stmts) :
    ((c.noteFix fix).2.waiting = c.waiting ∧ ∃ f ∈ c.frames, ¬ f.Legible Note.fixTopic) ∨
      (c.noteFix fix).2.waiting =
        front ++ (.block b, (PendingFixes.add ⟨fixes⟩ fix).fixes) :: above := by
  obtain ⟨frames, rest, frames_eq, rfl, tail⟩ := List.map_eq_append_iff.mp split
  obtain ⟨f, frames', rfl, at_, rfl⟩ := List.map_eq_cons_iff.mp tail
  obtain ⟨node, rfl⟩ := Prod.mk.inj at_
  have outward : c.path = ⟨frames.map (·.node) ++ .block b :: frames'.map (·.node)⟩ := by
    unfold path
    rw [frames_eq, List.map_append, List.map_cons, node]
  have holder : (c.path.nearest? fun n => n.block?.bind (·.position? fix.anchor)).map (·.1) =
      some frames'.length := by
    rw [outward, nearest?_position ?_ mem, List.length_map]
    intro n hn
    obtain ⟨g, hg, rfl⟩ := List.mem_map.mp hn
    exact open_ _ (List.mem_map_of_mem hg)
  unfold noteFix
  dsimp only
  rw [holder, Option.some_or]
  dsimp only
  unfold modifyAt
  rw [atFrame_of_split frames_eq]
  unfold waiting
  dsimp only
  rw [frames_eq, List.map_append, List.map_append, List.map_cons, List.map_cons, f.node_modify,
    node]
  rcases f.modify_fixes fix with ⟨same, blocked⟩ | added
  · exact .inl ⟨by rw [same], f, by simp, blocked⟩
  · exact .inr (by rw [added])

end Cursor

/-! ## Notes that can be read -/

namespace Frame

variable {f : Frame Note} {α β : Type} {asked : Topic Note α} {topic : Topic Note β}

theorem legible_ofNode (n : Node) : (ofNode n : Frame Note).Legible asked := by
  intro note found
  cases found

/-- A change of notes under another key leaves what can be read. -/
theorem Legible.modify_of_ne (h : f.Legible asked) (ne : asked.key ≠ topic.key) (init : β)
    (change : β → β) : (f.modify topic init change).2.Legible asked := by
  intro note found
  refine h note ?_
  unfold modify at found
  split at found
  · rwa [put, note?_insert_of_ne ne] at found
  · split at found
    · rwa [put, note?_insert_of_ne ne] at found
    · exact found

theorem note?_put (f : Frame Note) (topic : Topic Note β) (value : β) :
    (f.put topic value).note? topic.key = some (topic.note value) := by
  simp [put, insert, note?]

/-- A value that is noted on a topic is there. -/
theorem read?_modify (h : f.Legible topic) (reads : ∀ value, topic.read? (topic.note value) = some value)
    (init : β) (change : β → β) :
    (f.modify topic init change).2.read? topic = some (change ((f.read? topic).getD init)) := by
  unfold Frame.modify
  split
  next found =>
    simp [read?, note?_put, reads, found]
  next note found =>
    obtain ⟨value, read⟩ := Option.isSome_iff_exists.mp (h note found)
    simp [read?, note?_put, reads, found, read]

theorem Legible.modify (h : f.Legible topic) (reads : ∀ value, topic.read? (topic.note value) = some value)
    (init : β) (change : β → β) : (f.modify topic init change).2.Legible topic := by
  intro note found
  have read := read?_modify h reads init change
  unfold read? at read
  rw [found] at read
  exact Option.isSome_of_mem read

theorem Legible.take (h : f.Legible asked) (topic : Topic Note β) :
    (f.take topic).2.Legible asked := by
  unfold Frame.take
  split
  next =>
    intro note found
    by_cases same : asked.key = topic.key
    · have erased : (f.erase topic.key).note? asked.key = none := by
        unfold erase note?
        refine List.lookup_eq_none_iff.mpr fun entry mem => ?_
        have other : entry.1 ≠ topic.key := bne_iff_ne.mp (List.mem_filter.mp mem).2
        exact bne_iff_ne.mpr (same ▸ other.symm)
      cases erased.symm.trans found
    · exact h note (by rwa [note?_erase_of_ne same] at found)
  next => exact h

/-- Taking the value of one topic leaves the values under other keys. -/
theorem read?_take_of_ne (ne : asked.key ≠ topic.key) :
    (f.take topic).2.read? asked = f.read? asked := by
  unfold Frame.take
  split
  · exact congrArg (·.bind asked.read?) (note?_erase_of_ne ne)
  · rfl

end Frame

namespace Cursor

variable {c : Cursor Note}

/-- On every frame, the fixes and the imports can be read. -/
def Legible (c : Cursor Note) : Prop :=
  ∀ f ∈ c.frames, f.Legible Note.fixTopic ∧ f.Legible Note.importTopic

theorem legible_ofPath (p : Path) : (ofPath p : Cursor Note).Legible := by
  intro f mem
  obtain ⟨n, -, rfl⟩ := List.mem_map.mp mem
  exact ⟨Frame.legible_ofNode n, Frame.legible_ofNode n⟩

theorem Legible.push (h : c.Legible) (n : Node) : (c.push n).Legible := by
  intro f mem
  rcases List.mem_cons.mp mem with rfl | mem
  · exact ⟨Frame.legible_ofNode n, Frame.legible_ofNode n⟩
  · exact h f mem

theorem Legible.pop (h : c.Legible) : c.pop.Legible := fun f mem => h f (List.mem_of_mem_tail mem)

theorem Legible.requestImport (h : c.Legible) (fqn : String) : (c.requestImport fqn).Legible :=
  forall_atFrame h fun _ hf =>
    ⟨hf.1.modify_of_ne (by decide) _ _, hf.2.modify (fun _ => rfl) _ _⟩

theorem Legible.requestImports (h : c.Legible) (fqns : List String) :
    (c.requestImports fqns).Legible := by
  unfold Cursor.requestImports
  induction fqns generalizing c with
  | nil => exact h
  | cons fqn fqns ih => exact ih (h.requestImport fqn)

theorem Legible.noteFinding (h : c.Legible) (finding : Finding) :
    (c.noteFinding finding).Legible :=
  forall_atFrame h fun _ hf =>
    ⟨hf.1.modify_of_ne (by decide) _ _, hf.2.modify_of_ne (by decide) _ _⟩

theorem Legible.noteFix (h : c.Legible) (fix : PendingFix) : (c.noteFix fix).2.Legible := by
  unfold Cursor.noteFix
  dsimp only
  split
  · exact h
  · exact forall_atFrame h fun _ hf =>
      ⟨hf.1.modify (fun _ => rfl) _ _, hf.2.modify_of_ne (by decide) _ _⟩

theorem Legible.take_fixes (h : c.Legible) : (c.take Note.fixTopic).2.Legible :=
  forall_atFrame h fun _ hf => ⟨hf.1.take _, hf.2.take _⟩

/-! ## What was asked for -/

/-- The classes whose import was asked for. -/
def asked (c : Cursor Note) : List String :=
  ((c.frames.getLast?.bind (·.read? Note.importTopic)).map (·.requested)).getD []

theorem asked_push (inside : c.frames ≠ []) (n : Node) : (c.push n).asked = c.asked := by
  unfold asked push
  rw [List.getLast?_cons_of_ne_nil inside]

theorem asked_pop (inside : c.pop.frames ≠ []) : c.pop.asked = c.asked := by
  obtain ⟨frames⟩ := c
  cases frames with
  | nil => rfl
  | cons f frames =>
    unfold asked
    rw [List.getLast?_cons_of_ne_nil (show frames ≠ [] from inside)]
    rfl

/-- A change of one frame that keeps its imports. -/
theorem asked_atFrame {α : Type} {index : Nat} {change : Frame Note → Option α × Frame Note}
    (keeps : ∀ f, (change f).2.read? Note.importTopic = f.read? Note.importTopic) :
    (c.atFrame index change).2.asked = c.asked := by
  have kept : List.Forall₂ (fun f f' : Frame Note =>
      f'.read? Note.importTopic = f.read? Note.importTopic) c.frames
      (c.atFrame index change).2.frames := by
    refine forall₂_atFrame ?_ keeps
    exact fun _ => rfl
  have same : (c.atFrame index change).2.frames.map (·.read? Note.importTopic) =
      c.frames.map (·.read? Note.importTopic) := by
    refine List.ext_getElem (by simp [kept.length_eq]) fun i hi hi' => ?_
    rw [List.length_map] at hi hi'
    simpa using (List.forall₂_iff_get.mp kept).2 i hi' hi
  have last := congrArg List.getLast? same
  rw [List.getLast?_map, List.getLast?_map] at last
  have bind {frame : Option (Frame Note)} : frame.bind (·.read? Note.importTopic) =
      (frame.map (·.read? Note.importTopic)).join := by cases frame <;> rfl
  unfold asked
  rw [bind, bind, last]

theorem asked_noteFinding (c : Cursor Note) (finding : Finding) :
    (c.noteFinding finding).asked = c.asked :=
  asked_atFrame fun _ => Frame.read?_modify_of_ne (by decide) _ _

theorem asked_noteFix (c : Cursor Note) (fix : PendingFix) : (c.noteFix fix).2.asked = c.asked := by
  unfold noteFix
  dsimp only
  split
  · rfl
  · exact asked_atFrame fun _ => Frame.read?_modify_of_ne (by decide) _ _

theorem asked_take_fixes (c : Cursor Note) : (c.take Note.fixTopic).2.asked = c.asked :=
  asked_atFrame fun _ => Frame.read?_take_of_ne (by decide)

/-- Asking for a class adds it to those that were asked for. -/
theorem asked_requestImport (inside : c.frames ≠ []) (h : c.Legible) (fqn : String) :
    (c.requestImport fqn).asked = (ImportRequests.add ⟨c.asked⟩ fqn).requested := by
  obtain ⟨front, f, split⟩ := List.eq_nil_or_concat' c.frames |>.resolve_left inside
  have legible := (h f (by rw [split]; simp)).2
  have before : c.asked = ((f.read? Note.importTopic).map (·.requested)).getD [] := by
    unfold asked
    rw [split, List.getLast?_concat]
    rfl
  have after : (c.requestImport fqn).asked =
      (((f.modify Note.importTopic .empty (·.add fqn)).2.read? Note.importTopic).map
        (·.requested)).getD [] := by
    unfold requestImport modifyAt asked
    rw [show 0 = ([] : List (Frame Note)).length from rfl, atFrame_of_split split]
    dsimp only
    rw [List.getLast?_concat]
    rfl
  rw [after, before, Frame.read?_modify legible fun _ => rfl]
  cases f.read? Note.importTopic <;> rfl

theorem frames_requestImport (c : Cursor Note) (fqn : String) :
    (c.requestImport fqn).frames.length = c.frames.length := by
  have kept : List.Forall₂ (fun _ _ => True) c.frames (c.requestImport fqn).frames :=
    forall₂_atFrame (fun _ => trivial) fun _ => trivial
  exact kept.length_eq.symm

/-- What was asked for stays so, and what is asked for is added. -/
theorem mem_asked_requestImports (inside : c.frames ≠ []) (h : c.Legible) {fqns : List String}
    {fqn : String} : fqn ∈ (c.requestImports fqns).asked ↔ fqn ∈ c.asked ∨ fqn ∈ fqns := by
  unfold requestImports
  induction fqns generalizing c with
  | nil => simp
  | cons first fqns ih =>
    have inside' : (c.requestImport first).frames ≠ [] := by
      rw [← List.length_pos_iff, frames_requestImport]
      exact List.length_pos_iff.mpr inside
    rw [List.foldl_cons, ih inside' (h.requestImport first), asked_requestImport inside h]
    unfold ImportRequests.add
    split
    next there =>
      have there : first ∈ c.asked := List.contains_iff_mem.mp there
      simp only [List.mem_cons]
      grind
    next => simp [or_assoc]

/-! ## What is taken in the end -/

theorem requested_takeImports (c : Cursor Note) : c.takeImports.1.requested = c.asked := by
  rcases List.eq_nil_or_concat' c.frames with none | ⟨front, f, split⟩
  · obtain ⟨frames⟩ := c
    cases none
    rfl
  · unfold takeImports takeAt asked
    rw [show 0 = ([] : List (Frame Note)).length from rfl, atFrame_of_split split, split,
      List.getLast?_concat]
    dsimp only [Option.bind_some]
    unfold Frame.take
    cases f.read? Note.importTopic <;> rfl

theorem asked_takeFindings (c : Cursor Note) : c.takeFindings.2.asked = c.asked :=
  asked_atFrame fun _ => Frame.read?_take_of_ne (by decide)

end Cursor

end JavaMend
