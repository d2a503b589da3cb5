import JavaMend.Proofs.Patch.Waiting
import JavaMend.Proofs.Remedy.Mending

/-!
# Visits that only append

The passes for factories look at a block when its visit ends, and all that they note are
statements to be written behind statements of that block. Which ones is decided on the
block as it was before the visit: it is a plan, a function of the block and of the path
to it (`Remedy.Appends`).

What such a visit makes of a tree is said here in full, with nothing about cursors and
fixes in it (`Node.Appended`): nodes are rebuilt around what became of their children, and
behind each statement of a block stands what the last addition for it makes. An addition
for the same statement before it is lost, for there is one insertion for an anchor.
-/

namespace JavaMend

/-- Statements to be written behind a statement of a block. -/
structure Addition where
  anchor : Stmt
  tainted : Expr
  make : Fresh (List Stmt)
  imports : List String

namespace Addition

/-- Makes the statements, and notes the fix that writes them. -/
def note (a : Addition) : PassM Unit Unit := do
  let stmts ← VisitM.fresh a.make
  if ← PassM.noteFix
      { anchor := a.anchor, tainted := a.tainted, parent := none, kind := .insertAfter stmts } then
    PassM.requestImports a.imports

/-- The addition that counts of those for one statement. -/
def last? (adds : List Addition) (s : Stmt) : Option Addition :=
  (adds.filter (·.anchor.same s)).getLast?

theorem last?_concat (adds : List Addition) (a : Addition) (s : Stmt) :
    last? (adds ++ [a]) s = if a.anchor.same s then some a else last? adds s := by
  unfold last?
  rw [List.filter_append, List.filter_singleton]
  cases a.anchor.same s with
  | true => exact List.getLast?_concat
  | false => exact congrArg List.getLast? (List.append_nil _)

theorem last?_mem {adds : List Addition} {s : Stmt} {a : Addition} (found : last? adds s = some a) :
    a ∈ adds ∧ a.anchor.same s = true :=
  List.mem_filter.mp (List.mem_of_getLast? found)

/-- What is written behind a statement. -/
inductive Written : Option Addition → List Stmt → Prop where
  | nothing : Written none []
  | made (a : Addition) (next : NodeId) : Written (some a) (a.make next).1

end Addition

/-- A statement of a block, what became of it, and what was written behind that. -/
structure Appendage where
  old : Stmt
  visited : Stmt
  written : List Stmt

def Appendage.stmts (p : Appendage) : List Stmt := p.visited :: p.written

/-- What a visit that appends by a plan makes of a node below the nodes of `above`. -/
inductive Node.Appended (plan : Block → Path → List Addition) : List Node → Node → Node → Prop where
  | around {above : List Node} {n out : Node} (open_ : n.block? = none) (pairs : List (Node × Node))
      (label : out.label = n.label) (before : n.children = pairs.map (·.1))
      (after : out.children = pairs.map (·.2))
      (visited : ∀ p ∈ pairs, Node.Appended plan (n :: above) p.1 p.2)
      (kept : out.children = n.children → out = n) : Node.Appended plan above n out
  | block {above : List Node} {b out : Block} (parts : List Appendage)
      (isStatic : out.isStatic = b.isStatic) (before : b.stmts = parts.map (·.old))
      (after : out.stmts = parts.flatMap (·.stmts))
      (visited : ∀ p ∈ parts, Node.Appended plan (.block b :: above) (.stmt p.old) (.stmt p.visited))
      (written : ∀ p ∈ parts,
        Addition.Written (Addition.last? (plan b ⟨.block b :: above⟩) p.old) p.written)
      (kept : plan b ⟨.block b :: above⟩ = [] → (∀ p ∈ parts, p.visited = p.old) → out = b) :
      Node.Appended plan above (.block b) (.block out)

/-- The remedy notes, at the end of the visit of a block, the additions of a plan. -/
structure Remedy.Appends (remedy : Remedy Unit) (plan : Block → Path → List Addition) : Prop where
  enter : ∀ n, remedy.enter n = pure true
  leave : ∀ b, remedy.leave b = do
    let path ← VisitM.path
    (plan b path).forM Addition.note
  anchors : ∀ b above, ∀ a ∈ plan b ⟨.block b :: above⟩, a.anchor ∈ b.stmts

/-! ## What waits -/

namespace Addition

/-- The fixes that wait for one statement, if this is the addition that counts. -/
inductive Waits : Option Addition → List PendingFix → Prop where
  | nothing : Waits none []
  | one {a : Addition} {fix : PendingFix} (next : NodeId)
      (kind : fix.kind = .insertAfter (a.make next).1) : Waits (some a) [fix]

/-- The fixes that wait at a block when some additions have been noted. -/
def Waiting (adds : List Addition) (fixes : List PendingFix) : Prop :=
  ∀ s : Stmt, Waits (last? adds s) (fixes.filter (·.anchor.same s))

variable {adds : List Addition} {fixes : List PendingFix} {fix : PendingFix} {a : Addition}

theorem waiting_nil : Waiting [] [] := fun _ => .nothing

/-- A fix that waits inserts behind its anchor. -/
theorem Waiting.inserts (h : Waiting adds fixes) (mem : fix ∈ fixes) :
    ∃ stmts, fix.kind = .insertAfter stmts := by
  have here : fix ∈ fixes.filter (·.anchor.same fix.anchor) :=
    List.mem_filter.mpr ⟨mem, beq_self_eq_true _⟩
  have waits := h fix.anchor
  generalize fixes.filter (·.anchor.same fix.anchor) = own at here waits
  generalize last? adds fix.anchor = last at waits
  cases waits with
  | nothing => cases here
  | one next kind =>
    cases List.mem_singleton.mp here
    exact ⟨_, kind⟩

/-- One more addition takes the place of the one for the same statement. -/
theorem Waiting.add (h : Waiting adds fixes) (anchor : fix.anchor = a.anchor) {next : NodeId}
    (kind : fix.kind = .insertAfter (a.make next).1) :
    Waiting (adds ++ [a]) (PendingFixes.add ⟨fixes⟩ fix).fixes := by
  have supersedes {old : PendingFix} (mem : old ∈ fixes) :
      fix.supersedes old = a.anchor.same old.anchor := by
    obtain ⟨stmts, inserts⟩ := h.inserts mem
    unfold PendingFix.supersedes
    rw [anchor, kind, inserts]
    simp [FixKind.tag]
  intro s
  unfold PendingFixes.add
  rw [last?_concat, List.filter_append, List.filter_filter]
  by_cases here : a.anchor.same s = true
  · have gone : fixes.filter (fun old => old.anchor.same s && !fix.supersedes old) = [] := by
      refine List.filter_eq_nil_iff.mpr fun old mem both => ?_
      rw [supersedes mem, Bool.and_eq_true, Bool.not_eq_true'] at both
      refine Bool.noConfusion (both.2.symm.trans (beq_iff_eq.mpr ?_))
      exact (eq_of_beq here).trans (eq_of_beq both.1).symm
    rw [gone, if_pos here, List.nil_append, List.filter_cons_of_pos (by rwa [anchor]), List.filter_nil]
    exact .one next kind
  · have same : fixes.filter (fun old => old.anchor.same s && !fix.supersedes old) =
        fixes.filter (·.anchor.same s) := by
      refine List.filter_congr fun old mem => ?_
      rw [supersedes mem]
      cases own : old.anchor.same s with
      | false => rfl
      | true =>
        rw [Bool.true_and, Bool.not_eq_true']
        refine Bool.eq_false_iff.mpr fun superseded => here ?_
        exact beq_iff_eq.mpr ((eq_of_beq superseded).trans (eq_of_beq own))
    rw [same, if_neg here, List.filter_cons_of_neg (by rwa [anchor]), List.filter_nil, List.append_nil]
    exact h s

/-- Where no addition was noted, no fix waits. -/
theorem Waiting.eq_nil (h : Waiting [] fixes) : fixes = [] := by
  refine List.eq_nil_iff_forall_not_mem.mpr fun fix mem => ?_
  have here : fix ∈ fixes.filter (·.anchor.same fix.anchor) :=
    List.mem_filter.mpr ⟨mem, beq_self_eq_true _⟩
  have waits : Waits none (fixes.filter (·.anchor.same fix.anchor)) := h fix.anchor
  generalize fixes.filter (·.anchor.same fix.anchor) = own at here waits
  cases waits
  cases here

/-- What the fixes that wait for a statement write, in whatever order they are applied. -/
theorem Waits.written {own other : List PendingFix} {last : Option Addition} (h : Waits last own)
    (perm : other.Perm own) : Written last (other.flatMap (·.kind.written)) := by
  cases h with
  | nothing =>
    rw [perm.eq_nil]
    exact .nothing
  | @one a fix next kind =>
    rw [List.perm_singleton.mp perm, List.flatMap_singleton, kind]
    exact .made a next

end Addition

/-! ## The visit -/

/-- Between two steps of the visit, no fix waits anywhere. -/
structure Plain (path : List Node) (site : Site Note Unit) : Prop where
  legible : site.cursor.Legible
  waiting : site.cursor.waiting = path.map fun n => (n, [])

/-- At the end of the visit of a block, some additions wait there. -/
structure Awaits (adds : List Addition) (b : Block) (above : List Node) (site : Site Note Unit) :
    Prop where
  legible : site.cursor.Legible
  waiting : ∃ fixes, Addition.Waiting adds fixes ∧
    site.cursor.waiting = (.block b, fixes) :: above.map fun n => (n, [])

section

variable {path above : List Node} {b : Block} {site : Site Note Unit} {adds : List Addition}

theorem Plain.push (h : Plain path site) (c : Node) :
    Plain (c :: path) { site with cursor := site.cursor.push c } where
  legible := h.legible.push c
  waiting := by
    dsimp only
    rw [Cursor.waiting_push, h.waiting]
    rfl

theorem Plain.pop {c : Node} (h : Plain (c :: path) site) :
    Plain path { site with cursor := site.cursor.pop } where
  legible := h.legible.pop
  waiting := by
    dsimp only
    rw [Cursor.waiting_pop, h.waiting]
    rfl

theorem Plain.next (h : Plain path site) (next : NodeId) : Plain path { site with next } :=
  ⟨h.legible, h.waiting⟩

theorem Plain.awaits (h : Plain (.block b :: above) site) : Awaits [] b above site :=
  ⟨h.legible, [], Addition.waiting_nil, h.waiting⟩

theorem plain_root (unit : CompilationUnit) (next : NodeId) :
    Plain [.unit unit] { cursor := .ofRoot (.unit unit), next, own := () } :=
  ⟨Cursor.legible_ofPath (.ofRoot _), rfl⟩

/-- Noting one addition. -/
theorem Addition.note_awaits {a : Addition} (inside : a.anchor ∈ b.stmts) :
    VisitM.Triple (Awaits adds b above) a.note fun _ => Awaits (adds ++ [a]) b above := by
  have made : VisitM.Triple (Awaits adds b above) (VisitM.fresh a.make : PassM Unit _)
      fun stmts site => Awaits adds b above site ∧ ∃ next, stmts = (a.make next).1 :=
    .fresh fun site h => ⟨⟨h.legible, h.waiting⟩, site.next, rfl⟩
  refine made.bind fun stmts => ?_
  have noted : VisitM.Triple
      (fun site => Awaits adds b above site ∧ ∃ next, stmts = (a.make next).1)
      (PassM.noteFix ⟨a.anchor, a.tainted, none, .insertAfter stmts⟩ : PassM Unit Bool)
      fun _ => Awaits (adds ++ [a]) b above := by
    refine .modifyCursor fun site h => ?_
    obtain ⟨⟨legible, fixes, waits, waiting⟩, next, rfl⟩ := h
    refine ⟨legible.noteFix _, _, @Waiting.add _ _ ⟨a.anchor, a.tainted, none, _⟩ a waits rfl next rfl, ?_⟩
    have split : site.cursor.waiting = [] ++ (.block b, fixes) :: above.map fun n => (n, []) := waiting
    refine (Cursor.waiting_noteFix split (fun _ none => (List.not_mem_nil none).elim)
      inside).resolve_left fun illegible => ?_
    obtain ⟨_, f, hf, illegible⟩ := illegible
    exact illegible (legible f hf).1
  refine noted.bind fun noted => ?_
  split
  · refine .modifyCursor fun site h => ?_
    obtain ⟨legible, fixes, waits, waiting⟩ := h
    exact ⟨legible.requestImports _, fixes, waits, (Cursor.waiting_requestImports _ _).trans waiting⟩
  · exact .pure fun _ h => h

/-- Noting some additions. -/
theorem Addition.notes_await {more : List Addition} (inside : ∀ a ∈ more, a.anchor ∈ b.stmts) :
    VisitM.Triple (Awaits adds b above) (more.forM Addition.note)
      fun _ => Awaits (adds ++ more) b above := by
  induction more generalizing adds with
  | nil => exact .pure fun _ h => by rwa [List.append_nil]
  | cons a more ih =>
    rw [List.append_cons]
    exact (note_awaits (inside a List.mem_cons_self)).bind fun _ =>
      ih fun a mem => inside a (List.mem_cons_of_mem _ mem)

end

/-! ## The end of the visit of a block -/

/-- The segments of the statements of a block, some insertions having been made. -/
def appendedSegments (visited : List (Stmt × Stmt)) (made : List PendingFix) : List (Stmt × Segment) :=
  visited.map fun p =>
    (p.1, ⟨[], some p.2, (made.filter (·.anchor.same p.1)).flatMap (·.kind.written)⟩)

/-- An insertion asks for no imports. -/
theorem Repair.apply_insertAfter {σ : Type} {fix : PendingFix} {stmts : List Stmt} {c c' : Repair}
    {site site' : Site Note σ} (kind : fix.kind = .insertAfter stmts)
    (ran : apply .standard c fix site = .ok c' site') : site' = { site with next := site'.next } := by
  unfold apply at ran
  cases resolved : c.resolve? fix.anchor with
  | none =>
    simp only [resolved] at ran
    cases ran
    rfl
  | some anchor =>
    simp only [resolved, kind] at ran
    unfold splice at ran
    obtain ⟨block, _, ran₁, ran⟩ := VisitM.ok_of_bind ran
    obtain ⟨used, -, rfl⟩ := PassM.ok_of_make ran₁
    cases ran
    rfl

section

variable {visited : List (Stmt × Stmt)} {made : List PendingFix} {fix : PendingFix}

/-- An insertion touches no segment but that of its anchor. -/
theorem appendedSegments_of_apart (apart : ∀ q ∈ visited, q.1.id ≠ fix.anchor.id) :
    appendedSegments visited (fix :: made) = appendedSegments visited made := by
  refine List.map_congr_left fun q mem => ?_
  have other : (fix :: made).filter (·.anchor.same q.1) = made.filter (·.anchor.same q.1) :=
    List.filter_cons_of_neg fun same => apart q mem (eq_of_beq same).symm
  rw [other]

/-- The segment of the anchor of one more insertion, and those before and behind it. -/
theorem appendedSegments_split {pre post : List (Stmt × Segment)} {g : Segment}
    (distinct : (visited.map (·.1.id)).Nodup)
    (at_ : appendedSegments visited made = pre ++ (fix.anchor, g) :: post) :
    ∃ s' written, g = ⟨[], some s', written⟩ ∧ appendedSegments visited (fix :: made) =
      pre ++ (fix.anchor, ⟨[], some s', fix.kind.written ++ written⟩) :: post := by
  obtain ⟨v, rest, rfl, rfl, tail⟩ := List.map_eq_append_iff.mp at_
  obtain ⟨⟨s, s'⟩, v', rfl, pair, rfl⟩ := List.map_eq_cons_iff.mp tail
  obtain ⟨rfl, rfl⟩ := Prod.mk.inj pair
  rw [List.map_append, List.map_cons, List.nodup_append, List.nodup_cons] at distinct
  have front : appendedSegments v (fix :: made) = appendedSegments v made :=
    appendedSegments_of_apart fun q mem same =>
      distinct.2.2 _ (List.mem_map_of_mem mem) _ List.mem_cons_self same
  have back : appendedSegments v' (fix :: made) = appendedSegments v' made :=
    appendedSegments_of_apart fun q mem same => distinct.2.1.1 (List.mem_map.mpr ⟨q, mem, same⟩)
  have here : (fix :: made).filter (·.anchor.same fix.anchor) =
      fix :: made.filter (·.anchor.same fix.anchor) :=
    List.filter_cons_of_pos (beq_self_eq_true _)
  refine ⟨s', _, rfl, ?_⟩
  unfold appendedSegments at front back ⊢
  rw [List.map_append, List.map_cons, front, back, here, List.flatMap_cons]

/-- Making one more insertion. -/
theorem appendedSegments_cons {stmts : List Stmt} {next : NodeId} {parts : List (Stmt × Segment)}
    (distinct : (visited.map (·.1.id)).Nodup) (kind : fix.kind = .insertAfter stmts)
    (advance : Repair.Advance next fix (appendedSegments visited made) parts) :
    parts = appendedSegments visited (fix :: made) := by
  generalize before : appendedSegments visited made = old at advance
  cases advance with
  | missed misses =>
    obtain ⟨s', written, same, after⟩ := appendedSegments_split distinct before
    obtain ⟨rfl, at_, rfl⟩ := Segment.mk.inj same
    have nothing : fix.kind.written = [] := misses.1.2
    rw [after, nothing, List.nil_append, at_]
  | stepped step =>
    obtain ⟨s', written, same, after⟩ := appendedSegments_split distinct before
    cases step with
    | insertAfter kind' =>
      cases kind.symm.trans kind'
      obtain ⟨rfl, at_, rfl⟩ := Segment.mk.inj same
      rw [after, kind, at_]
      rfl
    | extract kind' => cases kind.symm.trans kind'
    | guardAfter kind' => cases kind.symm.trans kind'
    | replace kind' => cases kind.symm.trans kind'
    | insertBefore kind' => cases kind.symm.trans kind'
    | remove kind' => cases kind.symm.trans kind'

end

section

variable {G : Regime} {plan : Block → Path → List Addition} {before after : Block} {n : Node}
  {above : List Node} {rest : Multiset Node} {visited : List (Stmt × Stmt)}
  {todo made : List PendingFix} {c c' : Repair} {site site' : Site Note Unit}

/-- Making all the insertions. -/
theorem appendedSegments_run (lawful : G.Lawful) (distinct : (visited.map (·.1.id)).Nodup)
    (anchored : ∀ fix ∈ todo, G.Anchored (.block before :: above) fix)
    (inserts : ∀ fix ∈ todo, ∃ stmts, fix.kind = .insertAfter stmts)
    (order : todo.Pairwise PendingFixes.Precedes)
    (h : G.Repairing before above todo rest c (appendedSegments visited made) site)
    (plain : Plain (.block before :: above) site)
    (ran : todo.foldlM (Repair.apply .standard) c site = .ok c' site') :
    G.Repairing before above [] rest c' (appendedSegments visited (todo.reverse ++ made)) site' ∧
      Plain (.block before :: above) site' := by
  induction todo generalizing c made site with
  | nil =>
    cases ran
    exact ⟨h, plain⟩
  | cons fix todo ih =>
    rw [List.foldlM_cons] at ran
    obtain ⟨first, later⟩ := List.pairwise_cons.mp order
    obtain ⟨c₁, site₁, ran₁, ran₂⟩ := VisitM.ok_of_bind ran
    obtain ⟨stmts, kind⟩ := inserts fix List.mem_cons_self
    obtain ⟨parts, repairing, advance⟩ :=
      h.step lawful (anchored fix List.mem_cons_self) first ran₁
    cases appendedSegments_cons distinct kind advance
    rw [List.reverse_cons, List.append_assoc]
    have plain₁ : Plain (.block before :: above) site₁ := by
      rw [Repair.apply_insertAfter kind ran₁]
      exact plain.next _
    exact ih (fun fix mem => anchored fix (List.mem_cons_of_mem _ mem))
      (fun fix mem => inserts fix (List.mem_cons_of_mem _ mem)) later repairing plain₁ ran₂

/-- Taking what waits at a block. -/
theorem take_awaits {adds : List Addition} :
    VisitM.Triple (Awaits adds before above)
      (VisitM.modifyCursor (·.take Note.fixTopic) : PassM Unit _) fun pending site =>
        Plain (.block before :: above) site ∧
          Addition.Waiting adds ((pending.map (·.fixes)).getD []) := by
  refine .modifyCursor fun site h => ?_
  obtain ⟨legible, fixes, waits, waiting⟩ := h
  rcases Cursor.waiting_take waiting with ⟨nothing, rfl, same⟩ | ⟨pending, taken, rfl, left⟩
  · rw [nothing]
    exact ⟨⟨legible.take_fixes, same.trans waiting⟩, waits⟩
  · rw [taken]
    exact ⟨⟨legible.take_fixes, left⟩, waits⟩

/-- A block whose statements became the segments of what waited there. -/
theorem Node.Appended.of_segments {out : Block} {fixes : List PendingFix}
    (olds : visited.map (·.1) = before.stmts)
    (pairs : ∀ p ∈ visited, Node.Appended plan (.block before :: above) (.stmt p.1) (.stmt p.2))
    (waits : Addition.Waiting (plan before ⟨.block before :: above⟩) fixes) (perm : made.Perm fixes)
    (isStatic : out.isStatic = before.isStatic)
    (stmts : out.stmts = (appendedSegments visited made).flatMap (·.2.stmts))
    (kept : fixes = [] → (∀ p ∈ visited, p.2 = p.1) → out = before) :
    Node.Appended plan above (.block before) (.block out) := by
  refine .block (visited.map fun p =>
    ⟨p.1, p.2, (made.filter (·.anchor.same p.1)).flatMap (·.kind.written)⟩) isStatic ?_ ?_ ?_ ?_ ?_
  · rw [← olds, List.map_map]
    rfl
  · rw [stmts, appendedSegments, List.flatMap_map, List.flatMap_map]
    rfl
  · intro p mem
    obtain ⟨q, hq, rfl⟩ := List.mem_map.mp mem
    exact pairs q hq
  · intro p mem
    obtain ⟨q, hq, rfl⟩ := List.mem_map.mp mem
    exact (waits q.1).written (perm.filter _)
  · intro nothing same
    rw [nothing] at waits
    exact kept waits.eq_nil fun p mem => same _ (List.mem_map_of_mem mem)

/-- At the end of the visit of a block, what waits there is written. -/
theorem repair_appends (lawful : G.Lawful) (stands : G.Stands (.block before) above)
    (walked : G.Walked above (.block before) (.block after))
    (below : List.Forall₂ (fun s s' => Node.Appended plan (.block before :: above) (.stmt s) (.stmt s'))
      before.stmts after.stmts)
    (kept : after.stmts = before.stmts → after = before) :
    VisitM.Triple
      (fun site => Awaits (plan before ⟨.block before :: above⟩) before above site ∧
        G.Holds (.block before :: above) (after.parts G.hidden + rest) site)
      (repair .standard before after : PassM Unit Block) fun out site =>
        Plain (.block before :: above) site ∧ Node.Appended plan above (.block before) (.block out) := by
  -- The statements of the block and what became of each.
  have olds : (before.stmts.zip after.stmts).map (·.1) = before.stmts :=
    List.map_fst_zip (Nat.le_of_eq below.length_eq)
  have news : (before.stmts.zip after.stmts).map (·.2) = after.stmts :=
    List.map_snd_zip (Nat.le_of_eq below.length_eq.symm)
  have pairs : ∀ p ∈ before.stmts.zip after.stmts,
      Node.Appended plan (.block before :: above) (.stmt p.1) (.stmt p.2) :=
    fun _ mem => (List.forall₂_iff_zip.mp below).2 mem
  have start : appendedSegments (before.stmts.zip after.stmts) [] = Repair.visited before after := rfl
  have distinct : ((before.stmts.zip after.stmts).map (·.1.id)).Nodup := by
    have ids := stands.distinct_stmts lawful.drawn.distinct
    rwa [← olds, List.map_map] at ids
  have isStatic : after.isStatic = before.isStatic := Node.Label.block.inj walked.label
  have unchanged (same : ∀ p ∈ before.stmts.zip after.stmts, p.2 = p.1) : after = before := by
    refine kept ?_
    rw [← news]
    exact (List.map_congr_left same).trans olds
  unfold repair
  refine ((take_awaits.and (Regime.take_holds (after.parts G.hidden + rest))).mono (fun _ h => h)
    fun _ _ h => h).bind fun pending => ?_
  cases pending with
  | none =>
    refine .pure fun site h => ⟨h.1.1, ?_⟩
    have stmts : after.stmts =
        (appendedSegments (before.stmts.zip after.stmts) []).flatMap (·.2.stmts) := by
      rw [start, Repair.stmts_visited below.length_eq]
    exact .of_segments olds pairs h.1.2 (List.Perm.refl _) isStatic stmts fun _ same => unchanged same
  | some pending =>
    rintro site out site' ⟨⟨plain, waits⟩, allows, holds⟩ ran
    obtain ⟨path, _, ran₁, ran⟩ := VisitM.ok_of_bind ran
    cases ran₁
    obtain ⟨c, site₁, ran, done⟩ := VisitM.ok_of_bind ran
    cases done
    have waits : Addition.Waiting (plan before ⟨.block before :: above⟩) pending.fixes := waits
    have listed {fix : PendingFix} (mem : fix ∈ pending.ordered) : fix ∈ pending.fixes :=
      pending.ordered_perm.mem_iff.mp mem
    have anchored : ∀ fix ∈ pending.ordered, G.Anchored (.block before :: above) fix :=
      fun fix mem => allows.anchored fix (listed mem)
    have loaded : after.parts G.hidden + PendingFix.loadOf G.hidden pending.ordered + rest =
        after.parts G.hidden + rest + PendingFix.loadOf G.hidden pending.fixes := by
      rw [PendingFix.loadOf_perm pending.ordered_perm]
      abel
    have started := Regime.Repairing.start lawful stands walked anchored
      (holds.weaken (le_of_eq loaded)) site.cursor.path
    rw [← start] at started
    obtain ⟨repaired, plain⟩ := appendedSegments_run lawful distinct anchored
      (fun fix mem => waits.inserts (listed mem)) (PendingFixes.ordered_precedes allows.distinct)
      started plain ran
    rw [List.append_nil] at repaired
    refine ⟨plain, .of_segments olds pairs waits ((List.reverse_perm _).trans pending.ordered_perm)
      repaired.isStatic repaired.tracks.stmts fun nothing same => ?_⟩
    have none : pending.ordered = [] := by
      have perm := pending.ordered_perm
      rw [nothing] at perm
      exact perm.eq_nil
    rw [none] at ran
    cases ran
    exact unchanged same

/-! ## The visit of a tree -/

/-- What a descent makes of a node: what became of the children takes their places. -/
structure Node.Descended (plan : Block → Path → List Addition) (above : List Node) (n out : Node) :
    Prop where
  children : List.Forall₂ (Node.Appended plan (n :: above)) n.children out.children
  kept : out.children = n.children → out = n

/-- Settling a node whose children were visited. -/
theorem settle_appends (lawful : G.Lawful) (stands : G.Stands n above) {news : List Node}
    (became : List.Forall₂ (G.Became (n :: above)) n.children news)
    (appended : List.Forall₂ (Node.Appended plan (n :: above)) n.children news) :
    VisitM.Triple (Plain (n :: above)) (Visitor.settle n news : PassM Unit Node) fun out site =>
      Plain (n :: above) site ∧ Node.Descended plan above n out := by
  unfold Visitor.settle
  split
  next all =>
    have back := Node.children_eq_of_same (became.imp fun _ _ h => h.new)
      (fun c hc => lawful.id_lt stands (Node.mem_subtree_of_child hc Node.mem_subtree_self)) all
    exact .pure fun site h => ⟨h, back ▸ appended, fun _ => rfl⟩
  next some =>
    refine .fresh fun site h => ⟨h.next _, ?_⟩
    have refilled := n.refilled_withChildren site.next (became.imp fun _ _ h => h.sort)
    refine ⟨?_, fun same => ?_⟩
    · show List.Forall₂ _ _ (n.withChildren site.next news).children
      rw [refilled.children]
      exact appended
    · have same : (n.withChildren site.next news).children = n.children := same
      rw [refilled.children] at same
      subst same
      refine (some (List.all_eq_true.mpr fun p mem => ?_)).elim
      obtain ⟨i, hi, rfl⟩ := List.mem_iff_getElem.mp mem
      rw [List.getElem_zip]
      exact Node.same_self _

/-- The action appends to a node. -/
def Appends (G : Regime) (plan : Block → Path → List Addition) (n : Node) (above : List Node)
    (action : PassM Unit Node) : Prop :=
  ∀ rest, VisitM.Triple
    (fun site => Plain (n :: above) site ∧ G.Holds (n :: above) (n.parts G.hidden + rest) site)
    action fun out site => (Plain (n :: above) site ∧ Node.Appended plan above n out) ∧
      G.Became above n out ∧ G.Holds (n :: above) (out.parts G.hidden + rest) site

/-- The children `done` of a node have become `outs`. -/
structure AppendedBelow (G : Regime) (plan : Block → Path → List Addition) (path done outs : List Node)
    (site : Site Note Unit) : Prop where
  plain : Plain path site
  appended : List.Forall₂ (Node.Appended plan path) done outs
  became : List.Forall₂ (G.Became path) done outs

/-- Visiting one more child of a node. -/
theorem AppendedBelow.child {child : Node} {visit : PassM Unit Node} {done outs : List Node}
    (appends : Appends G plan child (n :: above) visit) (rest : Multiset Node) :
    VisitM.Triple
      (fun site => AppendedBelow G plan (n :: above) done outs site ∧
        G.Holds (n :: above) (child.parts G.hidden + rest) site)
      (VisitM.inFrame child visit) fun out site =>
        AppendedBelow G plan (n :: above) (done ++ [child]) (outs ++ [out]) site ∧
        G.Holds (n :: above) (out.parts G.hidden + rest) site := by
  rintro site out site' ⟨below, holds⟩ ran
  have framed : VisitM.Triple (· = site) (VisitM.inFrame child visit) fun out site =>
      AppendedBelow G plan (n :: above) (done ++ [child]) (outs ++ [out]) site ∧
        G.Holds (n :: above) (out.parts G.hidden + rest) site := by
    refine .inFrame (appends rest) ?_ ?_
    · rintro _ rfl
      exact ⟨below.plain.push child, holds.push child⟩
    · rintro out inner ⟨⟨plain, appended⟩, became, holds'⟩
      exact ⟨⟨plain.pop, List.rel_append below.appended (.cons appended .nil),
        List.rel_append below.became (.cons became .nil)⟩, holds'.pop⟩
  exact framed rfl ran

/-- Visiting all the children of a node. -/
theorem descend_appends (lawful : G.Lawful) (stands : G.Stands n above) {visit : Node → PassM Unit Node}
    (below : ∀ c ∈ n.children, Appends G plan c (n :: above) (visit c)) (rest : Multiset Node) :
    VisitM.Triple
      (fun site => Plain (n :: above) site ∧ G.Holds (n :: above) (n.parts G.hidden + rest) site)
      (n.children.mapM (fun c => VisitM.inFrame c (visit c)) >>= Visitor.settle n) fun out site =>
        (Plain (n :: above) site ∧ Node.Descended plan above n out) ∧
        G.Walked above n out ∧ G.Holds (n :: above) (out.parts G.hidden + rest) site := by
  obtain ⟨own, parts⟩ : ∃ own, n.parts G.hidden = own + Node.partsOf G.hidden n.children :=
    ⟨_, n.parts_eq⟩
  refine (VisitM.Triple.mono (Regime.children_hold (AppendedBelow G plan (n :: above)) rest parts
    fun done c todo outs rest split => AppendedBelow.child ?_ rest) ?_ fun _ _ h => h).bind fun news => ?_
  · exact below c (split ▸ List.mem_append_right _ List.mem_cons_self)
  · exact fun site h => ⟨⟨h.1, .nil, .nil⟩, h.2⟩
  · rintro site out site' ⟨visited, holds⟩ ran
    exact ⟨settle_appends lawful stands visited.became visited.appended visited.plain ran,
      Regime.settle_makes lawful stands visited.became parts rest holds ran⟩

/-- A node other than a block, after the descent. -/
theorem Node.Descended.appended {out : Node} (h : Node.Descended plan above n out)
    (label : out.label = n.label) (open_ : n.block? = none) : Node.Appended plan above n out := by
  refine .around open_ (n.children.zip out.children) label ?_ ?_ ?_ h.kept
  · exact (List.map_fst_zip (Nat.le_of_eq h.children.length_eq)).symm
  · exact (List.map_snd_zip (Nat.le_of_eq h.children.length_eq.symm)).symm
  · exact fun p mem => (List.forall₂_iff_zip.mp h.children).2 mem

/-- The statements of a block after the descent. -/
theorem Node.Descended.stmts (h : Node.Descended plan above (.block before) (.block after)) :
    List.Forall₂ (fun s s' => Node.Appended plan (.block before :: above) (.stmt s) (.stmt s'))
      before.stmts after.stmts := by
  have children : List.Forall₂ (Node.Appended plan (.block before :: above))
    (before.stmts.map .stmt) (after.stmts.map .stmt) := h.children
  rwa [List.forall₂_map_left_iff, List.forall₂_map_right_iff] at children

/-- The visit of a tree appends to it. -/
theorem Remedy.Appends.run {remedy : Remedy Unit} (appends : remedy.Appends plan) (lawful : G.Lawful)
    (notes : G.Notes remedy) {env : PassEnv} (standard : env.splicer = .standard) (n : Node)
    (above : List Node) (stands : G.Stands n above) :
    JavaMend.Appends G plan n above ((remedy.visitor env).run n) := by
  intro rest
  rw [Visitor.run_eq]
  unfold Remedy.visitor
  dsimp only
  rw [appends.enter, pure_bind, if_pos rfl]
  refine (descend_appends lawful stands (fun c hc => appends.run lawful notes standard c (n :: above)
    (stands.child hc)) rest).bind fun walked => ?_
  split
  next before after =>
    rintro site out site' ⟨⟨plain, descended⟩, made, holds⟩ ran
    obtain ⟨_, site₁, left, ran⟩ := VisitM.ok_of_bind ran
    rw [standard] at ran
    obtain ⟨block, _, repaired, done⟩ := VisitM.ok_of_bind ran
    cases done
    have holds₁ := notes.leave before above stands _ holds left
    have awaits : Awaits (plan before ⟨.block before :: above⟩) before above site₁ := by
      rw [appends.leave] at left
      obtain ⟨path, _, ran₁, noted⟩ := VisitM.ok_of_bind left
      cases ran₁
      rw [holds.outward] at noted
      exact Addition.notes_await (appends.anchors before above) plain.awaits noted
    obtain ⟨plain', appended⟩ := repair_appends lawful stands made descended.stmts
      (fun same => Node.block.inj (descended.kept (congrArg (List.map Node.stmt) same)))
      ⟨awaits, holds₁⟩ repaired
    exact ⟨⟨plain', appended⟩, Regime.repair_mends lawful stands made rest holds₁ repaired⟩
  next unblocked =>
    refine .pure fun site h => ?_
    obtain ⟨⟨plain, descended⟩, made, holds⟩ := h
    refine ⟨⟨plain, descended.appended made.label ?_⟩, made.became, holds⟩
    cases n with
    | block before =>
      have sort := made.became.sort
      cases walked with
      | block after => exact (unblocked before after rfl rfl).elim
      | _ => cases sort
    | _ => rfl
termination_by sizeOf n
decreasing_by exact Node.sizeOf_lt_of_mem_children hc

/-! ## Passes -/

/-- The pass of a remedy that appends: what it makes of a unit, but for imports. -/
theorem Remedy.Appends.pass {remedy : Remedy Unit} (appends : remedy.Appends plan)
    {unit : CompilationUnit} (lawful : G.Lawful) (notes : G.Notes remedy) {env : PassEnv}
    (standard : env.splicer = .standard) (tree : (Node.unit unit).parts (fun _ => false) = G.tree)
    {out : PassResult} {used : NodeId}
    (ran : (remedy.visitor env).pass () unit G.mark = (.ok out, used)) :
    ∃ changed : CompilationUnit, Node.Appended plan [] (.unit unit) (.unit changed) ∧
      out.unit.classes = changed.classes ∧ (changed = unit → out.unit = unit) := by
  unfold Visitor.pass Visitor.runTree at ran
  split at ran
  next => cases ran
  next node site ended =>
    obtain ⟨⟨-, appended⟩, became, -⟩ := appends.run lawful notes standard _ _
      (Regime.stands_root tree) 0 ⟨plain_root unit G.mark, Regime.holds_root tree ()⟩ ended
    dsimp only at ran
    split at ran
    next changed =>
      refine ⟨changed, appended, ?_⟩
      split at ran
      next same =>
        cases ran
        exact ⟨rfl, id⟩
      next differs =>
        cases ran
        refine ⟨Regime.classes_apply _ _ _, fun same => ?_⟩
        rw [same] at differs
        exact (differs rfl).elim
    next other =>
      have sort := became.sort
      cases node with
      | unit changed => exact (other changed rfl).elim
      | _ => cases sort

end

end JavaMend
