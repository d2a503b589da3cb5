import JavaMend.Proofs.Remedy.Notes
import JavaMend.Proofs.RandomStrings.Repairing
import JavaMend.Proofs.TempFiles.Noting

/-!
# The visit of a tree

On its way down the remedy notes the calls that give way (`RandomString.enter_notes`). On
its way up it notes new members at the body of each class that lacks a generator
(`RandomString.leave_notes`). So the visit turns the tree (`RandomString.run_sweeps`,
`RandomString.pass_turns`).
-/

namespace JavaMend

/-- A fix for a statement of the current block is noted there. -/
theorem Cursor.noteFix_here {c : Cursor Note} {b : Block} {fixes : List PendingFix}
    {outer : List (Node × List PendingFix)} {fix : PendingFix} (legible : c.Legible)
    (waiting : c.waiting = (.block b, fixes) :: outer) (mem : fix.anchor ∈ b.stmts) :
    (c.noteFix fix).1 = true ∧ (c.noteFix fix).2.Legible ∧
      (c.noteFix fix).2.waiting = (.block b, (PendingFixes.add ⟨fixes⟩ fix).fixes) :: outer := by
  refine ⟨?_, legible.noteFix fix, ?_⟩
  · obtain ⟨f, frames, split, at_, -⟩ := List.map_eq_cons_iff.mp waiting
    obtain ⟨node, -⟩ := Prod.mk.inj at_
    have outward : c.path = ⟨[] ++ .block b :: frames.map (·.node)⟩ := by
      unfold path
      rw [split, List.map_cons, node]
      rfl
    have holder : (c.path.nearest? fun n => n.block?.bind (·.position? fix.anchor)).map (·.1) =
        some frames.length := by
      rw [outward, nearest?_position (fun _ none => (List.not_mem_nil none).elim) mem, List.length_map]
    have readable := (legible f (split ▸ List.mem_cons_self)).1
    unfold noteFix
    dsimp only
    rw [holder, Option.some_or]
    dsimp only
    unfold modifyAt
    rw [atFrame_of_split (show c.frames = [] ++ f :: frames from split)]
    unfold Frame.modify
    split
    next => rfl
    next note found =>
      obtain ⟨value, read⟩ := Option.isSome_iff_exists.mp (readable note found)
      rw [read]
      rfl
  · have split : c.waiting = [] ++ (.block b, fixes) :: outer := waiting
    refine (waiting_noteFix split (fun _ none => (List.not_mem_nil none).elim) mem).resolve_left ?_
    rintro ⟨-, f, hf, illegible⟩
    exact illegible (legible f hf).1

namespace RandomString

open Rewriting (Noted Grown nearestFixes)

/-- The nearest class that a path leads through. -/
theorem enclosing_eq (e : Expr) (above : List Node) :
    ((⟨.expr e :: above⟩ : Path).enclosing? .cls).bind (·.2.class?) = turning.place above := by
  have isClass (n : Node) : n.kind = .cls ↔ n.class?.isSome = true := by
    cases n with
    | stmt s =>
      obtain ⟨id, form⟩ := s
      cases form <;> simp [Node.kind, Node.class?]
    | _ => simp [Node.kind, Node.class?]
  rw [place_eq]
  unfold Path.enclosing? Path.nearest?
  rw [Path.nearest?.go, if_neg (by simp [Node.kind])]
  induction above with
  | nil => rfl
  | cons n above ih =>
    rw [Path.nearest?.go, List.findSome?_cons]
    cases here : n.class? with
    | none =>
      rw [if_neg (by simp [isClass, here])]
      exact ih
    | some c =>
      rw [if_pos (by simp [isClass, here])]
      exact here

variable {unit : CompilationUnit} {mark : NodeId} {n : Node} {e : Expr} {b : Block}
  {above : List Node} {p : Option (ClassHead × Block)} {hand : Multiset Node}
  {ws : List (Node × List PendingFix)} {site : Site Note Unit} {env : PassEnv}

/-! ## What is known between two steps -/

theorem Order.next (h : Order ws site) (next : NodeId) : Order ws { site with next } :=
  ⟨h.legible, h.grown, h.replaces⟩

theorem Order.push (h : Order ws site) (c : Node) :
    Order ((c, []) :: site.cursor.waiting) { site with cursor := site.cursor.push c } := by
  refine ⟨h.legible.push c, ?_, ?_⟩ <;> dsimp only <;> rw [Cursor.waiting_push]
  · exact Grown.refl _
  · exact List.forall_mem_cons.mpr ⟨fun fix none => (List.not_mem_nil none).elim, h.replaces⟩

theorem Order.pop {q : Node × List PendingFix} (h : Order (q :: ws) site) :
    Order ws { site with cursor := site.cursor.pop } := by
  refine ⟨h.legible.pop, ?_, ?_⟩ <;> dsimp only <;> rw [Cursor.waiting_pop]
  · exact h.grown.tail
  · exact fun p mem => h.replaces p (List.mem_of_mem_tail mem)

/-- A replacement that is noted waits at the nearest block. -/
theorem Order.noteFix (h : Order ws site) {front back : List (Node × List PendingFix)}
    {fixes : List PendingFix} {fix : PendingFix}
    (waiting : site.cursor.waiting = front ++ (.block b, fixes) :: back)
    (open_ : ∀ q ∈ front, q.1.block? = none) (member : fix.anchor ∈ b.stmts)
    (replaces : fix.kind.tag = .replace) :
    Order ws { site with cursor := (site.cursor.noteFix fix).2 } ∧
      fix ∈ nearestFixes (site.cursor.noteFix fix).2.waiting := by
  have noted := (Cursor.waiting_noteFix waiting open_ member).resolve_left
    fun ⟨_, f, hf, illegible⟩ => illegible (h.legible f hf).1
  have added : ∀ fix' ∈ (PendingFixes.add ⟨fixes⟩ fix).fixes, fix'.kind.tag = .replace := by
    intro fix' mem
    rcases List.mem_append.mp mem with mem | mem
    · refine h.replaces (.block b, fixes) ?_ fix' (List.mem_filter.mp mem).1
      rw [waiting]
      exact List.mem_append_right _ List.mem_cons_self
    · cases List.mem_singleton.mp mem
      exact replaces
  have plain := h.replaces
  rw [waiting] at plain
  refine ⟨⟨h.legible.noteFix _, ?_, ?_⟩, ?_⟩
  · refine h.grown.trans ?_
    dsimp only
    rw [noted, waiting]
    exact Rewriting.grown_add
  · dsimp only
    rw [noted]
    intro q mem
    rcases List.mem_append.mp mem with mem | mem
    · exact plain q (List.mem_append_left _ mem)
    · rcases List.mem_cons.mp mem with rfl | mem
      · exact added
      · exact plain q (List.mem_append_right _ (List.mem_cons_of_mem _ mem))
  · rw [noted]
    clear noted waiting plain
    induction front with
    | nil => exact List.mem_append_right _ List.mem_cons_self
    | cons q front ih =>
      rw [List.cons_append, Rewriting.nearestFixes_open (open_ q List.mem_cons_self)]
      exact ih fun r hr => open_ r (List.mem_cons_of_mem _ hr)

/-! ## The way down -/

/-- Outside of all blocks nothing gives way in a class that is done. -/
theorem undone_of_outermost (h : turning.Outermost e p n) : ∃ c, p = some c ∧ isDone c.2 = false := by
  induction h with
  | here gives => exact (gives_iff.mp gives).2
  | under other open_ mem inner ih =>
    rcases outermost_iff.mp (.under other open_ mem inner) with ⟨-, gives⟩ | ⟨-, -, noClass, -⟩
    · exact (gives_iff.mp gives).2
    · rwa [inside_of_noClass noClass] at ih

/-- In a call that gives way nothing else does. -/
theorem eq_of_outermost {e' : Expr} (gives : turning.gives p e = true)
    (h : turning.Outermost e' p (.expr e)) : e' = e := by
  rcases outermost_iff.mp h with ⟨at_, -⟩ | ⟨other, -⟩
  · exact (Node.expr.inj at_).symm
  · cases gives.symm.trans other

/-- A call that gives way is noted where the visit comes to it. -/
theorem replaceHere_notes (comes : turning.Comes False unit mark (.expr e) above)
    (gives : turning.gives (turning.place above) e = true) (owner : Ty) :
    VisitM.Triple
      (fun site => Order ws site ∧ (ledger unit mark).Holds (.expr e :: above) hand site)
      (do PassM.replaceHere e (← VisitM.fresh
        (Expr.mkLocalCall (.static owner methodName [] .string) [])) [] : PassM Unit Unit)
      fun _ site => (Order ws site ∧ (ledger unit mark).Holds (.expr e :: above) hand site) ∧
        Noted (nearestFixes site.cursor.waiting) e.id := by
  obtain ⟨anchor, front, b, up, found, rfl, open_, member, own⟩ :=
    comes.anchored (comes.free.resolve_left id) gives
  have blockless : ∀ k ∈ Node.expr e :: front, k.block? = none := by
    intro k mem
    rcases List.mem_cons.mp mem with rfl | mem
    · rfl
    · exact open_ k mem
  rintro site _ site' ⟨order, holds⟩ ran
  obtain ⟨new, site₁, ran₁, ran⟩ := VisitM.ok_of_bind ran
  obtain ⟨-, extra, -, paid, holds₁⟩ := Regime.fresh_holds
    ((Expr.mkLocalCall_spends (fun _ => false) (.static owner methodName [] .string) []).of_le
      (Multiset.zero_le ((Node.expr e).parts fun _ => false))) holds ran₁
  obtain ⟨used, made, rfl⟩ := VisitM.ok_of_fresh ran₁
  have made : new = (Expr.mkLocalCall (.static owner methodName [] .string) [] site.next).1 := by
    rw [made]
  have late : mark ≤ new.id := by
    rw [made]
    exact holds.owns.le
  have fits : Replaces mark (.block b :: up) ⟨anchor, e, none, .replace new []⟩ :=
    ⟨⟨new, rfl, ⟨owner, site.next, made⟩, late⟩, own⟩
  have near : ∀ anchor', (⟨.expr e :: (front ++ .block b :: up)⟩ : Path).anchor? = some anchor' →
      (ledger unit mark).FitsNear (.expr e :: (front ++ .block b :: up))
        ⟨anchor', e, none, .replace new []⟩ := by
    intro anchor' found' front' b' up' split open_' _
    cases found.symm.trans found'
    obtain ⟨-, rfl, rfl⟩ := Path.nearest_unique
      (show (Node.expr e :: front) ++ .block b :: up = front' ++ .block b' :: up' from split)
      blockless open_'
    exact fits
  have stands : (ledger unit mark).Stands (.expr e) (front ++ .block b :: up) :=
    ⟨comes.stands.genuine, comes.stands.parts, comes.stands.body⟩
  have keeps : (ledger unit mark).Holds (.expr e :: (front ++ .block b :: up)) hand site' :=
    Regime.replaceHere_holds stands (fun _ => rfl) e.mem_subterms_self paid near holds₁ ran
  unfold PassM.replaceHere at ran
  obtain ⟨_, _, ran₂, ran⟩ := VisitM.ok_of_bind ran
  cases ran₂
  simp only [holds₁.outward, found] at ran
  obtain ⟨_, _, ran₃, ran⟩ := VisitM.ok_of_bind ran
  cases ran₃
  cases ran
  obtain ⟨inside, tail, waiting, nodes, tails⟩ := List.map_eq_append_iff.mp
    (show site.cursor.waiting.map (·.1) = (Node.expr e :: front) ++ .block b :: up from holds.path)
  obtain ⟨⟨_, fixes⟩, back, rfl, rfl, rfl⟩ := List.map_eq_cons_iff.mp tails
  have replaces : (⟨anchor, e, none, .replace new []⟩ : PendingFix).kind.tag = .replace := rfl
  obtain ⟨order', noted⟩ := (order.next used).noteFix waiting
    (fun q mem => blockless q.1 (nodes ▸ List.mem_map_of_mem mem))
    member replaces
  exact ⟨⟨order', keeps⟩, _, noted, rfl, rfl⟩

/-- Where the visit comes to a call that draws, what gives way in it is noted. -/
theorem replaceCall_notes (comes : turning.Comes False unit mark (.expr e) above)
    (draw : draws e = true) :
    VisitM.Triple
      (fun site => Order ws site ∧ (ledger unit mark).Holds (.expr e :: above) hand site)
      (replaceCall e) fun _ site =>
        (Order ws site ∧ (ledger unit mark).Holds (.expr e :: above) hand site) ∧
        ∀ e', turning.Outermost e' (turning.place above) (.expr e) →
          Noted (nearestFixes site.cursor.waiting) e'.id := by
  rintro site _ site' ⟨order, holds⟩ ran
  unfold replaceCall at ran
  obtain ⟨path, _, ran₁, ran⟩ := VisitM.ok_of_bind ran
  cases ran₁
  simp only [holds.outward, enclosing_eq] at ran
  cases around : turning.place above with
  | none =>
    rw [around] at ran
    cases ran
    refine ⟨⟨order, holds⟩, fun e' h => ?_⟩
    obtain ⟨c, none, -⟩ := undone_of_outermost h
    cases none
  | some c =>
    obtain ⟨head, body⟩ := c
    rw [around] at ran
    dsimp only at ran
    cases done : isDone body with
    | true =>
      rw [if_pos (show (loneField? body generatorField).isSome = true from done)] at ran
      cases ran
      refine ⟨⟨order, holds⟩, fun e' h => ?_⟩
      obtain ⟨c, at_, undone⟩ := undone_of_outermost h
      cases at_
      cases done.symm.trans undone
    | false =>
      have undone : ¬ (loneField? body generatorField).isSome = true := by
        rw [show (loneField? body generatorField).isSome = false from done]
        exact Bool.false_ne_true
      rw [if_neg undone] at ran
      have gives : turning.gives (turning.place above) e = true :=
        gives_iff.mpr ⟨draw, _, around, done⟩
      obtain ⟨kept, noted⟩ := replaceHere_notes comes gives head.ty ⟨order, holds⟩ ran
      refine ⟨kept, fun e' h => ?_⟩
      rw [around] at gives
      rwa [eq_of_outermost gives h]

/-- On its way down the visit notes what gives way outside of inner blocks, and goes on
below all else. -/
theorem enter_notes (matcher : env.matcher = .standard)
    (comes : turning.Comes False unit mark n above) :
    VisitM.Triple (fun site => Order ws site ∧ (ledger unit mark).Holds (n :: above) hand site)
      ((remedy env).enter n) fun goOn site =>
        (Order ws site ∧ (ledger unit mark).Holds (n :: above) hand site) ∧
        if goOn then turning.isGiven (turning.place above) n = false
        else ∃ e, n = .expr e ∧ ∀ e', turning.Outermost e' (turning.place above) (.expr e) →
          Noted (nearestFixes site.cursor.waiting) e'.id := by
  cases n with
  | expr e =>
    unfold remedy
    dsimp only
    rw [matcher]
    cases draw : draws e with
    | false =>
      have here : CallMatcher.standard.acceptsAny e drawing = false := draw
      rw [here, if_neg Bool.false_ne_true]
      refine .pure fun site h => ⟨h, ?_⟩
      show (draws e && _) = false
      rw [draw]
      rfl
    | true =>
      have here : CallMatcher.standard.acceptsAny e drawing = true := draw
      rw [here, if_pos rfl]
      exact (replaceCall_notes comes draw).bind fun _ => .pure fun site h => ⟨h.1, e, rfl, h.2⟩
  | _ => exact .pure fun site h => ⟨h, rfl⟩

/-! ## The way up -/

/-- Fixes for new members are being noted at the end of the visit of a block. -/
structure Joining (mark : NodeId) (b : Block) (olds added : List PendingFix)
    (outer : List (Node × List PendingFix)) (site : Site Note Unit) : Prop where
  legible : site.cursor.Legible
  late : mark ≤ site.next
  waiting : site.cursor.waiting = (.block b, olds ++ added) :: outer

section

variable {olds added : List PendingFix} {outer : List (Node × List PendingFix)} {fix : PendingFix}
  {owner : Ty}

theorem fresh_joining {α : Type} {make : Fresh α} {parts : α → Multiset Node}
    (spends : make.Spends 0 parts) :
    VisitM.Triple (Joining mark b olds added outer) (VisitM.fresh make : PassM Unit α)
      fun a site => (∃ next, mark ≤ next ∧ a = (make next).1) ∧ Joining mark b olds added outer site := by
  refine .fresh fun site h => ⟨⟨site.next, h.late, rfl⟩, h.legible, ?_, h.waiting⟩
  obtain ⟨new, drawn, -⟩ := spends site.next
  exact Nat.le_trans h.late drawn.le

/-- Noting one more fix. -/
theorem noteFix_joining (member : fix.anchor ∈ b.stmts)
    (apart : ∀ other ∈ olds ++ added, other.kind.tag ≠ fix.kind.tag) :
    VisitM.Triple (Joining mark b olds added outer) (PassM.noteFix fix : PassM Unit Bool)
      fun noted site => noted = true ∧ Joining mark b olds (added ++ [fix]) outer site := by
  refine .modifyCursor fun site h => ?_
  obtain ⟨noted, legible, waiting⟩ := Cursor.noteFix_here h.legible h.waiting member
  refine ⟨noted, legible, h.late, waiting.trans ?_⟩
  have kept : (olds ++ added).filter (!fix.supersedes ·) = olds ++ added := by
    refine List.filter_eq_self.mpr fun other mem => ?_
    have differ : (fix.kind.tag == other.kind.tag) = false :=
      beq_eq_false_iff_ne.mpr (apart other mem).symm
    unfold PendingFix.supersedes
    rw [differ, Bool.and_false, Bool.false_and]
    rfl
  unfold PendingFixes.add
  rw [kept, List.append_assoc]

theorem requestImports_joining (fqns : List String) :
    VisitM.Triple (Joining mark b olds added outer) (PassM.requestImports fqns : PassM Unit Unit)
      fun _ => Joining mark b olds added outer :=
  .modifyCursor fun site h =>
    ⟨h.legible.requestImports fqns, h.late, (site.cursor.waiting_requestImports fqns).trans h.waiting⟩

/-- At the body of a class that gets a generator, the fixes for its members are noted. -/
theorem addMembers_notes (matcher : env.matcher = .standard)
    (owns : (⟨.block b :: above⟩ : Path).bodyOwner? = some owner)
    (replaces : ∀ fix ∈ olds, fix.kind.tag = .replace) :
    VisitM.Triple (Joining mark b olds [] outer) (addMembers env b owner) fun _ site =>
      ∃ added front back, Joins mark above b added front back ∧
        Joining mark b olds added outer site := by
  have stays (h : lacksGenerator b = false) : newOwner? above b = none := by
    unfold newOwner?
    rw [h, if_neg Bool.false_ne_true]
  unfold addMembers
  split
  next done =>
    refine .pure fun site h => ⟨[], [], [], .none (stays ?_), h⟩
    unfold lacksGenerator isDone
    rw [done]
    rfl
  next undone =>
    have path : VisitM.Triple (Joining mark b olds [] outer) (VisitM.path : PassM Unit Path)
        fun path site => drawsIn .standard path b = drawsOf b ∧ Joining mark b olds [] outer site := by
      refine .path fun site h => ⟨drawsIn_eq ?_, h⟩
      unfold Path.value?
      rw [Cursor.outward_path, h.waiting]
      rfl
    refine path.bind fun path => .assuming fun same => ?_
    dsimp only
    rw [matcher, same]
    split
    next call _ first last calls head tail =>
      have joins : newOwner? above b = some owner := by
        unfold newOwner? lacksGenerator isDone
        rw [Bool.not_eq_true] at undone
        rw [calls, undone, owns]
        rfl
      have firstMem : first ∈ b.stmts := List.mem_of_mem_head? head
      have lastMem : last ∈ b.stmts := List.mem_of_getLast? tail
      have apart {added : List PendingFix} {tag : FixTag} (other : tag ≠ .replace)
          (more : ∀ fix ∈ added, fix.kind.tag ≠ tag) : ∀ fix ∈ olds ++ added, fix.kind.tag ≠ tag := by
        intro fix mem
        rcases List.mem_append.mp mem with mem | mem
        · rw [replaces fix mem]
          exact other.symm
        · exact more fix mem
      rw [← bind_assoc]
      refine VisitM.Triple.bind (show VisitM.Triple _ _ fun noted site => noted = true ∧
        ∃ next, mark ≤ next ∧ Joining mark b olds
          [⟨first, call, none, .insertBefore (mkHead owner next).1⟩] outer site from ?_) ?_
      · refine (fresh_joining (mkHead_spends (fun _ => false) owner)).bind fun stmts => .assuming ?_
        rintro ⟨next, early, rfl⟩
        refine (noteFix_joining firstMem (apart FixTag.noConfusion fun _ none => ?_)).mono
          (fun _ h => h) fun noted site h => ⟨h.1, next, early, h.2⟩
        cases none
      refine fun noted => .assuming fun ok => .naming fun next => .assuming fun early => ?_
      rw [if_pos ok, ← bind_assoc]
      refine VisitM.Triple.bind (show VisitM.Triple _ _ fun _ site => ∃ next', mark ≤ next' ∧
        Joining mark b olds [⟨first, call, none, .insertBefore (mkHead owner next).1⟩,
          ⟨last, call, none, .insertAfter [(mkMethod owner (utilsFor (drawsOf b)) next').1]⟩]
          outer site from ?_) ?_
      · rw [calls]
        refine (fresh_joining (mkMethod_spends (fun _ => false) owner _)).bind fun method => .assuming ?_
        rintro ⟨next', late, rfl⟩
        refine (noteFix_joining lastMem (apart FixTag.noConfusion fun fix mem => ?_)).mono
          (fun _ h => h) fun noted site h => ⟨next', late, h.2⟩
        cases List.mem_singleton.mp mem
        exact FixTag.noConfusion
      refine fun _ => .naming fun next' => .assuming fun late => ?_
      have made := Joins.some call joins head tail early late
      split
      next existing found =>
        have member : existing ∈ b.stmts := by
          unfold loneField? at found
          exact List.mem_of_find?_eq_some found
        rw [found] at made
        refine (noteFix_joining member (apart FixTag.noConfusion fun fix mem => ?_)).bind fun _ => ?_
        · rcases List.mem_cons.mp mem with rfl | mem
          · exact FixTag.noConfusion
          · cases List.mem_singleton.mp mem
            exact FixTag.noConfusion
        · exact (requestImports_joining _).mono (fun _ h => h.2) fun _ _ h => ⟨_, _, _, made, h⟩
      next found =>
        rw [found] at made
        exact (requestImports_joining _).mono (fun _ h => h) fun _ _ h => ⟨_, _, _, made, h⟩
    next none =>
      refine .pure fun site h => ⟨[], [], [], .none (stays ?_), h⟩
      unfold lacksGenerator
      cases calls : drawsOf b with
      | nil => simp
      | cons call rest =>
        cases stmts : b.stmts with
        | nil =>
          unfold drawsOf evaluated at calls
          rw [stmts] at calls
          cases calls
        | cons s rest' =>
          refine (none call rest s (b.stmts.getLast (by simp [stmts])) calls ?_ ?_).elim
          · rw [stmts]
            rfl
          · exact List.getLast?_eq_some_getLast _

end

theorem leave_keeps :
    (ledger unit mark).Keeps (.block b :: above) ((remedy env).leave b) := by
  intro hand
  refine Regime.path_holds.bind fun path => .assuming ?_
  rintro rfl
  split
  next owner owns =>
    exact addMembers_keeps (fun _ _ _ h => by cases h) (fun _ _ _ _ h => by cases h)
      (fun _ _ h => by cases h) hand
  next => exact Regime.pure_keeps _ _

/-- Leaving a block, all the calls in it wait there, and the members of a class that gets a
generator join them. -/
theorem leave_notes (matcher : env.matcher = .standard) :
    VisitM.Triple
      (fun site => (Order ((.block b, []) :: ws) site ∧ ∀ s ∈ b.stmts, ∀ e,
          turning.Outermost e (turning.place (.block b :: above)) (.stmt s) →
            Noted (nearestFixes site.cursor.waiting) e.id) ∧
        (ledger unit mark).Holds (.block b :: above) hand site)
      ((remedy env).leave b) fun _ site =>
        Leaving mark above b ws site ∧ (ledger unit mark).Holds (.block b :: above) hand site := by
  rintro site _ site' ⟨⟨order, noted⟩, holds⟩ ran
  refine ⟨?_, leave_keeps hand holds ran⟩
  obtain ⟨⟨_, olds⟩, outer, waiting, rfl, -⟩ := List.map_eq_cons_iff.mp holds.path
  have grown := order.grown.tail
  have replaces := order.replaces
  rw [waiting] at noted grown replaces
  have leaving {added : List PendingFix} {front back : List Stmt} {site : Site Note Unit}
      (joins : Joins mark above b added front back) (h : Joining mark b olds added outer site) :
      Leaving mark above b ws site :=
    ⟨h.legible, olds, added, front, back, outer, h.waiting, joins, replaces _ List.mem_cons_self, noted,
      grown, fun p mem => replaces p (List.mem_cons_of_mem _ mem)⟩
  have start : Joining mark b olds [] outer site := by
    refine ⟨order.legible, holds.owns.le, ?_⟩
    rw [List.append_nil]
    exact waiting
  unfold remedy at ran
  dsimp only at ran
  obtain ⟨path, _, ran₁, ran⟩ := VisitM.ok_of_bind ran
  cases ran₁
  simp only [holds.outward] at ran
  cases owns : (⟨.block b :: above⟩ : Path).bodyOwner? with
  | some owner =>
    rw [owns] at ran
    obtain ⟨added, front, back, joins, joining⟩ :=
      addMembers_notes matcher owns (replaces _ List.mem_cons_self) start ran
    exact leaving joins joining
  | none =>
    rw [owns] at ran
    cases ran
    refine leaving (.none ?_) start
    unfold newOwner?
    rw [owns, ite_self]

/-! ## The visit of a tree -/

/-- What gives way in the node outside of inner blocks waits. -/
def AllNoted (above : List Node) (waiting : List (Node × List PendingFix)) (n : Node) : Prop :=
  ∀ e, turning.Outermost e (turning.place above) n → Noted (nearestFixes waiting) e.id

/-- The children `done` of a node have become `outs`. -/
structure Visited (unit : CompilationUnit) (mark : NodeId) (path : List Node)
    (ws : List (Node × List PendingFix)) (done outs : List Node) (site : Site Note Unit) : Prop where
  order : Order ws site
  swept : List.Forall₂ (Swept mark path) done outs
  noted : ∀ c ∈ done, AllNoted path site.cursor.waiting c
  became : List.Forall₂ ((ledger unit mark).Became path) done outs

/-- The action turns the blocks in a node and notes all else. -/
def Sweeps (unit : CompilationUnit) (mark : NodeId) (n : Node) (above : List Node)
    (action : PassM Unit Node) : Prop :=
  ∀ ws rest, VisitM.Triple
    (fun site => Order ((n, []) :: ws) site ∧
      (ledger unit mark).Holds (n :: above) (n.parts (fun _ => false) + rest) site)
    action fun out site =>
      (Order ((n, []) :: ws) site ∧ Swept mark above n out ∧
        AllNoted above site.cursor.waiting.tail n) ∧
      (ledger unit mark).Became above n out ∧
      (ledger unit mark).Holds (n :: above) (out.parts (fun _ => false) + rest) site

/-- Visiting one more child of a node. -/
theorem Visited.child {c : Node} {visit : PassM Unit Node} {done outs : List Node}
    (sweeps : Sweeps unit mark c (n :: above) visit) (rest : Multiset Node) :
    VisitM.Triple
      (fun site => Visited unit mark (n :: above) ws done outs site ∧
        (ledger unit mark).Holds (n :: above) (c.parts (fun _ => false) + rest) site)
      (VisitM.inFrame c visit) fun out site =>
        Visited unit mark (n :: above) ws (done ++ [c]) (outs ++ [out]) site ∧
        (ledger unit mark).Holds (n :: above) (out.parts (fun _ => false) + rest) site := by
  rintro site out site' ⟨visited, holds⟩ ran
  -- The visit of the child only adds to what waits at this site.
  have framed : VisitM.Triple (· = site) (VisitM.inFrame c visit) fun out site =>
      Visited unit mark (n :: above) ws (done ++ [c]) (outs ++ [out]) site ∧
      (ledger unit mark).Holds (n :: above) (out.parts (fun _ => false) + rest) site := by
    refine .inFrame (sweeps site.cursor.waiting rest) ?_ ?_
    · rintro _ rfl
      exact ⟨visited.order.push c, holds.push c⟩
    · rintro out inner ⟨⟨order, swept, noted⟩, became, holds'⟩
      have popped := order.pop
      have waiting : inner.cursor.pop.waiting = inner.cursor.waiting.tail := inner.cursor.waiting_pop
      refine ⟨⟨⟨popped.legible, visited.order.grown.trans popped.grown, popped.replaces⟩,
        List.rel_append visited.swept (.cons swept .nil), fun d mem e outermost => ?_,
        List.rel_append visited.became (.cons became .nil)⟩, holds'.pop⟩
      rcases List.mem_append.mp mem with mem | mem
      · exact popped.grown.noted (visited.noted d mem e outermost)
      · cases List.mem_singleton.mp mem
        dsimp only
        rw [waiting]
        exact noted e outermost
  exact framed rfl ran

/-- Settling a node whose children are swept. -/
theorem settle_sweeps (stands : (ledger unit mark).Stands n above)
    (distinct : ((Node.unit unit).subtree.map Node.id).Nodup)
    (old : ∀ n ∈ (Node.unit unit).subtree, n.id < mark) {news : List Node} :
    VisitM.Triple
      (fun site => Visited unit mark (n :: above) ws n.children news site ∧
        (ledger unit mark).Holds (n :: above) hand site)
      (Visitor.settle n news : PassM Unit Node) fun out site =>
        Visited unit mark (n :: above) ws n.children out.children site ∧
        (out = n ∨ mark ≤ out.id ∧ turning.Acts (turning.place above) n) := by
  unfold Visitor.settle
  split
  next all =>
    refine .pure fun site h => ?_
    obtain ⟨visited, -⟩ := h
    have back := Node.children_eq_of_same (visited.became.imp fun _ _ h => h.new)
      (fun c hc => (ledger_lawful distinct old).id_lt stands
        (Node.mem_subtree_of_child hc Node.mem_subtree_self)) all
    exact ⟨back ▸ visited, .inl rfl⟩
  next some =>
    refine .fresh fun site h => ?_
    obtain ⟨visited, holds⟩ := h
    have refilled := n.refilled_withChildren site.next (visited.swept.imp fun _ _ h => h.sameSort)
    rw [← refilled.children] at visited
    refine ⟨⟨visited.order.next _, visited.swept, visited.noted, visited.became⟩, .inr ⟨?_, ?_⟩⟩
    · exact Nat.le_trans holds.owns.le (Nat.le_of_eq (n.id_withChildren site.next news).symm)
    · -- A child has changed, and something gives way in it.
      by_contra nothing
      refine some (List.all_eq_true.mpr ?_)
      rintro ⟨c, c'⟩ mem
      rw [← refilled.children] at mem
      have new := ((List.forall₂_iff_zip.mp visited.swept).2 mem).new
      rw [new.resolve_right fun changed =>
        nothing (acts_of_child (List.of_mem_zip mem).1 changed.2)]
      exact Node.same_self _

/-- Visiting all the children of a node. -/
theorem descend_sweeps (stands : (ledger unit mark).Stands n above)
    (distinct : ((Node.unit unit).subtree.map Node.id).Nodup)
    (old : ∀ n ∈ (Node.unit unit).subtree, n.id < mark) {visit : Node → PassM Unit Node}
    (below : ∀ c ∈ n.children, Sweeps unit mark c (n :: above) (visit c)) (rest : Multiset Node) :
    VisitM.Triple
      (fun site => Order ws site ∧
        (ledger unit mark).Holds (n :: above) (n.parts (fun _ => false) + rest) site)
      (n.children.mapM (fun c => VisitM.inFrame c (visit c)) >>= Visitor.settle n) fun out site =>
        (Visited unit mark (n :: above) ws n.children out.children site ∧
          (out = n ∨ mark ≤ out.id ∧ turning.Acts (turning.place above) n)) ∧
        (ledger unit mark).Walked above n out ∧
        (ledger unit mark).Holds (n :: above) (out.parts (fun _ => false) + rest) site := by
  obtain ⟨own, parts⟩ : ∃ own, n.parts (fun _ => false) =
    own + Node.partsOf (fun _ => false) n.children := ⟨_, n.parts_eq⟩
  refine (VisitM.Triple.mono (Regime.children_hold (Visited unit mark (n :: above) ws) rest
    parts fun done c todo outs rest split => Visited.child ?_ rest) ?_ fun _ _ h => h).bind
    fun news => ?_
  · exact below c (split ▸ List.mem_append_right _ List.mem_cons_self)
  · rintro site ⟨order, holds⟩
    exact ⟨⟨order, .nil, fun c none => (List.not_mem_nil none).elim, .nil⟩, holds⟩
  · rintro site out site' ⟨visited, holds⟩ ran
    refine ⟨settle_sweeps stands distinct old ⟨visited, holds⟩ ran, ?_⟩
    exact Regime.settle_makes (ledger_lawful distinct old) stands visited.became parts rest holds ran

/-- A node that is no block is swept when its children are. -/
theorem Visited.swept_node {out : Node} (open_ : n.block? = none)
    (h : Visited unit mark (n :: above) ws n.children out.children site)
    (walked : (ledger unit mark).Walked above n out)
    (new : out = n ∨ mark ≤ out.id ∧ turning.Acts (turning.place above) n) : Swept mark above n out := by
  cases isExpr : n.expr? with
  | some e =>
    cases n with
    | expr =>
      rw [walked.became.expr rfl]
      exact .expr _
    | _ => cases isExpr
  | none =>
    exact .around open_ isExpr walked.label new h.swept.length_eq
      fun c c' pair => (List.forall₂_iff_zip.mp h.swept).2 pair

/-- What gives way in a node that is no block gives way in its children. -/
theorem Visited.noted_node {out : List Node} (open_ : n.block? = none)
    (other : turning.isGiven (turning.place above) n = false)
    (h : Visited unit mark (n :: above) ws n.children out site)
    (holds : (ledger unit mark).Holds (n :: above) hand site) :
    AllNoted above site.cursor.waiting.tail n := by
  intro e outermost
  rcases outermost_iff.mp outermost with ⟨rfl, gives⟩ | ⟨-, -, noClass, c, mem, inner⟩
  · cases other.symm.trans gives
  · have place : turning.place (n :: above) = turning.place above := inside_of_noClass noClass
    have noted := h.noted c mem e (place.symm ▸ inner)
    obtain ⟨⟨_, fixes⟩, back, waiting, rfl, -⟩ := List.map_eq_cons_iff.mp holds.path
    rw [waiting, Rewriting.nearestFixes_open open_] at noted
    rwa [waiting]

/-- The visit of a tree turns the blocks in it. -/
theorem run_sweeps (matcher : env.matcher = .standard) (splicer : env.splicer = .standard)
    (distinct : ((Node.unit unit).subtree.map Node.id).Nodup)
    (old : ∀ n ∈ (Node.unit unit).subtree, n.id < mark) (n : Node) (above : List Node)
    (comes : turning.Comes False unit mark n above) :
    Sweeps unit mark n above (((remedy env).visitor env).run n) := by
  intro ws rest
  have lawful := ledger_lawful distinct old
  have stands : (ledger unit mark).Stands n above :=
    ⟨comes.stands.genuine, comes.stands.parts, comes.stands.body⟩
  rw [Visitor.run_eq]
  unfold Remedy.visitor
  dsimp only
  refine VisitM.Triple.bind (enter_notes matcher comes) ?_
  intro goOn
  cases goOn with
  | false =>
    refine .pure fun site h => ?_
    obtain ⟨⟨order, holds⟩, e, rfl, noted⟩ := h
    refine ⟨⟨order, .expr e, fun e' outermost => ?_⟩, lawful.became _ _, holds⟩
    have waits := noted e' outermost
    obtain ⟨⟨_, fixes⟩, back, waiting, rfl, -⟩ := List.map_eq_cons_iff.mp holds.path
    rw [waiting, Rewriting.nearestFixes_open rfl] at waits
    rwa [waiting]
  | true =>
    rw [if_pos rfl]
    rintro site out site' ⟨⟨order, holds⟩, (other : turning.isGiven (turning.place above) n = false)⟩ ran
    obtain ⟨walked, site₁, ran₁, ran₂⟩ := VisitM.ok_of_bind ran
    obtain ⟨⟨visited, new⟩, made, holds₁⟩ := descend_sweeps stands distinct old
      (fun c hc => run_sweeps matcher splicer distinct old c (n :: above)
        (comes.child hc fun given => (Bool.false_ne_true (other.symm.trans given)).elim)) rest
      ⟨order, holds⟩ ran₁
    split at ran₂
    next before after =>
      rw [splicer] at ran₂
      obtain ⟨_, site₂, left, ran₂⟩ := VisitM.ok_of_bind ran₂
      have noted : ∀ s ∈ before.stmts, AllNoted (.block before :: above) site₁.cursor.waiting (.stmt s) :=
        fun s mem => visited.noted (.stmt s) (List.mem_map_of_mem mem)
      obtain ⟨leaving, holds₂⟩ := leave_notes matcher ⟨⟨visited.order, noted⟩, holds₁⟩ left
      obtain ⟨block, _, repaired, done⟩ := VisitM.ok_of_bind ran₂
      cases done
      have swept : List.Forall₂ (Swept mark (.block before :: above)) (before.stmts.map .stmt)
        (after.stmts.map .stmt) := visited.swept
      rw [List.forall₂_map_left_iff, List.forall₂_map_right_iff] at swept
      obtain ⟨order', turned⟩ := repair_turns comes distinct old made (new.imp Node.block.inj And.right)
        swept ⟨leaving, holds₂⟩ repaired
      exact ⟨⟨order', .block turned, fun e outermost => (not_outermost_block outermost).elim⟩,
        Regime.repair_mends lawful stands made rest holds₂ repaired⟩
    next unblocked =>
      cases ran₂
      have open_ : n.block? = none := by
        cases n with
        | block before =>
          have sort := made.became.sort
          cases out with
          | block after => exact (unblocked before after rfl rfl).elim
          | _ => cases sort
        | _ => rfl
      exact ⟨⟨visited.order, visited.swept_node open_ made new, visited.noted_node open_ other holds₁⟩,
        made.became, holds₁⟩
termination_by sizeOf n
decreasing_by exact Node.sizeOf_lt_of_mem_children hc

/-- The pass turns a unit. -/
theorem pass_turns (matcher : env.matcher = .standard) (splicer : env.splicer = .standard)
    (distinct : ((Node.unit unit).subtree.map Node.id).Nodup)
    (old : ∀ n ∈ (Node.unit unit).subtree, n.id < mark) {out : PassResult} {used : NodeId}
    (ran : pass env unit mark = (.ok out, used)) :
    ∃ changed : CompilationUnit, Turned mark [] (.unit unit) (.unit changed) ∧
      out.unit.classes = changed.classes ∧ (changed = unit → out.unit = unit) := by
  unfold pass Visitor.pass Visitor.runTree at ran
  split at ran
  next => cases ran
  next node site ended =>
    have comes : turning.Comes False unit mark (.unit unit) [] :=
      ⟨Regime.stands_root rfl, rfl, .inr trivial⟩
    have order : Order [(.unit unit, [])]
        { cursor := .ofRoot (.unit unit), next := mark, own := () : Site Note Unit } := by
      refine ⟨Cursor.legible_ofPath ⟨[.unit unit]⟩, Grown.refl _, fun p mem fix waits => ?_⟩
      cases List.mem_singleton.mp (show p ∈ [(Node.unit unit, [])] from mem)
      cases waits
    obtain ⟨⟨order, swept, -⟩, became, -⟩ := run_sweeps matcher splicer distinct old _ _ comes [] 0
      ⟨order, Regime.holds_root rfl ()⟩ ended
    -- In a unit, all expressions stand in blocks.
    have turned : Turned mark [] (.unit unit) node := by
      have rests : turning.Underway mark True (fun _ => False) (turning.place []) node node :=
        swept.underway (fun _ _ none => nomatch none) fun e outermost =>
          Rewriting.not_outermost_unit outermost
      exact swept.turned (fun _ _ none => nomatch none) rests fun _ => id
    cases node with
    | unit changed =>
      dsimp only at ran
      refine ⟨changed, turned, ?_⟩
      split at ran
      next same =>
        cases ran
        exact ⟨rfl, id⟩
      next differs =>
        cases ran
        refine ⟨Regime.classes_apply _ _ _, fun same => ?_⟩
        rw [same] at differs
        exact (differs rfl).elim
    | _ => cases became.sort

end RandomString

end JavaMend
