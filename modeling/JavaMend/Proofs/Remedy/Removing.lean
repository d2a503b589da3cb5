import Mathlib.Data.Option.Basic
import JavaMend.Proofs.Match.Members
import JavaMend.Proofs.Remedy.Regime
import JavaMend.Proofs.Remedy.Success
import JavaMend.Proofs.Remedy.Waiting
import JavaMend.Proofs.Tree.Sound
import JavaMend.Proofs.Tree.Without
import JavaMend.Remedy.Catalog

/-!
# Predictable seeds are filtered out

The pass for predictable seeds deletes the statements that seed a generator predictably
from all blocks of a unit, and does nothing else (`CatalogEntry.run_secureRandomSeed`). Which
statements these are is said from what their calls are resolved to (`Seed.drops_iff`).

While the children of a block are visited the statements that are to go are noted, each on
the frame of its block (`Seed.removals`), and stay where they stand; the others come back
pruned. When the visit of the block ends, the notes are applied one after the other. Each
finds its statement by its id: what was rebuilt meanwhile has new ids, so there is one
statement only that it can find.
-/

namespace JavaMend

namespace Seed

variable {matcher : CallMatcher} {root : Node} {mark : NodeId}

/-- Does the statement seed a generator predictably? -/
def drops (matcher : CallMatcher) (s : Stmt) : Bool := (weakSeeding? matcher s).isSome

/-- The fix for a child of a node: that it is to go. -/
def removal? (matcher : CallMatcher) : Node → Node → Option PendingFix
  | .block _, .stmt s => (weakSeeding? matcher s).map fun call =>
      { anchor := s, tainted := call, parent := none, kind := .remove }
  | _, _ => none

/-- The fixes that some children of a node leave on its frame. -/
def removals (matcher : CallMatcher) (n : Node) (cs : List Node) : List PendingFix :=
  cs.filterMap (removal? matcher n)

/-! ## What goes -/

/-- The seeds whose value can be guessed. Parentheses and casts around one make no
difference. -/
inductive Predictable : Expr → Prop where
  | parens {id : NodeId} {ty : Ty} {inner : Expr} (inside : Predictable inner) :
      Predictable ⟨id, ty, .parens inner⟩
  | cast {id : NodeId} {ty : Ty} {type : String} {operand : Expr} (inside : Predictable operand) :
      Predictable ⟨id, ty, .cast type operand⟩
  | literal {id : NodeId} {ty : Ty} (value : Literal) : Predictable ⟨id, ty, .literal value⟩
  /-- `System.currentTimeMillis()` and `System.nanoTime()` -/
  | clock {id : NodeId} {ty : Ty} {receiver : Option Expr} {name : String} {args : List Expr}
      {m : MethodRef} (time : m.name = "currentTimeMillis" ∨ m.name = "nanoTime")
      (system : Fqn.system ∈ m.owner.names) (none : m.params = []) :
      Predictable ⟨id, ty, .call receiver name args (some m)⟩
  /-- `getBytes` of a literal, with or without a charset -/
  | bytes {id : NodeId} {ty : Ty} {text : Expr} {name : String} {args : List Expr} {m : MethodRef}
      (bytes : m.name = "getBytes") (string : Fqn.string ∈ m.owner.names)
      (known : text.unparen.literal?.isSome) :
      Predictable ⟨id, ty, .call (some text) name args (some m)⟩
  /-- What a date answers -/
  | date {id : NodeId} {ty : Ty} {receiver : Option Expr} {name : String} {args : List Expr}
      {m : MethodRef} (date : m.owner.assignableTo Fqn.date = true)
      (other : ¬ (m.name = "getBytes" ∧ Fqn.string ∈ m.owner.names)) :
      Predictable ⟨id, ty, .call receiver name args (some m)⟩

section

variable {e : Expr}

theorem acceptsAny_setSeed : CallMatcher.standard.acceptsAny e setSeed = true ↔
    ∃ m, e.method? = some m ∧ m.name = "setSeed" ∧ Fqn.secureRandom ∈ m.owner.names := by
  have read : setSeed = [.exactly "java.security.SecureRandom setSeed(..)" Fqn.secureRandom
      "setSeed" [.anySequence]] := rfl
  simp [CallMatcher.acceptsAny_standard, read, Signature.accepts_exactly]

theorem acceptsAny_clock : CallMatcher.standard.acceptsAny e clock = true ↔
    ∃ m, e.method? = some m ∧ (m.name = "currentTimeMillis" ∨ m.name = "nanoTime") ∧
      Fqn.system ∈ m.owner.names ∧ m.params = [] := by
  have read : clock =
      [.exactly "java.lang.System currentTimeMillis()" Fqn.system "currentTimeMillis" [],
        .exactly "java.lang.System nanoTime()" Fqn.system "nanoTime" []] := rfl
  simp only [CallMatcher.acceptsAny_standard, read, List.exists_mem_cons_iff, List.not_mem_nil,
    false_and, exists_false, or_false, Signature.accepts_exactly, Signature.acceptsArgs_nil,
    or_and_right]

theorem acceptsAny_stringBytes : CallMatcher.standard.acceptsAny e stringBytes = true ↔
    ∃ m, e.method? = some m ∧ m.name = "getBytes" ∧ Fqn.string ∈ m.owner.names := by
  have read : stringBytes = [.exactly "java.lang.String getBytes(..)" Fqn.string
      "getBytes" [.anySequence]] := rfl
  simp [CallMatcher.acceptsAny_standard, read, Signature.accepts_exactly]

theorem canBeGuessed_iff : canBeGuessed .standard e = true ↔ Predictable e := by
  fun_induction canBeGuessed .standard e with
  | case1 id ty inner ih => exact ih.trans ⟨.parens, fun h => by cases h; assumption⟩
  | case2 id ty type operand ih => exact ih.trans ⟨.cast, fun h => by cases h; assumption⟩
  | case3 id ty value => exact iff_of_true rfl (.literal value)
  | case4 id ty receiver name args method call time =>
    obtain ⟨m, found, named, system, none⟩ := acceptsAny_clock.mp time
    cases show method = some m from found
    exact iff_of_true rfl (.clock named system none)
  | case5 id ty receiver name args method call time bytes =>
    obtain ⟨m, found, named, string⟩ := acceptsAny_stringBytes.mp bytes
    cases show method = some m from found
    constructor
    · intro known
      obtain ⟨text, rfl, literal⟩ := (Option.any_eq_true _ _).mp known
      exact .bytes named string literal
    · intro predictable
      cases predictable with
      | clock named' system none =>
        exact (time (acceptsAny_clock.mpr ⟨m, rfl, named', system, none⟩)).elim
      | bytes _ _ literal => exact literal
      | date _ other => exact (other ⟨named, string⟩).elim
  | case6 id ty receiver name args method call time bytes =>
    constructor
    · intro known
      obtain ⟨m, rfl, date⟩ := (Option.any_eq_true _ _).mp known
      exact .date date fun other => bytes (acceptsAny_stringBytes.mpr ⟨m, rfl, other⟩)
    · intro predictable
      cases predictable with
      | clock named system none =>
        exact (time (acceptsAny_clock.mpr ⟨_, rfl, named, system, none⟩)).elim
      | bytes named string _ => exact (bytes (acceptsAny_stringBytes.mpr ⟨_, rfl, named, string⟩)).elim
      | date date _ => exact date
  | case7 e parens cast literal call =>
    refine iff_of_false Bool.false_ne_true fun predictable => ?_
    cases predictable with
    | parens => exact parens _ _ _ rfl
    | cast => exact cast _ _ _ _ rfl
    | literal => exact literal _ _ _ rfl
    | clock => exact call _ _ _ _ _ _ rfl
    | bytes => exact call _ _ _ _ _ _ rfl
    | date => exact call _ _ _ _ _ _ rfl

/-- The statements that go: a call of `setSeed` of `SecureRandom` with a predictable seed. -/
theorem drops_iff {s : Stmt} : drops .standard s = true ↔ ∃ call m seed,
    s.expression? = some call ∧ call.method? = some m ∧
      (m.name = "setSeed" ∧ Fqn.secureRandom ∈ m.owner.names) ∧
        call.args.head? = some seed ∧ Predictable seed := by
  unfold drops weakSeeding?
  simp only [Option.isSome_iff_exists, bind, Option.bind_eq_some_iff, Option.guard_eq_some',
    acceptsAny_setSeed, canBeGuessed_iff]
  constructor
  · rintro ⟨_, call, at_, -, ⟨m, found, seeds⟩, seed, first, -, predictable, -⟩
    exact ⟨call, m, seed, at_, found, seeds, first, predictable⟩
  · rintro ⟨call, m, seed, at_, found, seeds, first, predictable⟩
    exact ⟨call, call, at_, (), ⟨m, found, seeds⟩, seed, first, (), predictable, rfl⟩

end

/-! ## Applying removals -/

/-- The statements of a list without the one that has an id, if no other one has it. -/
theorem filter_of_split {front back : List Stmt} {s : Stmt}
    (single : (front ++ s :: back).countP (·.id == s.id) ≤ 1) :
    s.id ∉ front.map (·.id) ∧
      (front ++ s :: back).filter (·.id != s.id) = front ++ back := by
  rw [List.countP_append, List.countP_cons_of_pos (by simp)] at single
  have others {l : List Stmt} (none : l.countP (·.id == s.id) = 0) : ∀ t ∈ l, t.id ≠ s.id :=
    fun t mem same => List.countP_eq_zero.mp none t mem (beq_iff_eq.mpr same)
  have before := others (l := front) (by omega)
  have behind := others (l := back) (by omega)
  have kept {l : List Stmt} (apart : ∀ t ∈ l, t.id ≠ s.id) : l.filter (·.id != s.id) = l :=
    List.filter_eq_self.mpr fun t mem => bne_iff_ne.mpr (apart t mem)
  constructor
  · intro mem
    obtain ⟨t, ht, same⟩ := List.mem_map.mp mem
    exact before t ht same
  · rw [List.filter_append, List.filter_cons_of_neg (by simp), kept before, kept behind]

/-- A removal takes the statement out of the block. -/
theorem apply_removal {c : Repair} {fix : PendingFix} (kind : fix.kind = .remove)
    (there : fix.anchor ∈ c.block.stmts)
    (single : c.block.stmts.countP (·.id == fix.anchor.id) ≤ 1) (site : Site Note Unit) :
    c.apply .standard fix site = .ok
      { c with block := ⟨site.next, c.block.isStatic,
          c.block.stmts.filter (·.id != fix.anchor.id)⟩ }
      { site with next := site.next + 1 } := by
  obtain ⟨front, back, split⟩ := List.append_of_mem there
  rw [split] at single
  obtain ⟨first, rest⟩ := filter_of_split single
  have resolved : c.resolve? fix.anchor = some fix.anchor := by
    unfold Repair.resolve?
    rw [Repair.follow, if_pos (Block.position?_isSome.mpr (List.mem_map_of_mem there))]
  unfold Repair.apply
  simp only [resolved, kind]
  rw [split, rest]
  have spliced := Repair.splice_eq split first [] .replace site
  rwa [SpliceSide.around, List.append_nil] at spliced

/-- Removals for different statements of a block, one after the other. -/
theorem foldlM_removals {fixes : List PendingFix} (removes : ∀ fix ∈ fixes, fix.kind = .remove)
    (distinct : (fixes.map (·.anchor.id)).Nodup) {c : Repair}
    (there : ∀ fix ∈ fixes, fix.anchor ∈ c.block.stmts)
    (single : ∀ fix ∈ fixes, c.block.stmts.countP (·.id == fix.anchor.id) ≤ 1)
    (site : Site Note Unit) :
    ∃ c' used, site.next ≤ used ∧ (fixes = [] → c' = c) ∧
      (c' = c ∨ site.next ≤ c'.block.id) ∧
      c'.block.isStatic = c.block.isStatic ∧
      c'.block.stmts = c.block.stmts.filter (fun t => !(fixes.map (·.anchor.id)).contains t.id) ∧
      fixes.foldlM (Repair.apply .standard) c site = .ok c' { site with next := used } := by
  induction fixes generalizing c site with
  | nil =>
    refine ⟨c, site.next, Nat.le_refl _, fun _ => rfl, .inl rfl, rfl, ?_, rfl⟩
    exact (List.filter_eq_self.mpr fun _ _ => rfl).symm
  | cons fix fixes ih =>
    rw [List.map_cons, List.nodup_cons] at distinct
    let rest : List Stmt := c.block.stmts.filter (·.id != fix.anchor.id)
    let between : Repair := { c with block := ⟨site.next, c.block.isStatic, rest⟩ }
    have applied : c.apply .standard fix site = .ok between { site with next := site.next + 1 } :=
      apply_removal (removes fix List.mem_cons_self) (there fix List.mem_cons_self)
        (single fix List.mem_cons_self) site
    have still : ∀ other ∈ fixes, other.anchor ∈ rest := fun other mem =>
      List.mem_filter.mpr ⟨there other (List.mem_cons_of_mem _ mem), bne_iff_ne.mpr fun same =>
        distinct.1 (List.mem_map.mpr ⟨other, mem, same⟩)⟩
    have fewer : ∀ other ∈ fixes, rest.countP (·.id == other.anchor.id) ≤ 1 := fun other mem =>
      Nat.le_trans List.filter_sublist.countP_le (single other (List.mem_cons_of_mem _ mem))
    obtain ⟨c', used, le, -, new, isStatic, stmts, ran⟩ :=
      ih (c := between) (fun fix mem => removes fix (List.mem_cons_of_mem _ mem)) distinct.2 still
        fewer { site with next := site.next + 1 }
    refine ⟨c', used, Nat.le_of_succ_le le, nofun, .inr ?_, isStatic, ?_, ?_⟩
    · rcases new with rfl | new
      · exact Nat.le_refl _
      · exact Nat.le_of_succ_le new
    · rw [stmts, List.filter_filter]
      refine List.filter_congr fun t _ => ?_
      rw [List.map_cons, List.contains_cons, Bool.not_or, Bool.and_comm]
      rfl
    · rw [List.foldlM_cons]
      show EStateM.bind _ _ site = _
      simp only [EStateM.bind, applied]
      exact ran

/-! ## What waits -/

/-- Between two steps of the visit no import was asked for. -/
abbrev Waits (mark : NodeId) (waiting : List (Node × List PendingFix)) (site : Site Note Unit) :
    Prop :=
  site.Waits (· = []) mark waiting

variable {w : List (Node × List PendingFix)} {n c out : Node} {fixes : List PendingFix}
  {fix : PendingFix}

theorem waits_root (unit : CompilationUnit) (mark : NodeId) :
    Waits mark [(.unit unit, [])] { cursor := .ofRoot (.unit unit), next := mark, own := () } where
  legible := Cursor.legible_ofPath (.ofRoot _)
  waiting := rfl
  asked := rfl
  late := Nat.le_refl _

/-! ## Entering a node -/

theorem removal?_block {b : Block} {s : Stmt} :
    removal? matcher (.block b) (.stmt s) =
      (weakSeeding? matcher s).map fun call => ⟨s, call, none, .remove⟩ := rfl

/-- A removal is for a statement of a block. -/
theorem removal?_some (noted : removal? matcher n c = some fix) :
    ∃ b s call, n = .block b ∧ c = .stmt s ∧ weakSeeding? matcher s = some call ∧
      fix = ⟨s, call, none, .remove⟩ := by
  cases n with
  | block b =>
    cases c with
    | stmt s =>
      rw [removal?_block] at noted
      obtain ⟨call, seeds, rfl⟩ := Option.map_eq_some_iff.mp noted
      exact ⟨b, s, call, rfl, rfl, seeds, rfl⟩
    | _ => cases noted
  | _ => cases noted

theorem isSome_removal? : (removal? matcher n c).isSome = n.goes (drops matcher) c := by
  cases n with
  | block b =>
    cases c with
    | stmt s =>
      rw [removal?_block, Option.isSome_map]
      rfl
    | _ => rfl
  | _ => rfl

/-- A node that does not go is visited. -/
theorem enter_stays {env : PassEnv} (stays : ∀ p ∈ w.head?, removal? env.matcher p.1 c = none) :
    VisitM.Triple (Waits mark ((c, []) :: w)) ((remedy env).enter c) fun go site =>
      go = true ∧ Waits mark ((c, []) :: w) site := by
  unfold remedy
  dsimp only
  split
  next s =>
    refine Site.Waits.look.bind fun path => .assuming ?_
    rintro rfl
    split
    next call seeds =>
      have lone : ((⟨.stmt s :: w.map (·.1)⟩ : Path).parent?.bind Node.block?).isSome = false := by
        cases w with
        | nil => rfl
        | cons p w =>
          have none := stays p rfl
          obtain ⟨n, fixes⟩ := p
          cases n with
          | block b =>
            rw [removal?_block, seeds] at none
            cases none
          | _ => rfl
      rw [List.map_cons, lone]
      exact .pure fun _ h => ⟨rfl, h⟩
    next => exact .pure fun _ h => ⟨rfl, h⟩
  next => exact .pure fun _ h => ⟨rfl, h⟩

/-- A statement that goes is noted and stays for now. -/
theorem enter_goes {env : PassEnv} (inside : c ∈ n.children)
    (noted : removal? env.matcher n c = some fix) (apart : ∀ old ∈ fixes, old.anchor.id ≠ c.id) :
    VisitM.Triple (Waits mark ((c, []) :: (n, fixes) :: w)) ((remedy env).enter c) fun go site =>
      go = false ∧ Waits mark ((c, []) :: (n, fixes ++ [fix]) :: w) site := by
  obtain ⟨b, s, call, rfl, rfl, seeds, rfl⟩ := removal?_some noted
  have mem : s ∈ b.stmts := by
    obtain ⟨t, ht, same⟩ := List.mem_map.mp inside
    exact Node.stmt.inj same ▸ ht
  have added : (PendingFixes.add ⟨fixes⟩ ⟨s, call, none, .remove⟩).fixes =
      fixes ++ [⟨s, call, none, .remove⟩] := by
    unfold PendingFixes.add
    refine congrArg (· ++ _) (List.filter_eq_self.mpr fun old hold => ?_)
    have differs : s.same old.anchor = false := beq_eq_false_iff_ne.mpr (apart old hold).symm
    rw [PendingFix.supersedes, differs]
    rfl
  unfold remedy
  dsimp only
  refine Site.Waits.look.bind fun path => .assuming ?_
  rintro rfl
  rw [seeds]
  have note : VisitM.Triple (Waits mark ((.stmt s, []) :: (.block b, fixes) :: w))
      (PassM.noteFix ⟨s, call, none, .remove⟩ : PassM Unit Bool) fun _ =>
        Waits mark ((.stmt s, []) :: (.block b, fixes ++ [⟨s, call, none, .remove⟩]) :: w) := by
    rw [← added]
    refine .modifyCursor fun site h => ?_
    have split : Waits mark ([(.stmt s, [])] ++ (.block b, fixes) :: w) site := h
    exact split.noteFix (by simp [Node.block?]) mem
  exact note.bind fun _ => .pure fun _ h => ⟨rfl, h⟩

/-! ## Visiting the children -/

/-- What becomes of a child of a node: it stays for now if it goes, and is pruned if not. -/
def Visited (matcher : CallMatcher) (root : Node) (mark : NodeId) (n c out : Node) : Prop :=
  if n.goes (drops matcher) c then out = c else Node.Pruned (drops matcher) root mark c out

theorem Visited.new (h : Visited matcher root mark n c out) : out = c ∨ mark ≤ out.id := by
  unfold Visited at h
  split at h
  · exact .inl h
  · exact h.new

theorem Visited.sort (h : Visited matcher root mark n c out) : Node.SameSort c out := by
  unfold Visited at h
  split at h
  · rw [h]
  · exact (Node.sameSort_of_label h.label).symm

/-- What a descent makes of a node. -/
structure Descended (matcher : CallMatcher) (root : Node) (mark : NodeId) (n out : Node) :
    Prop where
  label : out.label = n.label
  children : List.Forall₂ (Visited matcher root mark n) n.children out.children
  new : out = n ∨ mark ≤ out.id
  kept : out.children = n.children → out = n

/-- A node with children that were visited. -/
theorem settle_descends (old : ∀ c ∈ n.children, c.id < mark) {news : List Node}
    (visited : List.Forall₂ (Visited matcher root mark n) n.children news) :
    VisitM.Triple (Waits mark waiting) (Visitor.settle n news : PassM Unit Node) fun out site =>
      Waits mark waiting site ∧ Descended matcher root mark n out := by
  unfold Visitor.settle
  split
  next all =>
    have back := Node.children_eq_of_same (visited.imp fun _ _ h => h.new) old all
    exact .pure fun site h => ⟨h, rfl, back ▸ visited, .inl rfl, fun _ => rfl⟩
  next some =>
    refine .fresh fun site h => ⟨⟨h.legible, h.waiting, h.asked, Nat.le_succ_of_le h.late⟩, ?_⟩
    have refilled := n.refilled_withChildren site.next (visited.imp fun _ _ h => h.sort)
    have children : (n.withChildren site.next news).children = news := refilled.children
    refine ⟨refilled.label, ?_, .inr ?_, fun same => ?_⟩
    · show List.Forall₂ _ _ (n.withChildren site.next news).children
      rwa [children]
    · exact (Node.id_withChildren n site.next news).symm ▸ h.late
    · have same : (n.withChildren site.next news).children = n.children := same
      rw [children] at same
      subst same
      refine (some (List.all_eq_true.mpr fun p mem => ?_)).elim
      obtain ⟨i, hi, rfl⟩ := List.mem_iff_getElem.mp mem
      rw [List.getElem_zip]
      exact Node.same_self _

/-- A node is not rebuilt if nothing goes from it. -/
theorem Descended.eq_of_without_eq (h : Descended matcher root mark n out)
    (whole : n.without (drops matcher) = n) : out = n := by
  obtain ⟨all, each⟩ := Node.children_of_without_eq whole
  refine h.kept (List.ext_getElem h.children.length_eq.symm fun i hi hi' => ?_)
  have visited := (List.forall₂_iff_get.mp h.children).2 i hi' hi
  have mem : n.children[i] ∈ n.children := List.getElem_mem hi'
  have stays : n.goes (drops matcher) n.children[i] = false := by
    have kept := List.filter_eq_self.mp all _ mem
    rwa [Bool.not_eq_true'] at kept
  rw [Visited, List.get_eq_getElem, stays, if_neg Bool.false_ne_true] at visited
  exact visited.kept (each _ mem)

/-- A node other than a block after the descent: nothing goes from it. -/
theorem Descended.pruned (h : Descended matcher root mark n out) (open_ : n.block? = none)
    (distinct : (root.subtree.map Node.id).Nodup) (inside : n ∈ root.subtree) :
    Node.Pruned (drops matcher) root mark n out := by
  refine .of_children distinct inside h.label ?_ h.new h.eq_of_without_eq
  rw [Node.staying_open open_]
  exact h.children.imp fun c d visited => by
    rwa [Visited, Node.goes_open open_, if_neg Bool.false_ne_true] at visited

/-- The fixes that wait after one more child. -/
theorem removals_concat (done : List Node) (c : Node) :
    removals matcher n (done ++ [c]) =
      removals matcher n done ++ (removal? matcher n c).toList := by
  unfold removals
  rw [List.filterMap_append]
  cases h : removal? matcher n c with
  | none => rw [List.filterMap_cons_none h]; rfl
  | some fix => rw [List.filterMap_cons_some h]; rfl

/-- Visiting a child of a node after others. -/
theorem child_visited {env : PassEnv} (inside : c ∈ n.children)
    (apart : ∀ old ∈ fixes, old.anchor.id ≠ c.id)
    (prunes : ∀ w, (∀ p ∈ w.head?, removal? env.matcher p.1 c = none) →
      VisitM.Triple (Waits mark ((c, []) :: w)) (((remedy env).visitor env).run c) fun out site =>
        Waits mark ((c, []) :: w) site ∧ Node.Pruned (drops env.matcher) root mark c out) :
    VisitM.Triple (Waits mark ((n, fixes) :: w))
      (VisitM.inFrame c (((remedy env).visitor env).run c)) fun out site =>
        Waits mark ((n, fixes ++ (removal? env.matcher n c).toList) :: w) site ∧
          Visited env.matcher root mark n c out := by
  have visit : VisitM.Triple (Waits mark ((c, []) :: (n, fixes) :: w))
      (((remedy env).visitor env).run c) fun out site =>
        Waits mark ((c, []) :: (n, fixes ++ (removal? env.matcher n c).toList) :: w) site ∧
          Visited env.matcher root mark n c out := by
    unfold Visited
    rw [← isSome_removal?]
    cases noted : removal? env.matcher n c with
    | none =>
      have stays : ∀ p ∈ ((n, fixes) :: w).head?, removal? env.matcher p.1 c = none := by
        intro p mem
        cases mem
        exact noted
      refine (prunes ((n, fixes) :: w) stays).mono (fun _ h => h) fun out site h => ?_
      rw [Option.toList_none, List.append_nil]
      exact h
    | some fix =>
      rw [Visitor.run_eq]
      unfold Remedy.visitor
      refine (enter_goes inside noted apart).bind fun go => .assuming ?_
      rintro rfl
      exact .pure fun _ h => ⟨h, rfl⟩
  exact visit.inFrame (fun site h => h.push (List.cons_ne_nil _ _) c)
    fun out site h => ⟨h.1.pop (List.cons_ne_nil _ _), h.2⟩

/-- Visiting all children of a node. -/
theorem descend_visited {env : PassEnv} (distinct : (root.subtree.map Node.id).Nodup)
    (old : ∀ m ∈ root.subtree, m.id < mark) (inside : n ∈ root.subtree)
    (prunes : ∀ c ∈ n.children, ∀ w, (∀ p ∈ w.head?, removal? env.matcher p.1 c = none) →
      VisitM.Triple (Waits mark ((c, []) :: w)) (((remedy env).visitor env).run c) fun out site =>
        Waits mark ((c, []) :: w) site ∧ Node.Pruned (drops env.matcher) root mark c out) :
    VisitM.Triple (Waits mark ((n, []) :: w))
      (n.children.mapM (fun c => VisitM.inFrame c (((remedy env).visitor env).run c)) >>=
        Visitor.settle n) fun out site =>
        Waits mark ((n, removals env.matcher n n.children) :: w) site ∧
          Descended env.matcher root mark n out := by
  have ids : (n.children.map Node.id).Nodup :=
    (((Node.children_sublist_subtree n).trans (Node.subtree_sublist_of_mem inside)).map _).nodup
      distinct
  let inv (done outs : List Node) (site : Site Note Unit) : Prop :=
    Waits mark ((n, removals env.matcher n done) :: w) site ∧
      List.Forall₂ (Visited env.matcher root mark n) done outs
  have visits : VisitM.Triple (inv [] [])
      (n.children.mapM fun c => VisitM.inFrame c (((remedy env).visitor env).run c))
      (inv n.children) := by
    refine .mapM inv fun done c rest outs split => ?_
    rintro site out site' ⟨waits, visited⟩ ran
    have mem : c ∈ n.children := split ▸ List.mem_append_right _ List.mem_cons_self
    have apart : ∀ old ∈ removals env.matcher n done, old.anchor.id ≠ c.id := by
      intro fix noted
      obtain ⟨d, hd, some⟩ := List.mem_filterMap.mp noted
      obtain ⟨-, s, call, -, rfl, -, rfl⟩ := removal?_some some
      rw [split, List.map_append, List.map_cons, List.nodup_append] at ids
      exact ids.2.2 _ (List.mem_map_of_mem hd) _ List.mem_cons_self
    obtain ⟨waits', here⟩ := child_visited mem apart (prunes c mem) waits ran
    rw [← removals_concat] at waits'
    exact ⟨waits', List.rel_append visited (.cons here .nil)⟩
  refine (visits.mono (fun site h => ⟨h, .nil⟩) fun _ _ h => h).bind fun news => ?_
  rintro site out site' ⟨waits, visited⟩ ran
  refine settle_descends (fun c hc => ?_) visited waits ran
  exact old c (Node.subtree_trans inside (Node.mem_subtree_of_child hc Node.mem_subtree_self))

/-! ## The end of the visit of a block -/

variable {b before after : Block}

/-- The removals that wait at a block are for its statements that go. -/
theorem removals_block (b : Block) :
    (removals matcher (.block b) (Node.block b).children).map (·.anchor) =
      b.stmts.filter (drops matcher) := by
  show (removals matcher (.block b) (b.stmts.map .stmt)).map (·.anchor) = _
  generalize b.stmts = stmts
  induction stmts with
  | nil => rfl
  | cons s stmts ih =>
    unfold removals at ih ⊢
    unfold drops at ih ⊢
    rw [List.map_cons]
    cases seeds : weakSeeding? matcher s with
    | none =>
      rw [List.filterMap_cons_none (by rw [removal?_block, seeds]; rfl), ih,
        List.filter_cons_of_neg (by rw [seeds]; exact Bool.false_ne_true)]
    | some call =>
      rw [List.filterMap_cons_some (by rw [removal?_block, seeds]; rfl), List.map_cons, ih,
        List.filter_cons_of_pos (by rw [seeds]; rfl)]

theorem kind_of_mem_removals {cs : List Node} (mem : fix ∈ removals matcher n cs) :
    fix.kind = .remove := by
  obtain ⟨c, -, noted⟩ := List.mem_filterMap.mp mem
  obtain ⟨-, -, -, -, -, -, rfl⟩ := removal?_some noted
  rfl

/-- Of the statements of a visited block, those that stay are found again by their ids. -/
theorem staying_pruned {stmts news : List Stmt} {ids : List NodeId}
    (visited : List.Forall₂ (fun s t => Visited matcher root mark (.block b) (.stmt s) (.stmt t))
      stmts news)
    (goes : ∀ s ∈ stmts, s.id ∈ ids ↔ drops matcher s = true) (old : ∀ id ∈ ids, id < mark) :
    List.Forall₂ (fun s t => Node.Pruned (drops matcher) root mark (.stmt s) (.stmt t))
      (stmts.filter (!drops matcher ·)) (news.filter (!ids.contains ·.id)) := by
  induction visited with
  | nil => exact .nil
  | @cons s t stmts news here rest ih =>
    have ih := ih fun s mem => goes s (List.mem_cons_of_mem _ mem)
    have goes := goes s List.mem_cons_self
    have goes_s : (Node.block b).goes (drops matcher) (.stmt s) = drops matcher s := rfl
    rw [Visited, goes_s] at here
    cases drop : drops matcher s with
    | true =>
      rw [drop, if_pos rfl] at here
      cases here
      rw [List.filter_cons_of_neg (by rw [drop]; exact Bool.false_ne_true),
        List.filter_cons_of_neg (by simpa using goes.mpr drop)]
      exact ih
    | false =>
      rw [drop, if_neg Bool.false_ne_true] at here
      have apart : t.id ∉ ids := by
        rcases here.new with same | new
        · cases same
          rw [goes, drop]
          exact Bool.false_ne_true
        · exact fun mem => Nat.not_lt_of_le new (old _ mem)
      rw [List.filter_cons_of_pos (by rw [drop]; rfl),
        List.filter_cons_of_pos (by simpa using apart)]
      exact .cons here ih

/-- An old id is not more often among the visited statements than among those of the block. -/
theorem countP_visited {stmts news : List Stmt} {id : NodeId} (old : id < mark)
    (visited : List.Forall₂ (fun s t => Visited matcher root mark (.block b) (.stmt s) (.stmt t))
      stmts news) : news.countP (·.id == id) ≤ stmts.countP (·.id == id) := by
  induction visited with
  | nil => exact Nat.le_refl _
  | @cons s t stmts news here rest ih =>
    rw [List.countP_cons, List.countP_cons]
    rcases here.new with same | new
    · cases same
      omega
    · have new : mark ≤ t.id := new
      have other : (t.id == id) = false :=
        beq_eq_false_iff_ne.mpr fun same => Nat.not_lt_of_le (same ▸ new) old
      rw [other]
      simp only [Bool.false_eq_true, if_false]
      omega

theorem Descended.stmts (h : Descended matcher root mark (.block before) (.block after)) :
    List.Forall₂ (fun s t => Visited matcher root mark (.block before) (.stmt s) (.stmt t))
      before.stmts after.stmts := by
  have children : List.Forall₂ (Visited matcher root mark (.block before))
    (before.stmts.map .stmt) (after.stmts.map .stmt) := h.children
  rwa [List.forall₂_map_left_iff, List.forall₂_map_right_iff] at children

/-- What a block becomes when its statements that go are taken out. -/
theorem Descended.removed (h : Descended matcher root mark (.block before) (.block after))
    (distinct : (root.subtree.map Node.id).Nodup) (old : ∀ m ∈ root.subtree, m.id < mark)
    (inside : .block before ∈ root.subtree) (isStatic : b.isStatic = after.isStatic)
    (stmts : b.stmts = after.stmts.filter
      (!((before.stmts.filter (drops matcher)).map (·.id)).contains ·.id))
    (kept : before.stmts.filter (drops matcher) = [] → b = after)
    (new : b = after ∨ mark ≤ b.id) :
    Node.Pruned (drops matcher) root mark (.block before) (.block b) := by
  have distinct_stmts : (before.stmts.map (·.id)).Nodup :=
    Node.distinct_stmts (Node.distinct_below distinct inside)
  have goes : ∀ s ∈ before.stmts, s.id ∈ (before.stmts.filter (drops matcher)).map (·.id) ↔
      drops matcher s = true := by
    intro s mem
    constructor
    · intro there
      obtain ⟨t, ht, same⟩ := List.mem_map.mp there
      obtain ⟨ht, drop⟩ := List.mem_filter.mp ht
      rwa [← List.inj_on_of_nodup_map distinct_stmts ht mem same]
    · exact fun drop => List.mem_map_of_mem (List.mem_filter.mpr ⟨mem, drop⟩)
  have early : ∀ id ∈ (before.stmts.filter (drops matcher)).map (·.id), id < mark := by
    intro id mem
    obtain ⟨s, hs, rfl⟩ := List.mem_map.mp mem
    exact old _ (Node.subtree_trans inside (Node.mem_subtree_of_child
      (List.mem_map_of_mem (List.mem_filter.mp hs).1) Node.mem_subtree_self))
  have staying : (Node.block before).staying (drops matcher) =
      (before.stmts.filter (!drops matcher ·)).map .stmt := by
    unfold Node.staying
    show (before.stmts.map Node.stmt).filter _ = _
    rw [List.filter_map]
    rfl
  refine .of_children distinct inside ?_ ?_ ?_ fun whole => ?_
  · show Node.Label.block b.isStatic = _
    rw [isStatic]
    exact h.label
  · show List.Forall₂ _ _ (b.stmts.map Node.stmt)
    rw [staying, stmts, List.forall₂_map_left_iff, List.forall₂_map_right_iff]
    exact staying_pruned h.stmts goes early
  · rcases new with rfl | new
    · exact h.new
    · exact .inr new
  · have nothing : before.stmts.filter (drops matcher) = [] := by
      have all := (Node.children_of_without_eq whole).1
      refine List.filter_eq_nil_iff.mpr fun s mem drop => ?_
      have stays := List.filter_eq_self.mp all (.stmt s) (List.mem_map_of_mem mem)
      have goes : (Node.block before).goes (drops matcher) (.stmt s) = drops matcher s := rfl
      rw [goes, drop] at stays
      cases stays
    rw [kept nothing]
    exact h.eq_of_without_eq whole

/-- At the end of the visit of a block its statements that go are taken out. -/
theorem repair_prunes (h : Descended matcher root mark (.block before) (.block after))
    (distinct : (root.subtree.map Node.id).Nodup) (old : ∀ m ∈ root.subtree, m.id < mark)
    (inside : .block before ∈ root.subtree) :
    VisitM.Triple
      (Waits mark
        ((.block before, removals matcher (.block before) (Node.block before).children) :: w))
      (repair .standard before after : PassM Unit Block) fun out site =>
        Waits mark ((.block before, []) :: w) site ∧
          Node.Pruned (drops matcher) root mark (.block before) (.block out) := by
  have anchors : (removals matcher (.block before) (Node.block before).children).map (·.anchor) =
      before.stmts.filter (drops matcher) := removals_block before
  have removes : ∀ fix ∈ removals matcher (.block before) (Node.block before).children,
      fix.kind = .remove := fun fix mem => kind_of_mem_removals mem
  generalize removals matcher (.block before) (Node.block before).children = fixes
    at anchors removes
  have ids : (before.stmts.filter (drops matcher)).map (·.id) = fixes.map (·.anchor.id) := by
    rw [← anchors, List.map_map]
    rfl
  have going : ∀ fix ∈ fixes, fix.anchor ∈ before.stmts ∧ drops matcher fix.anchor = true :=
    fun fix mem => List.mem_filter.mp (anchors ▸ List.mem_map_of_mem mem)
  have distinct_stmts : (before.stmts.map (·.id)).Nodup :=
    Node.distinct_stmts (Node.distinct_below distinct inside)
  have nodup : (fixes.map (·.anchor.id)).Nodup := by
    rw [← ids]
    exact (List.filter_sublist.map _).nodup distinct_stmts
  have there : ∀ fix ∈ fixes, fix.anchor ∈ after.stmts := by
    intro fix mem
    obtain ⟨inside, drop⟩ := going fix mem
    obtain ⟨t, ht, visited⟩ := exists_of_forall₂ h.stmts.flip inside
    have visited : Visited matcher root mark (.block before) (.stmt fix.anchor) (.stmt t) := visited
    have goes : (Node.block before).goes (drops matcher) (.stmt fix.anchor) = true := drop
    rw [Visited, goes, if_pos rfl] at visited
    exact Node.stmt.inj visited ▸ ht
  have single : ∀ fix ∈ fixes, after.stmts.countP (·.id == fix.anchor.id) ≤ 1 := by
    intro fix mem
    have early : fix.anchor.id < mark := old (.stmt fix.anchor) (Node.subtree_trans inside
      (Node.mem_subtree_of_child (List.mem_map_of_mem (going fix mem).1) Node.mem_subtree_self))
    refine Nat.le_trans (countP_visited early h.stmts) ?_
    have once := List.nodup_iff_count_le_one.mp distinct_stmts fix.anchor.id
    rwa [List.count, List.countP_map] at once
  unfold repair
  refine (Site.Waits.take _ _ _).bind fun pending => .assuming fun same => ?_
  cases pending with
  | none =>
    obtain rfl : [] = fixes := same
    refine .pure fun site waits =>
      ⟨waits, h.removed distinct old inside rfl ?_ (fun _ => rfl) (.inl rfl)⟩
    rw [ids]
    exact (List.filter_eq_self.mpr fun _ _ => rfl).symm
  | some pending =>
    obtain rfl : pending.fixes = fixes := same
    rintro site out site' waits ran
    obtain ⟨path, _, walked, ran⟩ := VisitM.ok_of_bind ran
    cases walked
    obtain ⟨c, site₂, ran, done⟩ := VisitM.ok_of_bind ran
    cases done
    rw [PendingFixes.ordered_eq_self fun fix mem => congrArg FixKind.tag (removes fix mem)] at ran
    let c : Repair := .start site.cursor.path before after
    obtain ⟨c', used, le, kept, new, isStatic, stmts, applied⟩ :=
      foldlM_removals (c := c) removes nodup there single site
    cases applied.symm.trans ran
    refine ⟨⟨waits.legible, waits.waiting, waits.asked, Nat.le_trans waits.late le⟩, ?_⟩
    refine h.removed distinct old inside isStatic ?_ (fun nothing => ?_) ?_
    · rw [ids]
      exact stmts
    · rw [← anchors, List.map_eq_nil_iff] at nothing
      rw [kept nothing]
      rfl
    · rcases new with same | new
      · exact .inl (by rw [same]; rfl)
      · exact .inr (Nat.le_trans waits.late new)

/-! ## The visit -/

/-- A node that does not go from a block is pruned. -/
theorem run_prunes {env : PassEnv} (standard : env.splicer = .standard)
    (distinct : (root.subtree.map Node.id).Nodup) (old : ∀ m ∈ root.subtree, m.id < mark) (n : Node)
    (inside : n ∈ root.subtree) (w : List (Node × List PendingFix))
    (stays : ∀ p ∈ w.head?, removal? env.matcher p.1 n = none) :
    VisitM.Triple (Waits mark ((n, []) :: w)) (((remedy env).visitor env).run n) fun out site =>
      Waits mark ((n, []) :: w) site ∧ Node.Pruned (drops env.matcher) root mark n out := by
  rw [Visitor.run_eq]
  unfold Remedy.visitor
  refine (enter_stays stays).bind fun go => .assuming ?_
  rintro rfl
  rw [if_pos rfl]
  refine (descend_visited distinct old inside fun c hc => run_prunes standard distinct old c
    (Node.subtree_trans inside (Node.mem_subtree_of_child hc Node.mem_subtree_self))).bind
      fun walked => ?_
  split
  next before after =>
    rw [standard]
    rintro site out site' ⟨waits, descended⟩ ran
    obtain ⟨_, _, left_, ran⟩ := VisitM.ok_of_bind ran
    cases left_
    obtain ⟨block, _, repaired, done⟩ := VisitM.ok_of_bind ran
    cases done
    exact repair_prunes descended distinct old inside waits repaired
  next unblocked =>
    rintro site out site' ⟨waits, descended⟩ ran
    cases ran
    have open_ : n.block? = none := by
      cases n with
      | block before =>
        have sort := Node.sameSort_of_label descended.label
        cases walked with
        | block after => exact (unblocked before after rfl rfl).elim
        | _ => cases sort
      | _ => rfl
    have nothing : removals env.matcher n n.children = [] := by
      refine List.filterMap_eq_nil_iff.mpr fun c _ => ?_
      rw [← Option.not_isSome_iff_eq_none, isSome_removal?, Node.goes_open open_]
      exact Bool.false_ne_true
    rw [nothing] at waits
    exact ⟨waits, descended.pruned open_ distinct inside⟩
termination_by sizeOf n
decreasing_by exact Node.sizeOf_lt_of_mem_children hc

/-- A statement that goes has nothing but expressions in it. -/
theorem alone_of_drops {s t : Stmt} (drop : drops matcher t = true)
    (mem : .stmt s ∈ (Node.stmt t).subtree) : s = t := by
  rw [Node.subtree_eq, List.mem_cons] at mem
  rcases mem with same | below
  · exact Node.stmt.inj same
  · obtain ⟨id, form⟩ := t
    cases form with
    | expr e =>
      obtain ⟨c, hc, below⟩ := List.mem_flatMap.mp below
      cases List.mem_singleton.mp hc
      obtain ⟨e', same⟩ := Node.expr_of_mem_subtree below
      cases same
    | _ => cases drop

/-- What the visit of a whole unit makes of it. -/
theorem runTree_prunes {env : PassEnv} {unit : CompilationUnit} (standard : env.splicer = .standard)
    (distinct : ((Node.unit unit).subtree.map Node.id).Nodup)
    (old : ∀ n ∈ (Node.unit unit).subtree, n.id < mark)
    (ran : ((remedy env).visitor env).runTree (.unit unit) mark () = .ok out site) :
    Waits mark [(.unit unit, [])] site ∧
      Node.Pruned (drops env.matcher) (.unit unit) mark (.unit unit) out :=
  run_prunes standard distinct old (.unit unit) Node.mem_subtree_self []
    (fun p mem => by cases mem) (waits_root unit mark) ran

/-- The pass makes of a unit what the visit does: no removal asks for an import. -/
theorem pass_prunes {env : PassEnv} {unit : CompilationUnit} (standard : env.splicer = .standard)
    (distinct : ((Node.unit unit).subtree.map Node.id).Nodup)
    (old : ∀ n ∈ (Node.unit unit).subtree, n.id < mark) {out : PassResult} {used : NodeId}
    (ran : pass env unit mark = (.ok out, used)) :
    Node.Pruned (drops env.matcher) (.unit unit) mark (.unit unit) (.unit out.unit) := by
  unfold pass Visitor.pass at ran
  split at ran
  next => cases ran
  next node site ended =>
    obtain ⟨waits, pruned⟩ := runTree_prunes standard distinct old ended
    dsimp only at ran
    split at ran
    next made =>
      split at ran
      next =>
        cases ran
        exact pruned
      next =>
        have nothing : site.cursor.takeFindings.2.takeImports.1.requested = [] := by
          rw [Cursor.requested_takeImports, Cursor.asked_takeFindings, waits.asked]
        have plain (next : NodeId) :
            site.cursor.takeFindings.2.takeImports.1.apply made next = (made, next) := by
          unfold ImportRequests.apply ImportRequests.lacking
          rw [nothing]
          rfl
        rw [plain] at ran
        cases ran
        exact pruned
    next other =>
      have sort := Node.sameSort_of_label pruned.label
      cases node with
      | unit made => exact (other made rfl).elim
      | _ => cases sort

end Seed

/-- The pass for predictable seeds deletes from every block of a unit the statements that
seed a generator predictably, and nothing else. What it does not delete and nothing is
deleted inside of is the node that it was. -/
theorem CatalogEntry.run_secureRandomSeed [GlobCompiler] {entry : CatalogEntry}
    (seed : entry.remediation = .secureRandomSeed) (settings : RemediationSettings)
    (matcher : CallMatcher) (limits : FlowLimits) {unit : CompilationUnit} {next : NodeId}
    (distinct : ((Node.unit unit).subtree.map Node.id).Nodup)
    (old : ∀ n ∈ (Node.unit unit).subtree, n.id < next) :
    ∃ out used, entry.run settings ⟨matcher, limits, .standard⟩ unit next = (.ok out, used) ∧
      (Node.unit out.unit).alike ((Node.unit unit).without (Seed.drops matcher)) = true ∧
      List.Forall₂ (fun left_ made => left_ ∈ (Node.unit unit).subtree → made = left_)
        ((Node.unit unit).without (Seed.drops matcher)).subtree (Node.unit out.unit).subtree ∧
      ∀ s, .stmt s ∈ (Node.unit unit).subtree → (Node.stmt s).Quiet (Seed.drops matcher) →
        (∀ b, .block b ∈ (Node.unit unit).subtree → s ∈ b.stmts → Seed.drops matcher s = false) →
        .stmt s ∈ (Node.unit out.unit).subtree := by
  have run : entry.run settings ⟨matcher, limits, .standard⟩ =
      Seed.pass ⟨matcher, limits, .standard⟩ := by
    unfold run
    rw [seed]
    rfl
  rw [run]
  have succeeds : (Seed.pass ⟨matcher, limits, .standard⟩).Succeeds := by
    refine Remedy.pass_succeeds ?_ (Seed.remedy_succeeds _) ()
    rfl
  obtain ⟨out, used, ran⟩ := succeeds unit next
  have pruned := Seed.pass_prunes rfl distinct old ran
  refine ⟨out, used, ran, pruned.alike, pruned.shared, fun s mem quiet stays => ?_⟩
  have left_ := Node.mem_subtree_without mem quiet stays fun t drop => Seed.alone_of_drops drop
  obtain ⟨made, there, same⟩ := exists_of_forall₂ pruned.shared.flip left_
  exact same mem ▸ there

section

attribute [local instance] GlobCompiler.standard

/-- Two seeds that go, one from a loop, and one that stays as the branch of a condition:
`void m() { r.setSeed(1); while (b()) { r.setSeed(2); use(); } if (b()) r.setSeed(3); }` -/
theorem run_secureRandomSeed_branch :
    let method : MethodRef := .method (.known Fqn.secureRandom) "setSeed" [.long] .void
    let seeding (id : NodeId) (seed : Int) : Stmt :=
      let generator : Expr := ⟨id + 2, .known Fqn.secureRandom, .ident "r" none⟩
      ⟨id, .expr ⟨id + 1, .void,
        .call (some generator) "setSeed" [⟨id + 3, .long, .literal (.int seed)⟩] (some method)⟩⟩
    let calls (id : NodeId) (name : String) : Expr := ⟨id, .boolean, .call none name [] none⟩
    let loop : Stmt := ⟨9, .whileLoop (calls 10 "b")
      ⟨11, .block ⟨12, false, [seeding 13 2, ⟨17, .expr (calls 18 "use")⟩]⟩⟩⟩
    let branch : Stmt := ⟨19, .ifElse (calls 20 "b") (seeding 21 3) none⟩
    let unit : CompilationUnit := ⟨0, none, [], [⟨1, ⟨[], "A", .known "A"⟩, ⟨2, false,
      [⟨3, .method ⟨[], some "void", "m", [], []⟩ (some ⟨4, false,
        [seeding 5 1, loop, branch]⟩)⟩]⟩⟩]⟩
    (Node.unit unit).subtree.countP (·.stmt?.any (Seed.drops .standard)) = 3 ∧
      ∀ entry ∈ Catalog.builtin.get? "secure-random-seed", ∃ out used,
        entry.run (.ofPreset .balanced) ⟨.standard, ⟨64, 8⟩, .standard⟩ unit 25 = (.ok out, used) ∧
        (Node.unit out.unit).alike ((Node.unit unit).without (Seed.drops .standard)) = true ∧
        ((Node.unit unit).without (Seed.drops .standard)).subtree.countP
          (·.stmt?.any (Seed.drops .standard)) = 1 := by
  intro method seeding calls loop branch unit
  refine ⟨by decide +kernel, ?_⟩
  intro entry found
  have seed : entry.remediation = .secureRandomSeed := by
    cases found
    rfl
  obtain ⟨out, used, ran, alike, -⟩ := CatalogEntry.run_secureRandomSeed seed
    (.ofPreset .balanced) .standard ⟨64, 8⟩
    (by decide +kernel : ((Node.unit unit).subtree.map Node.id).Nodup)
    (by decide +kernel : ∀ n ∈ (Node.unit unit).subtree, n.id < 25)
  exact ⟨out, used, ran, alike, by decide +kernel⟩

end

end JavaMend
