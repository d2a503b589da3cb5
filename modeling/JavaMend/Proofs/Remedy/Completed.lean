import Mathlib.Data.Option.Basic
import JavaMend.Proofs.Match.Members
import JavaMend.Proofs.Patch.Replaced
import JavaMend.Proofs.Traversal.Surface
import JavaMend.Proofs.Tree.Places
import JavaMend.Proofs.Tree.Sound
import JavaMend.Remedy.PathTraversal

/-!
# Completed checks

`PartialPath.completed` puts a separator behind the directory of every check of a tree, the
checks inside of the receivers and the directories of others included. It is one walk from
the inside out.

A visitor does the same from the outside in, by one replacement after the other:
`PartialPath.Underway` relates a tree to what has become of it meanwhile, where some
directories still wait. Putting the separator behind one of them takes it off those that
wait (`Underway.replaced`), wherever the checks around it have been moved to, as long as
nothing inside of its own check was touched yet. When none waits any more the walk is done
(`Underway.alike_completed`), and no check is left (`Underway.checked`).
-/

namespace JavaMend

/-- No node of the tree has two children of one id. -/
def Node.ToldApart (n : Node) : Prop :=
  ∀ m ∈ n.subtree, ∀ a ∈ m.children, ∀ b ∈ m.children, a.same b = true → a = b

theorem Node.ToldApart.child {n c : Node} (h : n.ToldApart) (mem : c ∈ n.children) : c.ToldApart :=
  fun m hm => h m (mem_subtree_of_child mem hm)

theorem Node.toldApart_of_children {n : Node}
    (own : ∀ a ∈ n.children, ∀ b ∈ n.children, a.same b = true → a = b)
    (below : ∀ c ∈ n.children, c.ToldApart) : n.ToldApart := by
  intro m mem
  rw [subtree_eq, List.mem_cons] at mem
  rcases mem with rfl | mem
  · exact own
  · obtain ⟨c, hc, mem⟩ := List.mem_flatMap.mp mem
    exact below c hc m mem

theorem Node.toldApart_of_distinct {n : Node} (distinct : (n.subtree.map Node.id).Nodup) :
    n.ToldApart := by
  intro m hm a ha b hb same
  have inside {c : Node} (hc : c ∈ m.children) : c ∈ n.subtree :=
    subtree_trans hm (mem_subtree_of_child hc mem_subtree_self)
  exact eq_of_id distinct (inside ha) (inside hb) (id_of_same same)

/-- A node does not stand below its children. -/
theorem Node.not_mem_of_child {n c : Node} (mem : c ∈ n.children) : n ∉ c.subtree := by
  have small : ∀ k ∈ c.subtree, sizeOf k ≤ sizeOf c := by
    clear mem
    induction c using Node.inductionOn with
    | step c ih =>
      intro k hk
      rw [subtree_eq, List.mem_cons] at hk
      rcases hk with rfl | hk
      · exact Nat.le_refl _
      · obtain ⟨d, hd, hk⟩ := List.mem_flatMap.mp hk
        exact Nat.le_trans (ih d hd k hk) (Nat.le_of_lt (sizeOf_lt_of_mem_children hd))
  exact fun below => Nat.not_lt_of_le (small n below) (sizeOf_lt_of_mem_children mem)

/-- Of two children none stands in the other. -/
theorem Node.child_eq_of_mem {n c d : Node} (distinct : (n.subtree.map Node.id).Nodup)
    (hc : c ∈ n.children) (hd : d ∈ n.children) (below : d ∈ c.subtree) : d = c := by
  obtain ⟨front, back, split⟩ := List.append_of_mem hc
  rw [split, List.mem_append, List.mem_cons] at hd
  by_contra other
  have beside : d ∈ front ++ back := by
    rw [List.mem_append]
    tauto
  exact (distinct_of_split split distinct).2 d beside d mem_subtree_self d below rfl

namespace PathTraversal.PartialPath

/-! ## Checks -/

/-- A check with its directory. -/
theorem directory?_eq_some {matcher : CallMatcher} {e d : Expr} :
    directory? matcher e = some d ↔
      matcher.acceptsAny e stringStartsWith = true ∧ e.args.head? = some d ∧
        matcher.acceptsAny d.unparen canonicalPath = true := by
  unfold directory?
  simp only [bind, Option.bind_eq_some_iff, Option.guard_eq_some']
  constructor
  · rintro ⟨-, starts, _, head, -, canonical, same⟩
    cases same
    exact ⟨starts, head, canonical⟩
  · rintro ⟨starts, head, canonical⟩
    exact ⟨(), starts, d, head, (), canonical, rfl⟩

theorem directory_mem_args {matcher : CallMatcher} {e d : Expr}
    (found : directory? matcher e = some d) : d ∈ e.args :=
  List.mem_of_mem_head? (directory?_eq_some.mp found).2.1

/-- The checks are the calls of `startsWith` of `String` for one text, whose argument is, inside
of parentheses, a call of `getCanonicalPath` of `File`. -/
theorem directory?_standard_eq_some {e directory : Expr} :
    directory? .standard e = some directory ↔
      (∃ m, e.method? = some m ∧ m.name = "startsWith" ∧ Fqn.string ∈ m.owner.names ∧
        ∃ ty, m.params = [ty] ∧ ty.isString = true) ∧
      e.args.head? = some directory ∧
      ∃ m, directory.unparen.method? = some m ∧ m.name = "getCanonicalPath" ∧
        Fqn.file ∈ m.owner.names ∧ m.params = [] := by
  have starts : stringStartsWith = [.exactly "java.lang.String startsWith(java.lang.String)"
      Fqn.string "startsWith" [.type (.exactly Fqn.string)]] := rfl
  have canonical : canonicalPath = [.exactly "java.io.File getCanonicalPath()" Fqn.file
      "getCanonicalPath" []] := rfl
  have reference (kind : Primitive) : kind.keyword ≠ Fqn.string := by
    cases kind <;> decide
  have string (ty : Ty) : (Glob.exactly Fqn.string).acceptsTy ty = true ↔ ty.isString = true :=
    Glob.acceptsTy_exactly reference
  simp only [directory?_eq_some, CallMatcher.acceptsAny_standard, starts, canonical,
    List.mem_singleton, exists_eq_left, Signature.accepts_exactly, Signature.acceptsArgs_type,
    Signature.acceptsArgs_nil, string]

variable (matcher : CallMatcher)

/-! ## The rewrite -/

/-- The directory of the check that a node is. -/
def directoryOf? (n : Node) : Option Expr := n.expr?.bind (directory? matcher)

/-- Is the child of the node the directory of the check that the node is? -/
def completes (n c : Node) : Bool := (directoryOf? matcher n).any fun d => c.same (.expr d)

/-- `directory + File.separator` -/
def mkSum (directory : Expr) : Fresh Expr := do
  Expr.mkAdd directory (← Expr.mkStaticField .file "separator" .string)

/-- The expression with a separator behind it. -/
def separated : Node → Node
  | .expr e => .expr (mkSum e 0).1
  | n => n

/-- The tree with a separator behind the directory of every check. -/
def completed (n : Node) : Node :=
  n.withChildren n.id (n.children.attach.map fun ⟨c, _⟩ =>
    if completes matcher n c then separated (completed c) else completed c)
termination_by sizeOf n
decreasing_by all_goals exact Node.sizeOf_lt_of_mem_children ‹_›

variable {matcher} {mark next used : NodeId} {waits waits' : NodeId → Prop} {n c out : Node}
  {place : Bool}

/-- What stands at the place of a child when both are completed. -/
def placed (matcher : CallMatcher) (place : Bool) (n : Node) : Node :=
  if place then separated (completed matcher n) else completed matcher n

theorem completed_eq (n : Node) : completed matcher n =
    n.withChildren n.id (n.children.map fun c => placed matcher (completes matcher n c) c) := by
  rw [completed]
  simp only [List.map_subtype, List.unattach_attach]
  rfl

theorem sameSort_completed (n : Node) : Node.SameSort n (completed matcher n) := by
  rw [completed_eq]
  cases n <;> rfl

theorem sameSort_placed (place : Bool) (n : Node) : Node.SameSort n (placed matcher place n) := by
  have sort : Node.SameSort n (completed matcher n) := sameSort_completed n
  unfold placed
  split
  · refine sort.trans ?_
    cases completed matcher n <;> rfl
  · exact sort

theorem refilled_completed (n : Node) : n.Refilled (completed matcher n)
    (n.children.map fun c => placed matcher (completes matcher n c) c) := by
  rw [completed_eq]
  refine n.refilled_withChildren n.id ?_
  rw [List.forall₂_map_right_iff]
  exact List.forall₂_same.mpr fun c _ => sameSort_placed _ c

/-! ## Sums -/

/-- The separator, made of new nodes. -/
def separator (field qualifier : NodeId) : Expr :=
  ⟨field, .string, .field ⟨qualifier, .file, .ident (Ty.file.simpleName?.getD "") none⟩ "separator"⟩

/-- A sum of an expression and the separator. All of it but the expression is new. -/
structure IsSum (mark : NodeId) (directory sum : Expr) : Prop where
  late : mark ≤ sum.id
  label : (Node.expr sum).label = .expr .string (.binary .add () ())
  children : ∃ field qualifier, mark ≤ field ∧ mark ≤ qualifier ∧
    (Node.expr sum).children = [.expr directory, .expr (separator field qualifier)]

theorem mkSum_eq (directory : Expr) (start : NodeId) : mkSum directory start =
    (⟨start + 2, .string, .binary .add directory (separator (start + 1) start)⟩, start + 3) := by
  show (Expr.mkAdd directory (separator (start + 1) start)) (start + 2) = _
  unfold Expr.mkAdd
  rw [show (separator (start + 1) start).ty.isString = true from rfl, Bool.or_true, if_pos rfl]
  rfl

/-- A sum is no call, and it stands in no parentheses. -/
theorem IsSum.unresolved {directory sum : Expr} (h : IsSum mark directory sum) :
    sum.method? = none ∧ sum.unparen = sum := by
  obtain ⟨id, ty, form⟩ := sum
  have shape := (Node.Label.expr.inj h.label).2
  cases form with
  | binary op left right => exact ⟨rfl, rfl⟩
  | _ => cases shape

/-- The nodes of the separator. -/
theorem mem_separator {field qualifier : NodeId} {m : Node}
    (mem : m ∈ (Node.expr (separator field qualifier)).subtree) :
    (m.id = field ∨ m.id = qualifier) ∧ ∃ e, m = .expr e ∧ e.method? = none := by
  rw [Node.subtree_eq, List.mem_cons] at mem
  rcases mem with rfl | mem
  · exact ⟨.inl rfl, _, rfl, rfl⟩
  · obtain ⟨c, hc, mem⟩ := List.mem_flatMap.mp mem
    cases List.mem_singleton.mp hc
    rw [Node.subtree_eq, List.mem_cons] at mem
    rcases mem with rfl | mem
    · exact ⟨.inr rfl, _, rfl, rfl⟩
    · obtain ⟨c, hc, -⟩ := List.mem_flatMap.mp mem
      cases hc

/-! ## On the way -/

/-- The children of a node, each with whether it is the directory of the check that the
node is. -/
def places (matcher : CallMatcher) (n : Node) : List (Bool × Node) :=
  n.children.map fun c => (completes matcher n c, c)

/-- `out` is what has become of `n`, which stands at the place of a directory or does not:
behind a directory there is a separator, unless the directory waits. What else was rebuilt
for it has its label and a new id. -/
inductive Underway (matcher : CallMatcher) (mark : NodeId) (waits : NodeId → Prop) :
    Bool × Node → Node → Prop where
  | plain {place : Bool} {n out : Node} (still : place = true → waits n.id)
      (label : out.label = n.label) (new : out = n ∨ mark ≤ out.id)
      (children : List.Forall₂ (Underway matcher mark waits) (places matcher n) out.children) :
      Underway matcher mark waits (place, n) out
  | summed {n : Node} {x sum : Expr} (inner : Underway matcher mark waits (false, n) (.expr x))
      (made : IsSum mark x sum) : Underway matcher mark waits (true, n) (.expr sum)

theorem mem_of_places {p : Bool × Node} (mem : p ∈ places matcher n) :
    p.2 ∈ n.children ∧ p.1 = completes matcher n p.2 := by
  obtain ⟨c, hc, rfl⟩ := List.mem_map.mp mem
  exact ⟨hc, rfl⟩

namespace Underway

theorem new (h : Underway matcher mark waits (place, n) out) : out = n ∨ mark ≤ out.id := by
  cases h with
  | plain _ _ new => exact new
  | summed _ made => exact .inr made.late

/-- What is older than the visit was there before. -/
theorem mem_of_old (h : Underway matcher mark waits (place, n) out) {m : Node}
    (mem : m ∈ out.subtree) (old : m.id < mark) : m ∈ n.subtree := by
  induction out using Node.inductionOn generalizing place n with
  | step out ih =>
    rw [Node.subtree_eq, List.mem_cons] at mem
    cases h with
    | plain still label new children =>
      rcases mem with rfl | mem
      · rcases new with rfl | late
        · exact Node.mem_subtree_self
        · exact absurd old (Nat.not_lt_of_le late)
      · obtain ⟨c', hc', below⟩ := List.mem_flatMap.mp mem
        obtain ⟨i, hi', rfl⟩ := List.mem_iff_getElem.mp hc'
        have hi : i < (places matcher n).length := children.length_eq ▸ hi'
        have child := (List.forall₂_iff_get.mp children).2 i hi hi'
        have inside := (mem_of_places (List.getElem_mem hi)).1
        exact Node.mem_subtree_of_child inside (ih _ hc' child below)
    | summed inner made =>
      obtain ⟨field, qualifier, late, late', two⟩ := made.children
      rcases mem with rfl | mem
      · exact absurd old (Nat.not_lt_of_le made.late)
      · obtain ⟨c', hc', below⟩ := List.mem_flatMap.mp mem
        rw [two] at ih hc'
        rcases List.mem_cons.mp hc' with rfl | hc'
        · exact ih _ List.mem_cons_self inner below
        · cases List.mem_singleton.mp hc'
          rcases (mem_separator below).1 with at_ | at_
          · exact absurd old (Nat.not_lt_of_le (at_ ▸ late))
          · exact absurd old (Nat.not_lt_of_le (at_ ▸ late'))

/-- Only what waits in the tree itself matters. -/
theorem congr (h : Underway matcher mark waits (place, n) out)
    (same : ∀ m ∈ n.subtree, waits m.id → waits' m.id) :
    Underway matcher mark waits' (place, n) out := by
  induction out using Node.inductionOn generalizing place n with
  | step out ih =>
    cases h with
    | plain still label new children =>
      refine .plain (fun at_ => same _ Node.mem_subtree_self (still at_)) label new ?_
      rw [List.forall₂_iff_zip] at children ⊢
      refine ⟨children.1, fun {p c'} pair => ?_⟩
      obtain ⟨mem, mem'⟩ := List.of_mem_zip pair
      exact ih c' mem' (children.2 pair)
        fun m hm => same m (Node.mem_subtree_of_child (mem_of_places mem).1 hm)
    | @summed _ x sum inner made =>
      obtain ⟨field, qualifier, -, -, two⟩ := made.children
      exact .summed (ih (.expr x) (two ▸ List.mem_cons_self) inner same) made

end Underway

/-! ## One replacement -/

/-- What the replacement of an expression makes of a tree, as far as later ones are
concerned: what the expression did not stand in, and what stood in it, is still there. -/
structure Replaced (next used : NodeId) (target : Expr) (out out' : Node) : Prop where
  late : next ≤ out'.id
  apart : out'.ToldApart
  early : ∀ m ∈ out'.subtree, m.id < used
  kept : ∀ m ∈ out.subtree, .expr target ∉ m.subtree ∨ m ∈ (Node.expr target).subtree →
    m ∈ out'.subtree

section

variable {front back olds rest : List Node} {found rebuilt out' : Node} {target e new : Expr}

/-- A node that is rebuilt around a child in which the expression stood. -/
theorem Replaced.around (split : out.children = front ++ found :: back)
    (children : out'.children = front ++ rebuilt :: back) (late : next ≤ out'.id)
    (below : out'.id < used) (le : next ≤ used) (apart : out.ToldApart)
    (early : ∀ m ∈ out.subtree, m.id < next) (there : .expr target ∈ found.subtree)
    (differs : ∀ s ∈ front ++ back, s.id ≠ rebuilt.id) (told : rebuilt.ToldApart)
    (bounded : ∀ m ∈ rebuilt.subtree, m.id < used)
    (kept : ∀ m ∈ found.subtree, .expr target ∉ m.subtree ∨ m ∈ (Node.expr target).subtree →
      m ∈ rebuilt.subtree) : Replaced next used target out out' := by
  have beside : ∀ s ∈ front ++ back, s ∈ out.children ∧ s ∈ out'.children := by
    intro s hs
    rw [split, children]
    simp only [List.mem_append, List.mem_cons] at hs ⊢
    tauto
  have cases_ : ∀ s ∈ out'.children, s ∈ front ++ back ∨ s = rebuilt := by
    intro s hs
    rw [children] at hs
    simp only [List.mem_append, List.mem_cons] at hs ⊢
    tauto
  refine ⟨late, Node.toldApart_of_children ?_ ?_, fun m mem => ?_, fun m mem free => ?_⟩
  · intro a ha b hb same
    rcases cases_ a ha with ha | rfl <;> rcases cases_ b hb with hb | rfl
    · exact apart out Node.mem_subtree_self a (beside a ha).1 b (beside b hb).1 same
    · exact (differs a ha (Node.id_of_same same)).elim
    · exact (differs b hb (Node.id_of_same same).symm).elim
    · rfl
  · intro s hs
    rcases cases_ s hs with hs | rfl
    · exact apart.child (beside s hs).1
    · exact told
  · rw [Node.subtree_eq, List.mem_cons] at mem
    rcases mem with rfl | mem
    · exact below
    · obtain ⟨s, hs, mem⟩ := List.mem_flatMap.mp mem
      rcases cases_ s hs with hs | rfl
      · exact Nat.lt_of_lt_of_le (early m (Node.mem_subtree_of_child (beside s hs).1 mem)) le
      · exact bounded m mem
  · have inside : found ∈ out.children := split ▸ List.mem_append_right _ List.mem_cons_self
    rw [Node.subtree_eq, List.mem_cons] at mem
    rcases mem with rfl | mem
    · -- The expression stands below the node that is rebuilt.
      have below := Node.mem_subtree_of_child inside there
      have mem := free.resolve_left fun absent => absent below
      exact (Node.not_mem_of_child inside (Node.subtree_trans there mem)).elim
    · obtain ⟨s, hs, mem⟩ := List.mem_flatMap.mp mem
      by_cases elsewhere : s ∈ front ++ back
      · exact Node.mem_subtree_of_child (beside s elsewhere).2 mem
      · have here : s = found := by
          rw [split] at hs
          simp only [List.mem_append, List.mem_cons] at hs elsewhere
          tauto
        refine Node.mem_subtree_of_child ?_ (kept m (here ▸ mem) free)
        rw [children]
        exact List.mem_append_right _ List.mem_cons_self

/-- The places of a node beside one of them. -/
theorem split_places {R : Bool × Node → Node → Prop}
    (h : List.Forall₂ R (places matcher n) (front ++ found :: back)) :
    ∃ olds c rest, n.children = olds ++ c :: rest ∧ R (completes matcher n c, c) found ∧
      List.Forall₂ R (olds.map fun c => (completes matcher n c, c)) front ∧
      List.Forall₂ R (rest.map fun c => (completes matcher n c, c)) back := by
  have fronts := List.forall₂_take_append _ _ _ h
  obtain ⟨p, places', here, backs, dropped⟩ :=
    List.forall₂_cons_right_iff.mp (List.forall₂_drop_append _ _ _ h)
  unfold places at fronts dropped
  rw [← List.map_take] at fronts
  rw [← List.map_drop] at dropped
  obtain ⟨c, rest, split, rfl, rfl⟩ := List.map_eq_cons_iff.mp dropped
  exact ⟨_, c, rest, by rw [← split, List.take_append_drop], here, fronts, backs⟩

theorem places_of_split (split : n.children = olds ++ c :: rest) :
    places matcher n = (olds.map fun c => (completes matcher n c, c)) ++
      (completes matcher n c, c) :: rest.map fun c => (completes matcher n c, c) := by
  unfold places
  rw [split, List.map_append, List.map_cons]

/-- The directory of a check is one of its children. -/
theorem directory_mem_children (check : directory? matcher e = some target) :
    Node.expr target ∈ (Node.expr e).children :=
  List.mem_map_of_mem (Expr.mem_children_of_args (directory_mem_args check))

theorem completes_directory (check : directory? matcher e = some target) :
    completes matcher (.expr e) (.expr target) = true := by
  unfold completes directoryOf?
  rw [Node.expr?, Option.bind_some, check]
  exact beq_self_eq_true target.id

/-- The directory itself, with the separator behind it. -/
theorem Underway.sum (h : Underway matcher mark waits (true, .expr target) (.expr target))
    (distinct : ((Node.expr target).subtree.map Node.id).Nodup) (old : target.id < mark)
    (made : IsSum mark target new) :
    Underway matcher mark (fun id => waits id ∧ id ≠ target.id) (true, .expr target)
      (.expr new) := by
  refine .summed ?_ made
  cases h with
  | summed _ sum => exact absurd old (Nat.not_lt_of_le sum.late)
  | plain _ label new children =>
    refine .plain (fun impossible => Bool.noConfusion impossible) label new ?_
    rw [List.forall₂_iff_zip] at children ⊢
    refine ⟨children.1, fun {p c'} pair => (children.2 pair).congr fun m hm noted => ⟨noted, ?_⟩⟩
    intro same
    have inside := (mem_of_places (List.of_mem_zip pair).1).1
    have there := Node.mem_subtree_of_child inside hm
    cases Node.eq_of_id distinct there Node.mem_subtree_self same
    exact Node.not_mem_of_child inside hm

/-- What waits in nodes that the directory is not in waits on. -/
theorem Underway.without {id : NodeId} {os fs : List Node}
    (h : List.Forall₂ (Underway matcher mark waits) (os.map fun c => (completes matcher n c, c)) fs)
    (elsewhere : ∀ d ∈ os, ∀ k ∈ d.subtree, k.id ≠ id) :
    List.Forall₂ (Underway matcher mark fun other => waits other ∧ other ≠ id)
      (os.map fun c => (completes matcher n c, c)) fs := by
  rw [List.forall₂_map_left_iff] at h ⊢
  rw [List.forall₂_iff_zip] at h ⊢
  refine ⟨h.1, fun pair => (h.2 pair).congr fun k hk waits => ⟨waits, ?_⟩⟩
  exact elsewhere _ (List.of_mem_zip pair).1 k hk

/-- A node that is rebuilt around the child that the directory was in. -/
theorem Underway.around (split : n.children = olds ++ c :: rest)
    (distinct : (n.subtree.map Node.id).Nodup) (below : .expr target ∈ c.subtree)
    (still : place = true → waits n.id)
    (fronts : List.Forall₂ (Underway matcher mark waits)
      (olds.map fun c => (completes matcher n c, c)) front)
    (backs : List.Forall₂ (Underway matcher mark waits)
      (rest.map fun c => (completes matcher n c, c)) back)
    (under : Underway matcher mark (fun id => waits id ∧ id ≠ target.id) (completes matcher n c, c)
      rebuilt)
    (label : out'.label = n.label) (late : mark ≤ out'.id)
    (children : out'.children = front ++ rebuilt :: back) :
    Underway matcher mark (fun id => waits id ∧ id ≠ target.id) (place, n) out' := by
  have inside : c ∈ n.children := split ▸ List.mem_append_right _ List.mem_cons_self
  have beside := (Node.distinct_of_split split distinct).2
  refine .plain (fun at_ => ⟨still at_, fun same => ?_⟩) label (.inr late) ?_
  · -- The node itself is not the directory.
    have at_ : n = .expr target := Node.eq_of_id distinct Node.mem_subtree_self
      (Node.mem_subtree_of_child inside below) same
    exact Node.not_mem_of_child inside (at_ ▸ below)
  · rw [children, places_of_split split]
    refine List.rel_append (Underway.without fronts fun d hd k hk => ?_)
      (.cons under (Underway.without backs fun d hd k hk => ?_))
    · exact beside d (List.mem_append_left _ hd) k hk _ below
    · exact beside d (List.mem_append_right _ hd) k hk _ below

/-- An old node in the operands of a sum is in the first one. -/
theorem IsSum.operand {directory sum : Expr} (h : IsSum mark directory sum) {k m : Node}
    (hk : k ∈ (Node.expr sum).children) (hm : m ∈ k.subtree) (old : m.id < mark) :
    k = .expr directory := by
  obtain ⟨field, qualifier, late, late', two⟩ := h.children
  rw [two] at hk
  rcases List.mem_cons.mp hk with here | hk
  · exact here
  · cases List.mem_singleton.mp hk
    rcases (mem_separator hm).1 with at_ | at_
    · exact absurd old (Nat.not_lt_of_le (at_ ▸ late))
    · exact absurd old (Nat.not_lt_of_le (at_ ▸ late'))

/-- A sum that is rebuilt around another first operand. -/
theorem IsSum.around {directory sum other : Expr} (h : IsSum mark directory sum)
    (split : (Node.expr sum).children = front ++ .expr directory :: back) {m : Node}
    (hm : m ∈ (Node.expr directory).subtree) (old : m.id < mark)
    (label : out'.label = (Node.expr sum).label) (late : mark ≤ out'.id)
    (children : out'.children = front ++ .expr other :: back) :
    ∃ sum', out' = .expr sum' ∧ IsSum mark other sum' := by
  have label := label.trans h.label
  obtain ⟨field, qualifier, lateField, lateQualifier, two⟩ := h.children
  obtain ⟨rfl, rfl⟩ : front = [] ∧ back = [.expr (separator field qualifier)] := by
    rw [two] at split
    cases front with
    | nil => exact ⟨rfl, (List.cons.inj split).2.symm⟩
    | cons f front =>
      have last := (List.cons.inj split).2
      have only : Node.expr directory ∈ [Node.expr (separator field qualifier)] :=
        last ▸ List.mem_append_right _ List.mem_cons_self
      rw [List.mem_singleton.mp only] at hm
      rcases (mem_separator hm).1 with at_ | at_
      · exact absurd old (Nat.not_lt_of_le (at_ ▸ lateField))
      · exact absurd old (Nat.not_lt_of_le (at_ ▸ lateQualifier))
  cases out' with
  | expr sum' =>
    exact ⟨sum', rfl, late, label, field, qualifier, lateField, lateQualifier, children⟩
  | _ => cases label

/-- What is rebuilt is not the same node as what is beside it. -/
theorem Replaced.differs (h : Replaced next used target found rebuilt)
    (split : out.children = front ++ found :: back) (early : ∀ m ∈ out.subtree, m.id < next) :
    ∀ s ∈ front ++ back, s.id ≠ rebuilt.id := by
  intro s hs same
  have sibling : s ∈ out.children := by
    rw [split]
    simp only [List.mem_append, List.mem_cons] at hs ⊢
    tauto
  have old := early s (Node.mem_subtree_of_child sibling Node.mem_subtree_self)
  exact Nat.not_lt_of_le h.late (same ▸ old)

/-- A node around one that was rebuilt. -/
theorem Replaced.outward {start id : NodeId} (h : Replaced start id target found rebuilt)
    (split : out.children = front ++ found :: back)
    (children : out'.children = front ++ rebuilt :: back)
    (at_ : out'.id = id) (apart : out.ToldApart) (early : ∀ m ∈ out.subtree, m.id < next)
    (le : next ≤ start) (grown : start ≤ id) (there : .expr target ∈ found.subtree) :
    Replaced next (id + 1) target out out' :=
  .around split children (at_ ▸ Nat.le_trans le grown) (at_ ▸ Nat.lt_succ_self id)
    (Nat.le_succ_of_le (Nat.le_trans le grown)) apart early there
    (h.differs split fun m hm => Nat.lt_of_lt_of_le (early m hm) le) h.apart
    (fun m hm => Nat.lt_succ_of_lt (h.early m hm)) h.kept

/-- The check itself, as it was: the separator comes behind its directory. -/
theorem Underway.replaced_check {id : NodeId}
    (h : Underway matcher mark waits (place, .expr e) (.expr e))
    (distinct : ((Node.expr e).subtree.map Node.id).Nodup)
    (old : ∀ m ∈ (Node.expr e).subtree, m.id < mark) (check : directory? matcher e = some target)
    (made : IsSum mark target new) (from_ : mark ≤ next) (grown : next ≤ id)
    (fresh : ∀ m ∈ (Node.expr new).subtree, m.id < next) (toldNew : (Node.expr new).ToldApart)
    (split : (Node.expr e).children = front ++ .expr target :: back)
    (label : out'.label = (Node.expr e).label) (at_ : out'.id = id)
    (children : out'.children = front ++ .expr new :: back) :
    Underway matcher mark (fun id => waits id ∧ id ≠ target.id) (place, .expr e) out' ∧
      Replaced next (id + 1) target (.expr e) out' := by
  have child : Node.expr target ∈ (Node.expr e).children := directory_mem_children check
  have early : ∀ m ∈ (Node.expr e).subtree, m.id < next := fun m hm =>
    Nat.lt_of_lt_of_le (old m hm) from_
  have distinct_child := Node.distinct_child distinct child
  have old_target := old _ (Node.mem_subtree_of_child child Node.mem_subtree_self)
  constructor
  · cases h with
    | summed _ sum => exact absurd (old _ Node.mem_subtree_self) (Nat.not_lt_of_le sum.late)
    | plain still _ _ pairs =>
      obtain ⟨olds, c, rest, splitN, under, fronts, backs⟩ := split_places (split ▸ pairs)
      have length : olds.length = front.length := by
        rw [← fronts.length_eq, List.length_map]
      obtain ⟨rfl, same⟩ := List.append_inj (splitN.symm.trans split) length
      obtain ⟨rfl, rfl⟩ := List.cons.inj same
      have here : completes matcher (.expr e) (.expr target) = true := completes_directory check
      refine .around splitN distinct Node.mem_subtree_self still fronts backs ?_ label
        (at_ ▸ Nat.le_trans from_ grown) children
      rw [here] at under ⊢
      exact under.sum distinct_child old_target made
  · refine .around split children (at_ ▸ grown) (at_ ▸ Nat.lt_succ_self id)
      (Nat.le_succ_of_le grown) (Node.toldApart_of_distinct distinct) early Node.mem_subtree_self
      (fun s hs same => ?_) toldNew (fun m hm => Nat.lt_succ_of_lt ?_) fun m hm _ => ?_
    · have sibling : s ∈ (Node.expr e).children := by
        rw [split]
        simp only [List.mem_append, List.mem_cons] at hs ⊢
        tauto
      have old_s : s.id < mark := old s (Node.mem_subtree_of_child sibling Node.mem_subtree_self)
      have same : s.id = new.id := same
      exact Nat.not_lt_of_le made.late (same ▸ old_s)
    · exact Nat.lt_of_lt_of_le (fresh m hm) grown
    · obtain ⟨field, qualifier, -, -, two⟩ := made.children
      exact Node.mem_subtree_of_child (two ▸ List.mem_cons_self) hm

/-- Putting the separator behind the directory of a check that nothing was done to yet. -/
theorem Underway.replaced (h : Underway matcher mark waits (place, n) out)
    (distinct : (n.subtree.map Node.id).Nodup) (old : ∀ m ∈ n.subtree, m.id < mark)
    (check : directory? matcher e = some target) (inside : .expr e ∈ n.subtree)
    (intact : .expr e ∈ out.subtree) (made : IsSum mark target new) (from_ : mark ≤ next)
    (fresh : ∀ m ∈ (Node.expr new).subtree, m.id < next) (toldNew : (Node.expr new).ToldApart)
    (apart : out.ToldApart) (early : ∀ m ∈ out.subtree, m.id < next)
    (ran : out.replaceExpr? target new next = (some out', used)) :
    Underway matcher mark (fun id => waits id ∧ id ≠ target.id) (place, n) out' ∧
      Replaced next used target out out' := by
  induction out using Node.inductionOn generalizing place n next used out' with
  | step out ih =>
    have child : Node.expr target ∈ (Node.expr e).children := directory_mem_children check
    have in_check : Node.expr target ∈ (Node.expr e).subtree :=
      Node.mem_subtree_of_child child Node.mem_subtree_self
    have below : Node.expr target ∈ n.subtree := Node.subtree_trans inside in_check
    rcases Node.replaceExpr?_cases ran with
      ⟨same, -, -⟩ | ⟨-, c, hc, start, id, rebuilt, le, inner, rfl, rfl⟩
    · -- The check would stand inside of its directory.
      have at_ : out.id = target.id := Node.id_of_same same
      rcases h.new with rfl | late
      · cases Node.eq_of_id distinct Node.mem_subtree_self below at_
        exact (Node.not_mem_of_child child intact).elim
      · exact absurd (at_ ▸ old _ below) (Nat.not_lt_of_le late)
    · obtain ⟨front, found, back, split, sameChild, refilled⟩ :=
        Node.replaceChild_refilled id hc (Node.replaceExpr?_sameSort inner)
      have mem : found ∈ out.children := split ▸ List.mem_append_right _ List.mem_cons_self
      cases apart out Node.mem_subtree_self found mem c hc sameChild
      have grown : start ≤ id := (Node.replaceExpr?_grows target new c).le inner
      have ids : (out.replaceChild id c rebuilt).id = id := Node.id_withChildren _ _ _
      have late : mark ≤ (out.replaceChild id c rebuilt).id := by
        rw [ids]
        exact Nat.le_trans from_ (Nat.le_trans le grown)
      have freshAt : ∀ m ∈ (Node.expr new).subtree, m.id < start :=
        fun m hm => Nat.lt_of_lt_of_le (fresh m hm) le
      have earlyAt : ∀ m ∈ c.subtree, m.id < start :=
        fun m hm => Nat.lt_of_lt_of_le (early m (Node.mem_subtree_of_child hc hm)) le
      -- What is found is the directory itself: it is older than the visit.
      obtain ⟨m, hm, same⟩ := Node.replaceExpr?_found inner
      have old_m : m.id < mark := Node.id_of_same same ▸ old _ below
      cases Node.eq_of_id distinct (h.mem_of_old (Node.mem_subtree_of_child hc hm) old_m) below
        (Node.id_of_same same)
      cases h with
      | plain still label new' children =>
        by_cases here : out = .expr e
        · have unchanged : out = n := by
            refine new'.resolve_right fun late => ?_
            rw [here] at late
            exact Nat.not_lt_of_le late (old _ inside)
          subst unchanged
          subst here
          cases Node.child_eq_of_mem distinct hc child hm
          rw [Node.replaceExpr?, if_pos (Node.same_self _)] at inner
          cases inner
          exact Underway.replaced_check (.plain still label new' children) distinct old check made
            from_ (Nat.le_trans le grown) fresh toldNew split refilled.label ids refilled.children
        · obtain ⟨olds, c₀, rest, splitN, child₀, fronts, backs⟩ := split_places (split ▸ children)
          have hc₀ : c₀ ∈ n.children := splitN ▸ List.mem_append_right _ List.mem_cons_self
          have below₀ : .expr target ∈ c₀.subtree := child₀.mem_of_old hm old_m
          have old_e : e.id < mark := old _ inside
          -- The check is in the child that its directory is in.
          have intact₀ : .expr e ∈ c.subtree := by
            rw [Node.subtree_eq, List.mem_cons] at intact
            obtain ⟨k, hk, there⟩ := List.mem_flatMap.mp (intact.resolve_left (Ne.symm here))
            have beside := (Node.distinct_of_split splitN distinct).2
            have elsewhere {os fs : List Node} (subset : ∀ d ∈ os, d ∈ olds ++ rest)
                (h : List.Forall₂ (Underway matcher mark waits)
                  (os.map fun c => (completes matcher n c, c)) fs) : k ∉ fs := by
              intro hk
              rw [List.forall₂_map_left_iff] at h
              obtain ⟨k₀, hk₀, under⟩ := exists_of_forall₂ h hk
              have there₀ := Node.subtree_trans (under.mem_of_old there old_e) in_check
              exact beside k₀ (subset k₀ hk₀) _ there₀ _ below₀ rfl
            rw [split, List.mem_append, List.mem_cons] at hk
            rcases hk with hk | rfl | hk
            · exact (elsewhere (fun d hd => List.mem_append_left _ hd) fronts hk).elim
            · exact there
            · exact (elsewhere (fun d hd => List.mem_append_right _ hd) backs hk).elim
          obtain ⟨under, replaced⟩ := ih c hc child₀ (Node.distinct_child distinct hc₀)
            (fun m hm => old m (Node.mem_subtree_of_child hc₀ hm)) (child₀.mem_of_old intact₀ old_e)
            intact₀ (Nat.le_trans from_ le) freshAt (apart.child hc) earlyAt inner
          exact ⟨.around splitN distinct below₀ still fronts backs under
              (refilled.label.trans label) late refilled.children,
            replaced.outward split refilled.children ids apart early le grown hm⟩
      | @summed _ x sum inner₀ made₀ =>
        cases made₀.operand hc hm old_m
        have intact₀ : .expr e ∈ (Node.expr x).subtree := by
          rw [Node.subtree_eq, List.mem_cons] at intact
          rcases intact with same | intact
          · exact absurd (old _ inside) (Nat.not_lt_of_le (same ▸ made₀.late))
          · obtain ⟨k, hk, there⟩ := List.mem_flatMap.mp intact
            exact made₀.operand hk there (old _ inside) ▸ there
        obtain ⟨under, replaced⟩ := ih _ hc inner₀ distinct old inside intact₀
          (Nat.le_trans from_ le) freshAt (apart.child hc) earlyAt inner
        have sort := Node.replaceExpr?_sameSort inner
        have whole := replaced.outward split refilled.children ids apart early le grown hm
        cases rebuilt with
        | expr x' =>
          obtain ⟨sum', same, made'⟩ := made₀.around split hm old_m refilled.label late
            refilled.children
          rw [same] at whole ⊢
          exact ⟨.summed under made', whole⟩
        | _ => cases sort

end

/-! ## When nothing waits any more -/

theorem separator_alike (a b c d : NodeId) :
    (Node.expr (separator a b)).alike (.expr (separator c d)) = true :=
  Node.alike_iff.mpr ⟨rfl, .cons (Node.alike_iff.mpr ⟨rfl, .nil⟩) .nil⟩

/-- When no directory waits any more, the walk is done. -/
theorem Underway.alike_completed (h : Underway matcher mark (fun _ => False) (place, n) out) :
    out.alike (placed matcher place n) = true := by
  induction out using Node.inductionOn generalizing place n with
  | step out ih =>
    cases h with
    | plain still label new children =>
      have refilled : n.Refilled (completed matcher n) _ := refilled_completed n
      cases place with
      | true => exact (still rfl).elim
      | false =>
        refine Node.alike_iff.mpr ⟨label.trans refilled.label.symm, ?_⟩
        show List.Forall₂ _ out.children (completed matcher n).children
        rw [refilled.children, List.forall₂_map_right_iff]
        unfold places at children
        rw [List.forall₂_map_left_iff, List.forall₂_iff_zip] at children
        refine List.Forall₂.flip ?_
        rw [List.forall₂_iff_zip]
        exact ⟨children.1, fun pair => ih _ (List.of_mem_zip pair).2 (children.2 pair)⟩
    | @summed _ x sum inner made =>
      obtain ⟨field, qualifier, -, -, two⟩ := made.children
      have operand := ih _ (two ▸ List.mem_cons_self) inner
      have sort : Node.SameSort n (completed matcher n) := sameSort_completed n
      have operand : (Node.expr x).alike (completed matcher n) = true := operand
      show (Node.expr sum).alike (separated (completed matcher n)) = true
      generalize completed matcher n = n' at operand
      cases n' with
      | expr y =>
        show (Node.expr sum).alike (.expr (mkSum y 0).1) = true
        rw [mkSum_eq]
        refine Node.alike_iff.mpr ⟨made.label, ?_⟩
        rw [two]
        exact .cons operand (.cons (separator_alike _ _ _ _) .nil)
      | _ => cases (Node.alike_iff.mp operand).1

/-! ## No check is left -/

/-- An expression that is resolved to nothing is no check. -/
theorem directoryOf?_of_method {e : Expr} (unresolved : e.method? = none) :
    directoryOf? .standard (.expr e) = none := by
  cases found : directoryOf? .standard (.expr e) with
  | none => rfl
  | some d =>
    have accepted := (directory?_eq_some.mp found).1
    rw [CallMatcher.acceptsAny_of_none unresolved] at accepted
    cases accepted

/-- The operands of an expression under way. -/
theorem Underway.related {e e' : Expr} {waits : NodeId → Prop}
    (label : (Node.expr e').label = (Node.expr e).label)
    (children : List.Forall₂ (Underway matcher mark waits) (places matcher (.expr e))
      (Node.expr e').children) :
    ExprForm.Related (fun c c' => Underway matcher mark waits
      (completes matcher (.expr e) (.expr c), .expr c) (.expr c')) e.form e'.form := by
  unfold places at children
  rw [List.forall₂_map_left_iff] at children
  exact (ExprForm.related_of_label label children).2

/-- Inside of the parentheses there is a call of the same method as before. -/
theorem Underway.unparen {e e' : Expr} {waits : NodeId → Prop}
    (h : Underway .standard mark waits (false, .expr e) (.expr e')) :
    e'.unparen.method? = e.unparen.method? := by
  fun_induction Expr.unparen e generalizing e' with
  | case1 id ty inner ih =>
    cases h with
    | plain _ label _ children =>
      have related := Underway.related label children
      obtain ⟨id', ty', form'⟩ := e'
      cases related with
      | @parens _ inner' under =>
        rw [show completes .standard (.expr ⟨id, ty, .parens inner⟩) (.expr inner) = false by
          unfold completes
          rw [directoryOf?_of_method rfl]
          rfl] at under
        rw [Expr.unparen]
        exact ih under
  | case2 e other =>
    cases h with
    | plain _ label _ children =>
      have same := (Expr.args_related (Underway.related label children)).1
      rw [Expr.unparen.eq_def]
      split
      next id ty inner =>
        have shape := (Node.Label.expr.inj label).2
        obtain ⟨id', ty', form⟩ := e
        cases form with
        | parens inner => exact (other _ _ _ rfl).elim
        | _ => cases shape
      next => exact same

/-- Where no directory waits any more, an expression that was rebuilt is no check. -/
theorem Underway.unchecked {e e' : Expr} (label : (Node.expr e').label = (Node.expr e).label)
    (children : List.Forall₂ (Underway .standard mark fun _ => False) (places .standard (.expr e))
      (Node.expr e').children) : directoryOf? .standard (.expr e') = none := by
  obtain ⟨method, args⟩ := Expr.args_related (Underway.related label children)
  cases found : directoryOf? .standard (.expr e') with
  | none => rfl
  | some d' =>
    obtain ⟨starts, head', canonical⟩ := directory?_eq_some.mp found
    obtain ⟨d, head, under⟩ : ∃ d, e.args.head? = some d ∧ Underway .standard mark (fun _ => False)
        (completes .standard (.expr e) (.expr d), .expr d) (.expr d') := by
      generalize e.args = olds at args
      generalize e'.args = news at args head'
      cases args with
      | nil => cases head'
      | cons under _ =>
        cases head'
        exact ⟨_, rfl, under⟩
    cases place : completes .standard (.expr e) (.expr d) with
    | true =>
      rw [place] at under
      cases under with
      | plain still => exact (still rfl).elim
      | summed _ made =>
        obtain ⟨unresolved, unparen⟩ := made.unresolved
        rw [unparen, CallMatcher.acceptsAny_of_none unresolved] at canonical
        cases canonical
    | false =>
      -- The check would have been one before.
      rw [place] at under
      rw [CallMatcher.acceptsAny_congr method] at starts
      rw [CallMatcher.acceptsAny_congr under.unparen] at canonical
      have check := directory?_eq_some.mpr ⟨starts, head, canonical⟩
      exact Bool.noConfusion (place.symm.trans (completes_directory check))

/-- When no directory waits any more, no check is left. -/
theorem Underway.checked (h : Underway .standard mark (fun _ => False) (place, n) out) :
    ∀ m ∈ out.subtree, directoryOf? .standard m = none := by
  induction out using Node.inductionOn generalizing place n with
  | step out ih =>
    intro m mem
    rw [Node.subtree_eq, List.mem_cons] at mem
    cases h with
    | plain still label new children =>
      rcases mem with rfl | mem
      · cases m with
        | expr e' =>
          cases n with
          | expr e => exact Underway.unchecked label children
          | _ => cases label
        | _ => rfl
      · obtain ⟨c', hc', below⟩ := List.mem_flatMap.mp mem
        obtain ⟨p, -, child⟩ := exists_of_forall₂ children hc'
        exact ih c' hc' child m below
    | @summed _ x sum inner made =>
      obtain ⟨field, qualifier, -, -, two⟩ := made.children
      rcases mem with rfl | mem
      · exact directoryOf?_of_method made.unresolved.1
      · obtain ⟨c', hc', below⟩ := List.mem_flatMap.mp mem
        have of_two := hc'
        rw [two] at of_two
        rcases List.mem_cons.mp of_two with rfl | last
        · exact ih _ hc' inner m below
        · cases List.mem_singleton.mp last
          obtain ⟨-, e, rfl, unresolved⟩ := mem_separator below
          exact directoryOf?_of_method unresolved

end PathTraversal.PartialPath

end JavaMend
