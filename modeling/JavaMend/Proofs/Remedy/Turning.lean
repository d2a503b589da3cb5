import JavaMend.Proofs.Remedy.Entries
import JavaMend.Proofs.Tree.Sound

/-!
# Properties of expressions

Fixes take an expression out of a statement and put another one into its place. What is
known about every expression of a tree then has to be known of the new one, and the
expressions around it must not mind the exchange (`Survives`). Where this is so for each
fix, a visit of a tree in which all expressions are `P` makes a tree in which all are `Q`:
this is the regime `Regime.turning`.
-/

namespace JavaMend

/-- Every expression below the node has the property. -/
def Node.AllExprs (P : Expr → Prop) (n : Node) : Prop := n.All fun m => ∀ e ∈ m.expr?, P e

instance {P : Expr → Prop} [DecidablePred P] (n : Node) : Decidable (n.AllExprs P) :=
  inferInstanceAs (Decidable (∀ m ∈ n.subtree, ∀ e ∈ m.expr?, P e))

section

variable {P Q : Expr → Prop} {n c : Node} {e : Expr}

theorem Node.allExprs_of_children (plain : n.expr? = none)
    (children : ∀ c ∈ n.children, c.AllExprs P) : n.AllExprs P := by
  refine all_iff.mpr ⟨fun e mem => ?_, children⟩
  rw [plain] at mem
  cases mem

theorem Node.AllExprs.mem (h : n.AllExprs P) (mem : .expr e ∈ n.subtree) : P e := h _ mem e rfl

theorem Node.AllExprs.below (h : n.AllExprs P) (mem : c ∈ n.subtree) : c.AllExprs P :=
  fun m inside => h m (Node.subtree_trans mem inside)

theorem Node.AllExprs.imp (h : n.AllExprs P) (imp : ∀ e, .expr e ∈ n.subtree → P e → Q e) :
    n.AllExprs Q := by
  intro m mem e isExpr
  cases m with
  | expr e' =>
    cases isExpr
    exact imp e mem (h.mem mem)
  | _ => cases isExpr

theorem Node.AllExprs.and (h : n.AllExprs P) (other : n.AllExprs Q) :
    n.AllExprs fun e => P e ∧ Q e := fun m mem e at_ => ⟨h m mem e at_, other m mem e at_⟩

theorem Expr.allExprs_iff : (Node.expr e).AllExprs P ↔
    P e ∧ ∀ c ∈ e.children, (Node.expr c).AllExprs P := by
  unfold Node.AllExprs
  rw [Node.all_iff]
  constructor
  · rintro ⟨self, children⟩
    exact ⟨self e rfl, fun c mem => children _ (List.mem_map_of_mem mem)⟩
  · rintro ⟨self, children⟩
    refine ⟨fun e' same => ?_, fun c mem => ?_⟩
    · cases same
      exact self
    · obtain ⟨sub, inside, rfl⟩ := List.mem_map.mp mem
      exact children sub inside

end

/-! ## Exchanging expressions -/

/-- What becomes of an operand where expressions that are `gone` give way to `new`: it stays
what it is, it is rebuilt around what gave way, or it gives way itself. -/
inductive Expr.Swaps (old : NodeId → Prop) (gone : Expr → Prop) (new : Expr) : Expr → Expr → Prop where
  | stays (e : Expr) : Swaps old gone new e e
  | rebuilt {e e' : Expr} (late : ¬ old e'.id) (label : (Node.expr e').label = (Node.expr e).label) :
      Swaps old gone new e e'
  | gives {e : Expr} (here : gone e) : Swaps old gone new e new

/-- The property stays with an expression if operands that are `gone` give way to `new`. -/
def Survives (old : NodeId → Prop) (Q : Expr → Prop) (gone : Expr → Prop) (new : Expr) : Prop :=
  ∀ e e' : Expr, (Node.expr e').label = (Node.expr e).label →
    List.Forall₂ (Expr.Swaps old gone new) e.children e'.children → Q e → Q e'

/-- What becomes of a node: all its expressions keep the property. -/
structure Node.Swapped (old : NodeId → Prop) (Q gone : Expr → Prop) (new : Expr) (m m' : Node) :
    Prop where
  all : m.AllExprs Q → m'.AllExprs Q
  operand : ∀ e, m = .expr e → ∃ e', m' = .expr e' ∧ Expr.Swaps old gone new e e'

section

variable {old : NodeId → Prop} {Q gone : Expr → Prop} {new : Expr}

theorem Node.Swapped.self (m : Node) : Swapped old Q gone new m m :=
  ⟨fun all => all, fun e here => ⟨e, here, .stays e⟩⟩

theorem Node.Swapped.given {e : Expr} (here : gone e) (made : (Node.expr new).AllExprs Q) :
    Swapped old Q gone new (.expr e) (.expr new) := by
  refine ⟨fun _ => made, fun e' same => ?_⟩
  cases same
  exact ⟨new, rfl, .gives here⟩

theorem Node.Swapped.rebuilt (survives : Survives old Q gone new) {m m' : Node} {news : List Node}
    (late : ¬ old m'.id) (refilled : m.Refilled m' news)
    (children : List.Forall₂ (Swapped old Q gone new) m.children news) :
    Swapped old Q gone new m m' := by
  have below (all : m.AllExprs Q) : ∀ c ∈ m'.children, c.AllExprs Q := by
    intro c mem
    rw [refilled.children] at mem
    obtain ⟨was, inside, swapped⟩ := exists_of_forall₂ children mem
    exact swapped.all (all.child inside)
  cases m with
  | expr e =>
    cases m' with
    | expr e' =>
      refine ⟨fun all => ?_, fun x same => ?_⟩
      · refine Node.all_iff.mpr ⟨fun x same => ?_, below all⟩
        cases same
        refine survives e e' refilled.label ?_ (all.mem mem_subtree_self)
        rw [← refilled.children] at children
        refine (List.forall₂_map_right_iff.mp (List.forall₂_map_left_iff.mp children)).imp ?_
        intro c c' swapped
        obtain ⟨d, same, swaps⟩ := swapped.operand c rfl
        cases same
        exact swaps
      · cases same
        exact ⟨e', rfl, .rebuilt late refilled.label⟩
    | _ => cases refilled.label
  | _ =>
    refine ⟨fun all => allExprs_of_children ?_ (below all), fun e same => nomatch same⟩
    cases m' <;> first | rfl | cases refilled.label

/-- Putting an expression into the place of another one. -/
theorem Stmt.replaceExpr?_allExprs {s s' : Stmt} {target : Expr} {next used : NodeId}
    (survives : Survives old Q (· = target) new) (made : (Node.expr new).AllExprs Q)
    (late : ∀ id, next ≤ id → ¬ old id) (coherent : (Node.stmt s).Coherent)
    (only : ∀ m ∈ (Node.stmt s).subtree, m.same (.expr target) = true → m = .expr target)
    (h : s.replaceExpr? target new next = (some s', used)) (all : (Node.stmt s).AllExprs Q) :
    (Node.stmt s').AllExprs Q :=
  (Node.replaceExpr?_keeps Node.Swapped.self
    (fun _ _ _ new refilled children => .rebuilt survives (late _ new) refilled children)
    (.given rfl made) coherent only (Nat.le_refl next) (Stmt.replaceExpr?_node h)).all all

/-- Putting an expression into the place of all that are alike. -/
theorem Stmt.replaceAlike?_allExprs {s s' : Stmt} {target : Expr} {next used : NodeId}
    (survives : Survives old Q (fun e => (Node.expr e).isAlikeExpr target = true) new)
    (made : (Node.expr new).AllExprs Q) (late : ∀ id, ¬ old id)
    (h : s.replaceAlike? target new next = (some s', used)) (all : (Node.stmt s).AllExprs Q) :
    (Node.stmt s').AllExprs Q :=
  (Node.replaceAlike?_keeps Node.Swapped.self
    (fun _ _ _ refilled children => .rebuilt survives (late _) refilled children)
    (fun _ alike => .given alike made) (Stmt.replaceAlike?_node h)).all all

end

/-! ## The regime -/

/-- The fix leaves expressions with the property, wherever it is applied. -/
structure PendingFix.Turns (old : NodeId → Prop) (Q : Expr → Prop) (fix : PendingFix) : Prop where
  written : ∀ s ∈ fix.kind.written, (Node.stmt s).AllExprs Q
  replaces : ∀ new imports, fix.kind = .replace new imports →
    (Node.expr new).AllExprs Q ∧ Survives old Q (· = fix.tainted) new
  guards : ∀ variant message parent thrown next, fix.kind = .guardAfter variant message →
    fix.parent = some parent →
    (Node.stmt (mkGuard variant thrown message fix.tainted parent next).1).AllExprs Q
  extracts : fix.kind.tag = .extract → (Node.expr fix.tainted).AllExprs Q ∧ (∀ id, ¬ old id) ∧
    ∀ name next, Q (Expr.mkIdent name fix.tainted.ty next).1 ∧
      Survives old Q (fun e => (Node.expr e).isAlikeExpr fix.tainted = true)
        (Expr.mkIdent name fix.tainted.ty next).1

/-- The regime under which the nodes that are `inside` turn from `P` to `Q`. -/
def Regime.turning (inside : Node → Prop) (old : NodeId → Prop) (P Q : Expr → Prop)
    (hidden : Expr → Bool) (tree : Multiset Node) (mark : NodeId) : Regime where
  hidden := hidden
  tree := tree
  mark := mark
  fits _ fix := inside (.stmt fix.anchor) → (Node.stmt fix.anchor).AllExprs P → fix.Turns old Q
  became _ n out := inside n → n.AllExprs P → out.AllExprs Q
  segment _ s seg := inside (.stmt s) → (Node.stmt s).AllExprs P →
    ∀ t ∈ seg.stmts, (Node.stmt t).AllExprs Q

section

variable {old : NodeId → Prop} {P Q : Expr → Prop} {fix : PendingFix} {tainted new : Expr}

theorem PendingFix.Turns.of_replace {anchor : Stmt} {imports : List String}
    (made : (Node.expr new).AllExprs Q) (survives : Survives old Q (· = tainted) new) :
    Turns old Q ⟨anchor, tainted, none, .replace new imports⟩ where
  written _ none := (List.not_mem_nil none).elim
  replaces _ _ kind := by
    cases kind
    exact ⟨made, survives⟩
  guards _ _ _ _ _ kind := nomatch kind
  extracts tag := nomatch tag

/-- A fix that only writes statements, or removes one. -/
theorem PendingFix.Turns.of_written (written : ∀ s ∈ fix.kind.written, (Node.stmt s).AllExprs Q)
    (tag : fix.kind.tag = .insertAfter ∨ fix.kind.tag = .insertBefore ∨ fix.kind.tag = .remove) :
    Turns old Q fix where
  written := written
  replaces _ _ kind := by
    rw [kind] at tag
    rcases tag with tag | tag | tag <;> cases tag
  guards _ _ _ _ _ kind := by
    rw [kind] at tag
    rcases tag with tag | tag | tag <;> cases tag
  extracts other := by
    rw [other] at tag
    rcases tag with tag | tag | tag <;> cases tag

/-- What a fix makes of a statement. -/
theorem FixStep.allExprs {next used : NodeId} {core : Stmt} {before after : List Stmt}
    {core' : Option Stmt} (turns : fix.Turns old Q) (late : ∀ id, next ≤ id → ¬ old id)
    (step : FixStep next used fix core before core' after)
    (replaces : fix.kind.tag = .replace → (Node.stmt core).Coherent ∧
      ∀ m ∈ (Node.stmt core).subtree, m.same (.expr fix.tainted) = true → m = .expr fix.tainted)
    (all : (Node.stmt core).AllExprs Q) :
    ∀ t ∈ before ++ core'.toList ++ after, (Node.stmt t).AllExprs Q := by
  intro t mem
  cases step with
  | extract kind above below hread hchanged hdeclaration =>
    obtain ⟨own, never, reads⟩ := turns.extracts (by rw [kind]; rfl)
    simp only [Option.toList, List.append_nil, List.mem_append, List.mem_singleton] at mem
    rcases mem with rfl | rfl
    · cases hdeclaration
      refine Node.allExprs_of_children rfl fun c mem => ?_
      cases List.mem_singleton.mp mem
      refine Node.allExprs_of_children rfl fun c mem => ?_
      cases List.mem_singleton.mp mem
      exact own
    · cases hread
      obtain ⟨leaf, survives⟩ := reads _ _
      refine Stmt.replaceAlike?_allExprs survives ?_ never hchanged all
      exact Expr.allExprs_iff.mpr ⟨leaf, fun c none => (List.not_mem_nil none).elim⟩
  | guardAfter kind hparent above below hguard =>
    simp only [Option.toList, List.nil_append, List.mem_append, List.mem_singleton] at mem
    rcases mem with rfl | rfl
    · exact all
    · cases hguard
      exact turns.guards _ _ _ _ _ kind hparent
  | replace kind below hchanged =>
    cases List.mem_singleton.mp mem
    obtain ⟨coherent, only⟩ := replaces (by rw [kind]; rfl)
    obtain ⟨made, survives⟩ := turns.replaces _ _ kind
    exact Stmt.replaceExpr?_allExprs survives made late coherent only hchanged all
  | insertAfter kind =>
    rcases List.mem_append.mp mem with mem | mem
    · cases List.mem_singleton.mp mem
      exact all
    · exact turns.written t (by rw [kind]; exact mem)
  | insertBefore kind =>
    rw [List.append_nil] at mem
    rcases List.mem_append.mp mem with mem | mem
    · exact turns.written t (by rw [kind]; exact mem)
    · cases List.mem_singleton.mp mem
      exact all
  | remove kind => cases mem

end

namespace Regime

variable {inside : Node → Prop} {old : NodeId → Prop} {P Q : Expr → Prop} {hidden : Expr → Bool}
  {tree : Multiset Node} {mark : NodeId}

theorem turning_lawful (drawn : Drawn 0 mark tree)
    (below : ∀ n c, inside n → c ∈ n.children → inside c)
    (weaker : ∀ e, inside (.expr e) → P e → Q e) (labelled : ∀ new, Survives old Q (fun _ => False) new)
    (olds : ∀ id, old id → id < mark) : (turning inside old P Q hidden tree mark).Lawful where
  drawn := drawn
  became_self _ n at_ all := by
    have within : ∀ m ∈ n.subtree, inside m := by
      induction n using Node.inductionOn with
      | step n ih =>
        intro m mem
        rw [Node.subtree_eq, List.mem_cons] at mem
        rcases mem with rfl | mem
        · exact at_
        · obtain ⟨c, child, mem⟩ := List.mem_flatMap.mp mem
          exact ih c child (below n c at_ child) (all.child child) m mem
    exact all.imp fun e mem => weaker e (within _ mem)
  became_refilled above n out news refilled children at_ all := by
    have kept : ∀ c ∈ out.children, c.AllExprs Q := by
      intro c mem
      rw [refilled.children] at mem
      obtain ⟨was, child, became⟩ := exists_of_forall₂ children mem
      exact became.became (below n was at_ child) (all.child child)
    cases n with
    | expr e =>
      cases out with
      | expr e' =>
        refine Node.all_iff.mpr ⟨fun x same => ?_, kept⟩
        cases same
        refine labelled e e e' refilled.label ?_ (weaker e at_ (all.mem Node.mem_subtree_self))
        have same := refilled.children
        rw [Became.children_of_expr children] at same
        rw [List.map_injective_iff.mpr (fun _ _ => Node.expr.inj) same]
        exact List.forall₂_same.mpr fun c _ => .stays c
      | _ => cases refilled.label
    | _ =>
      refine Node.allExprs_of_children ?_ kept
      cases out <;> first | rfl | cases refilled.label
  segment_visited b above s s' mem became at_ all t here := by
    cases List.mem_singleton.mp here
    exact became.became at_ all
  segment_step path fix front core back next used before core' after anchored kept le step replaces
      at_ all t mem := by
    rcases Segment.mem_stmts_of_step mem with mem | mem
    · exact kept at_ all t mem
    · refine step.allExprs (anchored.fits at_ all) (fun id later isOld => ?_) replaces
        (kept at_ all core (by simp [Segment.stmts])) t mem
      exact Nat.not_lt_of_le (Nat.le_trans le later) (olds id isOld)
  became_repaired b out above parts anchors _ stmts segments at_ all := by
    refine Node.allExprs_of_children rfl fun c mem => ?_
    obtain ⟨t, written, rfl⟩ := List.mem_map.mp mem
    rw [stmts] at written
    obtain ⟨p, part, here⟩ := List.mem_flatMap.mp written
    have child : Node.stmt p.1 ∈ (Node.block b).children :=
      List.mem_map_of_mem (anchors ▸ List.mem_map_of_mem part)
    exact segments p part (below _ _ at_ child) (all.child child) t here

/-- A fix for the statement around an expression. -/
theorem fitsNear_turning {e : Expr} {above : List Node} {fix : PendingFix}
    (stands : (turning inside old P Q hidden tree mark).Stands (.expr e) above)
    (found : (⟨.expr e :: above⟩ : Path).anchor? = some fix.anchor)
    (turns : inside (.stmt fix.anchor) → (Node.stmt fix.anchor).AllExprs P →
      .expr e ∈ (Node.stmt fix.anchor).subtree → fix.Turns old Q) :
    (turning inside old P Q hidden tree mark).FitsNear (.expr e :: above) fix := by
  obtain ⟨-, -, -, -, -, -, surface⟩ := Path.anchor?_of_expr stands.genuine found
  intro front b up split open_ at_ all
  exact turns at_ all (Node.mem_subtree_of_surface surface)

end Regime

end JavaMend
