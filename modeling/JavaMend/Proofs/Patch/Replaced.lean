import JavaMend.Patch.Replace
import JavaMend.Proofs.Tree.Parts

/-!
# Replaced expressions

What `Node.replaceExpr?` and `Node.replaceAlike?` make of a node, read off their
answers (`Node.replaceExpr?_cases`, `Node.replaceAlike?_cases`), and what this
means for the nodes of the tree. The first takes the target out of the tree and puts
the new expression in once. The second takes every alike expression out, the target
among them, and puts the new one in at each of the places; it is only accounted for
where the new expression is left out of the count.
-/

namespace JavaMend

open Fresh (Spends)

/-! ## Searching children -/

theorem Fresh.Grows.firstAnswer {α β : Type} {f : α → Fresh (Option β)} {items : List α}
    (h : ∀ a ∈ items, (f a).Grows) : (JavaMend.firstAnswer f items).Grows := by
  induction items with
  | nil => exact pure none
  | cons a items ih =>
    refine (h a List.mem_cons_self).bind fun answer => ?_
    cases answer with
    | some b => exact pure _
    | none => exact ih fun a' mem => h a' (List.mem_cons_of_mem _ mem)

/-- What each of some makers answers holds of the answers in a row. -/
theorem Fresh.forall₂_mapM {α β : Type} {f : α → Fresh β} {holds : α → β → Prop} {items : List α}
    (h : ∀ a ∈ items, ∀ next, holds a (f a next).1) (next : NodeId) :
    List.Forall₂ holds items (items.mapM f next).1 := by
  induction items generalizing next with
  | nil =>
    rw [List.mapM_nil]
    exact .nil
  | cons a items ih =>
    rw [List.mapM_cons]
    exact .cons (h a List.mem_cons_self next) (ih (fun a' mem => h a' (List.mem_cons_of_mem _ mem)) _)

/-- The element that the first answer comes from. -/
theorem firstAnswer_some {α β : Type} {f : α → Fresh (Option β)} {items : List α}
    (grows : ∀ a ∈ items, (f a).Grows) {next used : NodeId} {b : β}
    (h : firstAnswer f items next = (some b, used)) :
    ∃ a ∈ items, ∃ start, next ≤ start ∧ f a start = (some b, used) := by
  induction items generalizing next with
  | nil => cases h
  | cons a items ih =>
    rw [firstAnswer] at h
    cases first : f a next with
    | mk answer after =>
      rw [Fresh.bind_of_eq first] at h
      cases answer with
      | some b' =>
        cases h
        exact ⟨a, List.mem_cons_self, next, Nat.le_refl _, first⟩
      | none =>
        obtain ⟨a', mem, start, le, found⟩ := ih (fun a' mem => grows a' (List.mem_cons_of_mem _ mem)) h
        have grown := (grows a List.mem_cons_self).le first
        exact ⟨a', List.mem_cons_of_mem _ mem, start, Nat.le_trans grown le, found⟩

/-- Where an element always has an answer, there is a first one. -/
theorem firstAnswer_isSome {α β : Type} {f : α → Fresh (Option β)} {items : List α} {a : α}
    (mem : a ∈ items) (answers : ∀ next, (f a next).1.isSome) (next : NodeId) :
    (firstAnswer f items next).1.isSome := by
  induction items generalizing next with
  | nil => cases mem
  | cons first items ih =>
    rw [firstAnswer]
    cases found : f first next with
    | mk answer after =>
      rw [Fresh.bind_of_eq found]
      cases answer with
      | some b => rfl
      | none =>
        rcases List.mem_cons.mp mem with rfl | mem
        · have := answers next
          rw [found] at this
          cases this
        · exact ih mem after

namespace Node

variable {target new : Expr} {n out : Node} {next used : NodeId}

/-! ## By identity -/

theorem replaceExpr?_grows (target new : Expr) (n : Node) : (n.replaceExpr? target new).Grows := by
  rw [replaceExpr?]
  split
  · exact .pure _
  · refine .firstAnswer fun c _ => ?_
    obtain ⟨c, hc⟩ := c
    refine (replaceExpr?_grows target new c).bind fun answer => ?_
    cases answer with
    | some rebuilt => exact Fresh.Grows.freshId.bind fun _ => .pure _
    | none => exact .pure _
termination_by sizeOf n
decreasing_by exact sizeOf_lt_of_mem_children hc

/-- An answer is the new expression in place of the target, or the node rebuilt
around a child with an answer. -/
theorem replaceExpr?_cases (h : n.replaceExpr? target new next = (some out, used)) :
    (n.same (.expr target) = true ∧ out = .expr new ∧ used = next) ∨
      n.same (.expr target) = false ∧
        ∃ c ∈ n.children, ∃ start id rebuilt, next ≤ start ∧
          c.replaceExpr? target new start = (some rebuilt, id) ∧
          out = n.replaceChild id c rebuilt ∧ used = id + 1 := by
  rw [replaceExpr?] at h
  split at h
  next same =>
    cases h
    exact .inl ⟨same, rfl, rfl⟩
  next other =>
    rw [Bool.not_eq_true] at other
    refine .inr ⟨other, ?_⟩
    obtain ⟨⟨c, hc⟩, -, start, le, found⟩ := firstAnswer_some (fun c _ => by
      refine (replaceExpr?_grows target new c.1).bind fun answer => ?_
      cases answer with
      | some rebuilt => exact Fresh.Grows.freshId.bind fun _ => .pure _
      | none => exact .pure _) h
    dsimp only at found
    cases inner : c.replaceExpr? target new start with
    | mk answer id =>
      rw [Fresh.bind_of_eq inner] at found
      cases answer with
      | none => cases found
      | some rebuilt =>
        cases found
        exact ⟨c, hc, start, id, rebuilt, le, inner, rfl, rfl⟩

theorem replaceExpr?_sameSort (h : n.replaceExpr? target new next = (some out, used)) :
    SameSort n out := by
  rcases replaceExpr?_cases h with ⟨same, rfl, -⟩ | ⟨-, c, hc, start, id, rebuilt, -, -, rfl, -⟩
  · cases n with
    | expr e => rfl
    | _ => cases same
  · cases n <;> rfl

/-- There is an answer only where the target stands. -/
theorem replaceExpr?_found (h : n.replaceExpr? target new next = (some out, used)) :
    ∃ m ∈ n.subtree, m.same (.expr target) = true := by
  induction n using Node.inductionOn generalizing next used out with
  | step n ih =>
    rcases replaceExpr?_cases h with ⟨same, -⟩ | ⟨-, c, hc, start, id, rebuilt, -, inner, -⟩
    · exact ⟨n, mem_subtree_self, same⟩
    · obtain ⟨m, hm, same⟩ := ih c hc inner
      exact ⟨m, mem_subtree_of_child hc hm, same⟩

/-- Where the target stands, there is an answer. -/
theorem replaceExpr?_isSome (new : Expr) {m : Node} (below : m ∈ n.subtree)
    (same : m.same (.expr target) = true) (next : NodeId) :
    (n.replaceExpr? target new next).1.isSome := by
  induction n using Node.inductionOn generalizing next with
  | step n ih =>
    rw [replaceExpr?]
    split
    · rfl
    next other =>
      rw [subtree_eq, List.mem_cons] at below
      rcases below with rfl | below
      · exact (other same).elim
      · obtain ⟨c, hc, below⟩ := List.mem_flatMap.mp below
        refine firstAnswer_isSome (List.mem_attach _ ⟨c, hc⟩) (fun start => ?_) next
        dsimp only
        have answered := ih c hc below start
        cases inner : c.replaceExpr? target new start with
        | mk answer after =>
          rw [inner] at answered
          obtain ⟨rebuilt, rfl⟩ := Option.isSome_iff_exists.mp answered
          rw [Fresh.bind_of_eq inner]
          rfl

/-- What holds of the target and the new expression, and of a node that is rebuilt around
children of which it holds, holds of an answer. -/
theorem replaceExpr?_keeps {keeps : Node → Node → Prop} {mark : NodeId} (self : ∀ m, keeps m m)
    (rebuilt : ∀ m m' news, mark ≤ m'.id → m.Refilled m' news →
      List.Forall₂ keeps m.children news → keeps m m')
    (replaced : keeps (.expr target) (.expr new)) (coherent : n.Coherent)
    (only : ∀ m ∈ n.subtree, m.same (.expr target) = true → m = .expr target) (late : mark ≤ next)
    (h : n.replaceExpr? target new next = (some out, used)) : keeps n out := by
  induction n using Node.inductionOn generalizing next used out with
  | step n ih =>
    rcases replaceExpr?_cases h with ⟨same, rfl, -⟩ |
      ⟨-, c, hc, start, id, inner, later, below, rfl, -⟩
    · cases only n mem_subtree_self same
      exact replaced
    · have kept := ih c hc (coherent.child hc) (fun m mem => only m (mem_subtree_of_child hc mem))
        (Nat.le_trans late later) below
      have new : mark ≤ (n.replaceChild id c inner).id := by
        rw [replaceChild, id_withChildren]
        exact Nat.le_trans late (Nat.le_trans later ((replaceExpr?_grows target _ c).le below))
      obtain ⟨front, found, back, split, same, refilled⟩ :=
        replaceChild_refilled id hc (replaceExpr?_sameSort below)
      have mem : found ∈ n.children := split ▸ List.mem_append_right _ List.mem_cons_self
      cases coherent.eq_of_same mem hc same
      refine rebuilt n _ _ new refilled (split ▸ List.rel_append ?_ (.cons kept ?_)) <;>
        exact List.forall₂_same.mpr fun m _ => self m

/-- The target leaves the tree and the new expression comes in; what is rebuilt on
the way is new. -/
theorem replaceExpr?_parts (hidden : Expr → Bool) (coherent : n.Coherent)
    (only : ∀ m ∈ n.subtree, m.same (.expr target) = true → m = .expr target)
    (h : n.replaceExpr? target new next = (some out, used)) :
    ∃ drawn, Drawn next used drawn ∧
      out.parts hidden + target.parts hidden ≤ n.parts hidden + new.parts hidden + drawn := by
  induction n using Node.inductionOn generalizing next used out with
  | step n ih =>
    rcases replaceExpr?_cases h with ⟨same, rfl, rfl⟩ | ⟨-, c, hc, start, id, rebuilt, le, inner, rfl, rfl⟩
    · cases only n mem_subtree_self same
      refine ⟨0, .zero (Nat.le_refl _), le_of_eq ?_⟩
      show new.parts hidden + target.parts hidden = target.parts hidden + new.parts hidden + 0
      abel
    · obtain ⟨drawn, hdrawn, below⟩ := ih c hc (coherent.child hc)
        (fun m mem => only m (mem_subtree_of_child hc mem)) inner
      obtain ⟨front, found, back, split, same, refilled⟩ :=
        replaceChild_refilled id hc (replaceExpr?_sameSort inner)
      have mem : found ∈ n.children := split ▸ List.mem_append_right _ List.mem_cons_self
      cases coherent.eq_of_same mem hc same
      refine ⟨drawn + {n.replaceChild id c rebuilt},
        (hdrawn.mono le (Nat.le_refl _)).add (.single (id_withChildren _ _ _)), ?_⟩
      have around := parts_le hidden (n.replaceChild id c rebuilt)
      have children := partsOf_children_le hidden n
      rw [refilled.children, partsOf_append, partsOf_cons] at around
      rw [split, partsOf_append, partsOf_cons] at children
      calc (n.replaceChild id c rebuilt).parts hidden + target.parts hidden
          ≤ {n.replaceChild id c rebuilt} + (partsOf hidden front +
              (rebuilt.parts hidden + partsOf hidden back)) + target.parts hidden := by gcongr
        _ = (rebuilt.parts hidden + target.parts hidden) + (partsOf hidden front +
              partsOf hidden back) + {n.replaceChild id c rebuilt} := by abel
        _ ≤ (c.parts hidden + new.parts hidden + drawn) + (partsOf hidden front +
              partsOf hidden back) + {n.replaceChild id c rebuilt} := by gcongr
        _ = (partsOf hidden front + (c.parts hidden + partsOf hidden back)) + new.parts hidden +
              (drawn + {n.replaceChild id c rebuilt}) := by abel
        _ ≤ n.parts hidden + new.parts hidden + (drawn + {n.replaceChild id c rebuilt}) := by gcongr

/-! ## By structure -/

/-- A child with the answer for it. -/
def withAnswer (target new : Expr) (c : Node) : Fresh (Node × Option Node) :=
  return (c, ← c.replaceAlike? target new)

theorem replaceAlike?_eq (target new : Expr) (n : Node) :
    n.replaceAlike? target new =
      if n.isAlikeExpr target then return some (.expr new)
      else do
        let answers ← n.children.mapM (withAnswer target new)
        if answers.any (·.2.isSome) then
          return some (← n.rebuild (answers.map fun (old, new) => new.getD old))
        else return none := by
  rw [replaceAlike?]
  simp only [List.mapM_subtype, List.unattach_attach]
  rfl

theorem withAnswer_of_eq {c : Node} {answer : Option Node}
    (h : c.replaceAlike? target new next = (answer, used)) :
    withAnswer target new c next = ((c, answer), used) :=
  Fresh.bind_of_eq h

theorem replaceAlike?_grows (target new : Expr) (n : Node) :
    (n.replaceAlike? target new).Grows := by
  rw [replaceAlike?_eq]
  split
  · exact .pure _
  · refine (Fresh.Grows.mapM fun c (hc : c ∈ n.children) => ?_).bind fun answers => ?_
    · exact (replaceAlike?_grows target new c).bind fun _ => .pure _
    · split
      · exact (Fresh.Grows.freshId.bind fun _ => .pure _).bind fun _ => .pure _
      · exact .pure _
termination_by sizeOf n
decreasing_by exact sizeOf_lt_of_mem_children hc

/-- What a child becomes: itself, or an answer for it. -/
def BecomesAlike (target new : Expr) (c c' : Node) : Prop :=
  c' = c ∨ ∃ start used, c.replaceAlike? target new start = (some c', used)

/-- An answer is the new expression in place of an alike one, or the node rebuilt
around what its children become. -/
theorem replaceAlike?_cases (h : n.replaceAlike? target new next = (some out, used)) :
    (n.isAlikeExpr target = true ∧ out = .expr new ∧ used = next) ∨
      n.isAlikeExpr target = false ∧
        ∃ answers id, n.children.mapM (withAnswer target new) next =
            (answers, id) ∧
          out = n.withChildren id (answers.map fun (old, new) => new.getD old) ∧
          used = id + 1 := by
  rw [replaceAlike?_eq] at h
  split at h
  next alike =>
    cases h
    exact .inl ⟨alike, rfl, rfl⟩
  next other =>
    rw [Bool.not_eq_true] at other
    refine .inr ⟨other, ?_⟩
    cases inner : n.children.mapM (withAnswer target new) next with
    | mk answers id =>
      rw [Fresh.bind_of_eq inner] at h
      split at h
      · cases h
        exact ⟨answers, id, rfl, rfl, rfl⟩
      · cases h

theorem replaceAlike?_sameSort (h : n.replaceAlike? target new next = (some out, used)) :
    SameSort n out := by
  rcases replaceAlike?_cases h with ⟨alike, rfl, -⟩ | ⟨-, answers, id, -, rfl, -⟩
  · cases n with
    | expr e => rfl
    | _ => cases alike
  · cases n <;> rfl

/-- The children of a node with what they become. -/
theorem forall₂_becomesAlike {answers : List (Node × Option Node)} {children : List Node}
    (h : children.mapM (withAnswer target new) next =
      (answers, used)) :
    List.Forall₂ (BecomesAlike target new) children
      (answers.map fun (old, new) => new.getD old) := by
  have each : List.Forall₂ (fun c answer => BecomesAlike target new c (answer.2.getD answer.1))
      children (children.mapM (withAnswer target new) next).1 := Fresh.forall₂_mapM
    (fun c _ start => by
      cases found : c.replaceAlike? target new start with
      | mk answer after =>
        rw [withAnswer_of_eq found]
        cases answer with
        | none => exact .inl rfl
        | some c' => exact .inr ⟨start, after, found⟩) next
  rw [h] at each
  exact List.forall₂_map_right_iff.mpr each

theorem BecomesAlike.sameSort {c c' : Node} (h : BecomesAlike target new c c') : SameSort c c' := by
  rcases h with rfl | ⟨start, used, h⟩
  · rfl
  · exact replaceAlike?_sameSort h

/-- What holds of an alike expression and the new one, and of a node that is rebuilt around
children of which it holds, holds of an answer. -/
theorem replaceAlike?_keeps {keeps : Node → Node → Prop} (self : ∀ m, keeps m m)
    (rebuilt : ∀ m m' news, m.Refilled m' news → List.Forall₂ keeps m.children news → keeps m m')
    (replaced : ∀ e, (Node.expr e).isAlikeExpr target = true → keeps (.expr e) (.expr new))
    (h : n.replaceAlike? target new next = (some out, used)) : keeps n out := by
  induction n using Node.inductionOn generalizing next used out with
  | step n ih =>
    rcases replaceAlike?_cases h with ⟨alike, rfl, -⟩ | ⟨-, answers, id, inner, rfl, -⟩
    · cases n with
      | expr e => exact replaced e alike
      | _ => cases alike
    · have become := forall₂_becomesAlike inner
      refine rebuilt n _ _ (n.refilled_withChildren id (become.imp fun _ _ h => h.sameSort)) ?_
      rw [List.forall₂_iff_zip] at become ⊢
      refine ⟨become.1, fun {c c'} mem => ?_⟩
      rcases become.2 mem with rfl | ⟨start, used, answered⟩
      · exact self c'
      · exact ih c (List.of_mem_zip mem).1 answered

/-- Where the target stands below a node, there is an answer. -/
theorem replaceAlike?_isSome (new : Expr) (below : .expr target ∈ n.subtree) (next : NodeId) :
    (n.replaceAlike? target new next).1.isSome := by
  induction n using Node.inductionOn generalizing next with
  | step n ih =>
    rw [replaceAlike?_eq]
    split
    · rfl
    next other =>
      rw [subtree_eq, List.mem_cons] at below
      rcases below with rfl | below
      · exact (other (alike_refl (.expr target))).elim
      · obtain ⟨c, hc, below⟩ := List.mem_flatMap.mp below
        cases inner : n.children.mapM (withAnswer target new) next with
        | mk answers id =>
          rw [Fresh.bind_of_eq inner]
          have each : List.Forall₂ (fun c answer => .expr target ∈ c.subtree → answer.2.isSome)
              n.children (n.children.mapM (withAnswer target new) next).1 :=
            Fresh.forall₂_mapM (fun c hc start below => ih c hc below start) next
          rw [inner] at each
          have found : answers.any (·.2.isSome) = true := by
            obtain ⟨i, hi, rfl⟩ := List.mem_iff_getElem.mp hc
            have hi' : i < answers.length := each.length_eq ▸ hi
            exact List.any_eq_true.mpr ⟨answers[i], List.getElem_mem hi',
              List.forall₂_iff_get.mp each |>.2 i hi hi' below⟩
          rw [if_pos found]
          rfl

theorem parts_le_of_mem_subtree {hidden : Expr → Bool} {m : Node} (below : m ∈ n.subtree) :
    m.parts hidden ≤ n.parts hidden := by
  induction n using Node.inductionOn with
  | step n ih =>
    rw [subtree_eq, List.mem_cons] at below
    rcases below with rfl | below
    · exact le_rfl
    · obtain ⟨c, hc, below⟩ := List.mem_flatMap.mp below
      exact le_trans (ih c hc below) (parts_le_of_mem hc)

open Classical in
/-- The nodes of the target, if it stands below a node. -/
noncomputable def targetParts (hidden : Expr → Bool) (target : Expr) (n : Node) : Multiset Node :=
  if .expr target ∈ n.subtree then target.parts hidden else 0

theorem targetParts_of_mem {hidden : Expr → Bool} (below : .expr target ∈ n.subtree) :
    n.targetParts hidden target = target.parts hidden := if_pos below

theorem targetParts_le (hidden : Expr → Bool) (other : n ≠ .expr target) :
    n.targetParts hidden target ≤ (n.children.map (targetParts hidden target)).sum := by
  unfold targetParts
  split
  next below =>
    rw [subtree_eq, List.mem_cons] at below
    obtain ⟨c, hc, below⟩ := List.mem_flatMap.mp (below.resolve_left other.symm)
    obtain ⟨front, back, split⟩ := List.append_of_mem hc
    rw [split, List.map_append, List.sum_append, List.map_cons, List.sum_cons, if_pos below]
    exact le_trans (Multiset.le_add_right _ _) (Multiset.le_add_left _ _)
  next => exact Multiset.zero_le _

/-- If the new expression is left out of the count, the nodes of the target leave
the tree and only what is rebuilt on the way is new. -/
theorem replaceAlike?_spends {hidden : Expr → Bool} (unseen : new.parts hidden = 0) (n : Node) :
    Spends (n.parts hidden) (n.replaceAlike? target new) fun answer =>
      (answer.getD n).parts hidden + n.targetParts hidden target := by
  intro next
  cases found : n.replaceAlike? target new next with
  | mk answer used =>
    cases answer with
    | none =>
      have absent : n.targetParts hidden target = 0 := by
        refine if_neg fun below => ?_
        have := replaceAlike?_isSome new below next
        rw [found] at this
        cases this
      have grown := (replaceAlike?_grows target new n).le found
      exact ⟨0, .zero grown, by simp [absent]⟩
    | some out =>
      rcases replaceAlike?_cases found with ⟨alike, rfl, rfl⟩ | ⟨other, answers, id, inner, rfl, rfl⟩
      · refine ⟨0, .zero (Nat.le_refl _), ?_⟩
        show new.parts hidden + n.targetParts hidden target ≤ n.parts hidden + 0
        rw [unseen, zero_add, add_zero]
        unfold targetParts
        split
        next below => exact parts_le_of_mem_subtree below
        next => exact Multiset.zero_le _
      · have each : ∀ c ∈ n.children, Spends (c.parts hidden) (withAnswer target new c) fun answer =>
            (answer.2.getD answer.1).parts hidden + answer.1.targetParts hidden target :=
          fun c hc => (replaceAlike?_spends unseen c).map fun _ => le_rfl
        obtain ⟨drawn, hdrawn, below⟩ := Spends.mapM each next
        rw [inner] at hdrawn below
        have children : answers.map (·.1) = n.children := by
          have firsts : List.Forall₂ (fun c answer => answer.1 = c) n.children
              (n.children.mapM (withAnswer target new) next).1 :=
            Fresh.forall₂_mapM (fun c _ start => (rfl : (withAnswer target new c start).1.1 = c)) next
          rw [inner] at firsts
          exact List.forall₂_eq_eq_eq ▸ List.forall₂_map_left_iff.mpr firsts.flip
        have fits := (forall₂_becomesAlike inner).imp fun _ _ h => h.sameSort
        have refilled := n.refilled_withChildren id fits
        refine ⟨drawn + {n.withChildren id (answers.map fun (old, new) => new.getD old)},
          hdrawn.add (.single (id_withChildren _ _ _)), ?_⟩
        have around := parts_le hidden
          (n.withChildren id (answers.map fun (old, new) => new.getD old))
        rw [refilled.children, partsOf, List.map_map] at around
        have unlike : n ≠ .expr target := by
          rintro rfl
          exact Bool.false_ne_true (other.symm.trans (alike_refl (.expr target)))
        have gone := targetParts_le hidden unlike
        rw [← children, List.map_map] at gone
        dsimp only at below
        rw [List.sum_map_add] at below
        generalize n.withChildren id (answers.map fun (old, new) => new.getD old) = out at around
        calc out.parts hidden + n.targetParts hidden target
            ≤ {out} + (answers.map fun answer => (answer.2.getD answer.1).parts hidden).sum +
                (answers.map fun answer => answer.1.targetParts hidden target).sum :=
              add_le_add around gone
          _ = (answers.map fun answer => (answer.2.getD answer.1).parts hidden).sum +
                (answers.map fun answer => answer.1.targetParts hidden target).sum + {out} := by abel
          _ ≤ partsOf hidden n.children + drawn + {out} := add_le_add_left below _
          _ ≤ n.parts hidden + drawn + {out} := by gcongr; exact partsOf_children_le hidden n
          _ = n.parts hidden + (drawn + {out}) := add_assoc _ _ _
termination_by sizeOf n
decreasing_by exact sizeOf_lt_of_mem_children hc

end Node

namespace Stmt

variable {stmt changed : Stmt} {target new : Expr} {next used : NodeId}

theorem replaceExpr?_node (h : stmt.replaceExpr? target new next = (some changed, used)) :
    (Node.stmt stmt).replaceExpr? target new next = (some (.stmt changed), used) := by
  cases found : (Node.stmt stmt).replaceExpr? target new next with
  | mk answer after =>
    have ran : stmt.replaceExpr? target new next = (answer.bind Node.stmt?, after) :=
      Fresh.bind_of_eq found
    rw [ran, Prod.mk.injEq, Option.bind_eq_some_iff] at h
    obtain ⟨⟨out, rfl, isStmt⟩, rfl⟩ := h
    cases out with
    | stmt s => cases isStmt; rfl
    | _ => cases isStmt

/-- Where a statement has no answer, the target does not stand. -/
theorem absent_of_replaceExpr? (h : (stmt.replaceExpr? target new next).1 = none) :
    ∀ m ∈ (Node.stmt stmt).subtree, m.same (.expr target) = false := by
  intro m mem
  by_contra present
  rw [Bool.not_eq_false] at present
  have answered := Node.replaceExpr?_isSome new mem present next
  cases found : (Node.stmt stmt).replaceExpr? target new next with
  | mk answer after =>
    rw [found] at answered
    obtain ⟨out, rfl⟩ := Option.isSome_iff_exists.mp answered
    have ran : stmt.replaceExpr? target new next = ((some out).bind Node.stmt?, after) :=
      Fresh.bind_of_eq found
    have sort := Node.replaceExpr?_sameSort found
    rw [ran] at h
    cases out with
    | stmt s => cases h
    | _ => cases sort

theorem replaceAlike?_node (h : stmt.replaceAlike? target new next = (some changed, used)) :
    (Node.stmt stmt).replaceAlike? target new next = (some (.stmt changed), used) := by
  cases found : (Node.stmt stmt).replaceAlike? target new next with
  | mk answer after =>
    have ran : stmt.replaceAlike? target new next = (answer.bind Node.stmt?, after) :=
      Fresh.bind_of_eq found
    rw [ran, Prod.mk.injEq, Option.bind_eq_some_iff] at h
    obtain ⟨⟨out, rfl, isStmt⟩, rfl⟩ := h
    cases out with
    | stmt s => cases isStmt; rfl
    | _ => cases isStmt

theorem replaceExpr?_grows (stmt : Stmt) (target new : Expr) :
    (stmt.replaceExpr? target new).Grows :=
  (Node.replaceExpr?_grows target new _).bind fun _ => .pure _

theorem replaceAlike?_grows (stmt : Stmt) (target new : Expr) :
    (stmt.replaceAlike? target new).Grows :=
  (Node.replaceAlike?_grows target new _).bind fun _ => .pure _

/-- A changed statement is a new one. -/
theorem replaceExpr?_id (h : stmt.replaceExpr? target new next = (some changed, used)) :
    next ≤ changed.id ∧ changed.id < used := by
  rcases Node.replaceExpr?_cases (replaceExpr?_node h) with
    ⟨same, -⟩ | ⟨-, c, -, start, id, rebuilt, le, inner, made, rfl⟩
  · cases same
  · have grown := (Node.replaceExpr?_grows target new c).le inner
    have at_ : changed.id = id := by
      have := congrArg Node.id made
      rwa [Node.replaceChild, Node.id_withChildren] at this
    exact ⟨at_ ▸ Nat.le_trans le grown, at_ ▸ Nat.lt_succ_self _⟩

/-- A changed statement is a new one. -/
theorem replaceAlike?_id (h : stmt.replaceAlike? target new next = (some changed, used)) :
    next ≤ changed.id ∧ changed.id < used := by
  rcases Node.replaceAlike?_cases (replaceAlike?_node h) with
    ⟨alike, -⟩ | ⟨-, answers, id, inner, made, rfl⟩
  · cases alike
  · have grown : (((Node.stmt stmt).children).mapM (Node.withAnswer target new)).Grows :=
      .mapM fun c _ => (Node.replaceAlike?_grows target new c).bind fun _ => .pure _
    have grown := grown.le inner
    have at_ : changed.id = id := by
      have := congrArg Node.id made
      rwa [Node.id_withChildren] at this
    exact ⟨at_ ▸ grown, at_ ▸ Nat.lt_succ_self _⟩

end Stmt

end JavaMend
