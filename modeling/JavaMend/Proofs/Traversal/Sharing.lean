import JavaMend.Proofs.Traversal.Triple
import JavaMend.Proofs.Tree.Refilling

/-!
# What a descent leaves behind

A visit of a node descends into its children, one after the other, each in a frame of its own
(`Visitor.walk`). For visitors whose own methods leave the cursor where they found it,
`Visitor.walk_ends` says how a descent ends. If each child came back as the very node it was,
the node is returned as it was; if not, it is rebuilt around exactly the children that came
back. Whether a visit fails or not, the frames are those of the nodes they were, with the notes
that the visits left there, and the frames of the children are gone.

`Visitor.Visits` tells the visits of the children apart, each with the frames it starts and ends
with.
-/

namespace JavaMend

variable {ε μ σ α β : Type}

/-- A change of the notes of one frame leaves the cursor where it is. -/
theorem Cursor.path_atFrame (c : Cursor μ) {index : Nat} {change : Frame μ → Option α × Frame μ}
    (keeps : ∀ f, (change f).2.node = f.node) : (c.atFrame index change).2.path = c.path := by
  have nodes : List.Forall₂ (fun f f' : Frame μ => f'.node = f.node) c.frames
      (c.atFrame index change).2.frames := by
    refine forall₂_atFrame ?_ keeps
    exact fun _ => rfl
  have same : (c.atFrame index change).2.frames.map (·.node) = c.frames.map (·.node) := by
    rw [← List.forall₂_eq_eq_eq, List.forall₂_map_left_iff, List.forall₂_map_right_iff]
    exact nodes.flip
  exact congrArg Path.mk same

namespace VisitM

/-- Where an action leaves its site, whether it succeeds or fails. -/
def ending : EStateM.Result ε (Site μ σ) α → Site μ σ
  | .ok _ site => site
  | .error _ site => site

/-- An action leads from every site to a related one. -/
def Moves (rel : Site μ σ → Site μ σ → Prop) (action : VisitM ε μ σ α) : Prop :=
  ∀ site, rel site (ending (action site))

/-- The cursor is as deep as before and on the same nodes. -/
def SamePlace (site site' : Site μ σ) : Prop := site'.cursor.path = site.cursor.path

/-- Ids that were handed out are not handed out again. -/
def NoReuse (site site' : Site μ σ) : Prop := site.next ≤ site'.next

/-- What descents are made of keeps the relation: they do one thing after the other, push and
pop a frame, and take ids. -/
structure IsMove (rel : Site μ σ → Site μ σ → Prop) : Prop where
  refl : ∀ site, rel site site
  trans : ∀ {first second third}, rel first second → rel second third → rel first third
  frame : ∀ {site inner} (c : Node), rel { site with cursor := site.cursor.push c } inner →
    rel site { inner with cursor := inner.cursor.pop }
  fresh : ∀ {site} (next : NodeId), site.next ≤ next → rel site { site with next }

theorem isMove_samePlace : IsMove (SamePlace (μ := μ) (σ := σ)) where
  refl _ := rfl
  trans first second := second.trans first
  frame c stays := by
    have nodes := congrArg (fun p : Path => p.outward.tail) stays
    simp only [Cursor.path, Cursor.push, List.map_cons, List.tail_cons] at nodes
    simp only [SamePlace, Cursor.path, Cursor.pop, List.map_tail, nodes]
  fresh _ _ := rfl

theorem isMove_noReuse : IsMove (NoReuse (μ := μ) (σ := σ)) where
  refl _ := Nat.le_refl _
  trans first second := Nat.le_trans first second
  frame _ later := later
  fresh _ later := later

theorem error_bind {first : VisitM ε μ σ β} {next : β → VisitM ε μ σ α} {site site' : Site μ σ}
    {e : ε} (ran : first site = .error e site') : (first >>= next) site = .error e site' := by
  show EStateM.bind first next site = _
  simp only [EStateM.bind, ran]

section Moves

variable {rel : Site μ σ → Site μ σ → Prop} (move : IsMove rel)

include move

theorem Moves.pure (a : α) : Moves rel (Pure.pure a : VisitM ε μ σ α) := fun site => move.refl site

theorem Moves.bind {first : VisitM ε μ σ β} {next : β → VisitM ε μ σ α} (h : Moves rel first)
    (h' : ∀ b, Moves rel (next b)) : Moves rel (first >>= next) := by
  intro site
  have there := h site
  cases ran : first site with
  | ok b between =>
    rw [ran] at there
    rw [bind_of_ok ran]
    exact move.trans there (h' b between)
  | error e between =>
    rw [ran] at there
    rw [error_bind ran]
    exact there

theorem Moves.inFrame {action : VisitM ε μ σ α} (c : Node) (h : Moves rel action) :
    Moves rel (VisitM.inFrame c action) := by
  intro site
  have below := h { site with cursor := site.cursor.push c }
  unfold VisitM.inFrame
  cases ran : action { site with cursor := site.cursor.push c } with
  | ok a inner =>
    rw [ran] at below
    exact move.frame c below
  | error e inner =>
    rw [ran] at below
    exact move.frame c below

theorem Moves.mapM {f : β → VisitM ε μ σ α} {items : List β} (h : ∀ b ∈ items, Moves rel (f b)) :
    Moves rel (items.mapM f) := by
  induction items with
  | nil => exact .pure move []
  | cons b rest ih =>
    rw [List.mapM_cons]
    refine (h b List.mem_cons_self).bind move fun a => ?_
    exact (ih fun b hb => h b (List.mem_cons_of_mem _ hb)).bind move fun as => .pure move (a :: as)

end Moves

end VisitM

namespace Visitor

open VisitM

variable {v : Visitor ε μ σ} {n : Node} {site mid site' : Site μ σ} {children news : List Node}

/-- The descent into a node: its children are visited, each in a frame of its own, and the node
is settled with what they became. -/
def walk (v : Visitor ε μ σ) (n : Node) : VisitM ε μ σ Node :=
  n.children.mapM (fun c => inFrame c (v.run c)) >>= settle n

/-- A visit of a node is the visitor's method, which is handed the descent. -/
theorem run_eq_visit_walk (v : Visitor ε μ σ) (n : Node) : v.run n = v.visit n (v.walk n) :=
  v.run_eq n

/-- The methods of a visitor answer nodes of the variant they are asked about, and never hand out
an id twice. -/
structure Lawful (v : Visitor ε μ σ) : Prop where
  sorts : ∀ n descend, Triple (fun _ => True) descend (fun a _ => Node.SameSort n a) →
    Triple (fun _ => True) (v.visit n descend) (fun a _ => Node.SameSort n a)
  supply : ∀ n descend, Moves NoReuse descend → Moves NoReuse (v.visit n descend)

/-- The methods of a visitor leave the cursor as deep as they found it and on the same nodes, if
the descent does that they are handed. -/
def Tidy (v : Visitor ε μ σ) : Prop :=
  ∀ n descend, Moves SamePlace descend → Moves SamePlace (v.visit n descend)

/-! ## Visits of single nodes -/

theorem settle_moves {rel : Site μ σ → Site μ σ → Prop} (move : IsMove rel) (n : Node)
    (news : List Node) : Moves rel (settle n news : VisitM ε μ σ Node) := by
  unfold settle
  split
  · exact .pure move n
  · intro site
    exact move.fresh (site.next + 1) (Nat.le_succ _)

/-- What holds of a visitor's own methods holds of its visits. -/
theorem run_moves {rel : Site μ σ → Site μ σ → Prop} (move : IsMove rel)
    (own : ∀ n descend, Moves rel descend → Moves rel (v.visit n descend)) (n : Node) :
    Moves rel (v.run n) := by
  induction n using Node.inductionOn with
  | step n ih =>
    rw [run_eq_visit_walk]
    refine own n _ (Moves.bind move (.mapM move fun c hc => ?_) (settle_moves move n))
    exact (ih c hc).inFrame move c

theorem settle_sorts (n : Node) (news : List Node) :
    Triple (fun _ => True) (settle n news : VisitM ε μ σ Node) fun a _ => Node.SameSort n a := by
  unfold settle
  split
  · exact .pure fun _ _ => rfl
  · exact .fresh fun site _ => (Node.sameSort_of_label (n.label_withChildren site.next news)).symm

theorem Lawful.run_sorts (lawful : v.Lawful) (n : Node) :
    Triple (fun _ => True) (v.run n) fun a _ => Node.SameSort n a := by
  rw [run_eq_visit_walk]
  refine lawful.sorts n _ (Triple.bind ?_ (settle_sorts n))
  exact fun _ _ _ _ _ => trivial

/-! ## Visits of children -/

/-- A visit of `c` began at `site`, with a frame for `c` on top, and has come to `last`. The
frame of `c` is dropped then, with the notes that it holds by now, and the descent goes on at
`next`: the frames below are as the visit left them, and are those of the same nodes as before. -/
structure Leaves (c : Node) (site last next : Site μ σ) : Prop where
  dropped : ∃ f, f.node = c ∧ last.cursor.frames = f :: next.cursor.frames
  kept : next = { last with cursor := next.cursor }
  place : SamePlace site next

/-- The children are visited one after the other, with the answers `news`. Each visit begins with
a frame of the child, without notes, on top of the frames there are. -/
inductive Visits (v : Visitor ε μ σ) : List Node → List Node → Site μ σ → Site μ σ → Prop where
  | nil {site : Site μ σ} : Visits v [] [] site site
  | cons {c new : Node} {children news : List Node} {site last next site' : Site μ σ}
      (ran : v.run c { site with cursor := ⟨.ofNode c :: site.cursor.frames⟩ } = .ok new last)
      (leaves : Leaves c site last next) (rest : Visits v children news next site') :
      Visits v (c :: children) (new :: news) site site'

/-- The children are visited one after the other, up to one whose visit fails with `e`. -/
inductive Breaks (v : Visitor ε μ σ) (e : ε) : List Node → Site μ σ → Site μ σ → Prop where
  | here {c : Node} {children : List Node} {site last site' : Site μ σ}
      (ran : v.run c { site with cursor := ⟨.ofNode c :: site.cursor.frames⟩ } = .error e last)
      (leaves : Leaves c site last site') : Breaks v e (c :: children) site site'
  | later {c new : Node} {children : List Node} {site last next site' : Site μ σ}
      (ran : v.run c { site with cursor := ⟨.ofNode c :: site.cursor.frames⟩ } = .ok new last)
      (leaves : Leaves c site last next) (rest : Breaks v e children next site') :
      Breaks v e (c :: children) site site'

/-- A visit that ends where it began has the frame of its node on top. -/
theorem leaves_of_samePlace {c : Node} {last : Site μ σ}
    (stays : SamePlace { site with cursor := site.cursor.push c } last) :
    Leaves c site last { last with cursor := last.cursor.pop } where
  dropped := by
    have nodes : last.cursor.frames.map (·.node) = c :: site.cursor.frames.map (·.node) :=
      congrArg Path.outward stays
    obtain ⟨f, frames, split, here, -⟩ := List.map_eq_cons_iff.mp nodes
    refine ⟨f, here, ?_⟩
    rw [split, Cursor.pop, split]
    rfl
  kept := rfl
  place := isMove_samePlace.frame c stays

theorem Visits.samePlace (visits : v.Visits children news site site') : SamePlace site site' := by
  induction visits with
  | nil => rfl
  | cons _ leaves _ ih => exact isMove_samePlace.trans leaves.place ih

theorem Breaks.samePlace {e : ε} (breaks : v.Breaks e children site site') :
    SamePlace site site' := by
  induction breaks with
  | here _ leaves => exact leaves.place
  | later _ leaves _ ih => exact isMove_samePlace.trans leaves.place ih

/-- What comes back fits where the children stood, and no id was handed out twice. -/
theorem Visits.fits (visits : v.Visits children news site site') (lawful : v.Lawful) :
    List.Forall₂ Node.SameSort children news ∧ NoReuse site site' := by
  induction visits with
  | nil => exact ⟨.nil, Nat.le_refl _⟩
  | @cons c new children news site last next site' ran leaves rest ih =>
    have fit : Node.SameSort c new := lawful.run_sorts c trivial ran
    have later := run_moves isMove_noReuse lawful.supply c
      { site with cursor := ⟨.ofNode c :: site.cursor.frames⟩ }
    rw [ran] at later
    refine ⟨.cons fit ih.1, isMove_noReuse.trans later ?_⟩
    have handed := congrArg Site.next leaves.kept
    have passed : NoReuse last next := Nat.le_of_eq handed.symm
    exact isMove_noReuse.trans passed ih.2

/-- The visits of children, from the first to the last or to one that fails. -/
theorem mapM_visits (tidy : v.Tidy) (children : List Node) (site : Site μ σ) :
    match children.mapM (fun c => inFrame c (v.run c)) site with
    | .ok news site' => v.Visits children news site site'
    | .error e site' => v.Breaks e children site site' := by
  induction children generalizing site with
  | nil => exact .nil
  | cons c children ih =>
    have stays := run_moves isMove_samePlace tidy c { site with cursor := site.cursor.push c }
    rw [List.mapM_cons]
    cases ran : v.run c { site with cursor := site.cursor.push c } with
    | error e last =>
      rw [ran] at stays
      have entered : inFrame c (v.run c) site =
          .error e { last with cursor := last.cursor.pop } := by
        simp only [inFrame, ran]
      rw [error_bind entered]
      exact .here ran (leaves_of_samePlace stays)
    | ok new last =>
      rw [ran] at stays
      have entered : inFrame c (v.run c) site =
          .ok new { last with cursor := last.cursor.pop } := by
        simp only [inFrame, ran]
      have rest := ih { last with cursor := last.cursor.pop }
      rw [bind_of_ok entered]
      cases more : children.mapM (fun c => inFrame c (v.run c))
          { last with cursor := last.cursor.pop } with
      | error e site' =>
        rw [more] at rest
        rw [error_bind more]
        exact .later ran (leaves_of_samePlace stays) rest
      | ok news site' =>
        rw [more] at rest
        rw [bind_of_ok more]
        exact .cons ran (leaves_of_samePlace stays) rest

/-! ## Settling a node -/

/-- Each child came back as the very node that it was. -/
abbrev Unchanged (children news : List Node) : Prop :=
  List.Forall₂ (fun old new => new.same old = true) children news

/-- What becomes of a node whose children came back as `news`, from where their visits ended. -/
structure Settled (n : Node) (news : List Node) (site : Site μ σ) (out : Node) (site' : Site μ σ) :
    Prop where
  same_iff : out.same n = true ↔ Unchanged n.children news
  shared : Unchanged n.children news → out = n ∧ site' = site
  rebuilt : ¬ Unchanged n.children news → out.children = news ∧ out.label = n.label ∧
    out.id = site.next ∧ site' = { site with next := site.next + 1 }

theorem unchanged_iff (length : children.length = news.length) :
    ((children.zip news).all fun (old, new) => new.same old) = true ↔ Unchanged children news := by
  rw [List.all_eq_true, Unchanged, List.forall₂_iff_zip]
  exact ⟨fun all => ⟨length, fun mem => all _ mem⟩, fun pairs pair mem => pairs.2 mem⟩

theorem settle_settled (fits : List.Forall₂ Node.SameSort n.children news)
    (old : n.id < site.next) :
    ∃ out site', (settle n news : VisitM ε μ σ Node) site = .ok out site' ∧
      Settled n news site out site' := by
  by_cases unchanged : Unchanged n.children news
  · refine ⟨n, site, ?_, ⟨fun _ => unchanged, fun _ => n.same_self⟩, fun _ => ⟨rfl, rfl⟩,
      fun changed => (changed unchanged).elim⟩
    rw [settle, if_pos ((unchanged_iff fits.length_eq).mpr unchanged)]
    rfl
  · have refilled := n.refilled_withChildren site.next fits
    have id := n.id_withChildren site.next news
    refine ⟨n.withChildren site.next news, { site with next := site.next + 1 }, ?_,
      ⟨fun same => ?_, fun shared => (unchanged shared).elim⟩,
      fun shared => (unchanged shared).elim,
      fun _ => ⟨refilled.children, refilled.label, id, rfl⟩⟩
    · rw [settle, if_neg (unchanged ∘ (unchanged_iff fits.length_eq).mp)]
      rfl
    · -- The rebuilt node has an id that no node had before.
      have reused := Node.id_of_same same
      rw [id] at reused
      exact (Nat.ne_of_gt old reused).elim

/-- A descent into a node, by a visitor whose methods leave the cursor where they found it, ends
with the very node if each child came back as the node that it was, and else with one rebuilt
around the children that came back. The cursor stands where it stood, also if a visit failed. -/
theorem walk_ends (lawful : v.Lawful) (tidy : v.Tidy) (n : Node) (site : Site μ σ)
    (old : n.id < site.next) :
    v.run n = v.visit n (v.walk n) ∧ SamePlace site (ending (v.walk n site)) ∧
      (∀ out site', v.walk n site = .ok out site' →
        ∃ news mid, v.Visits n.children news site mid ∧ Settled n news mid out site') ∧
      ∀ e site', v.walk n site = .error e site' → v.Breaks e n.children site site' := by
  have visits := mapM_visits tidy n.children site
  rw [run_eq_visit_walk]
  unfold walk
  cases ran : n.children.mapM (fun c => inFrame c (v.run c)) site with
  | error e last =>
    rw [ran] at visits
    rw [error_bind ran]
    refine ⟨rfl, visits.samePlace, fun out site' ended => (nomatch ended), fun e' site' ended => ?_⟩
    cases ended
    exact visits
  | ok news mid =>
    rw [ran] at visits
    obtain ⟨fits, later⟩ := visits.fits lawful
    obtain ⟨out, last, settles, settled⟩ :=
      settle_settled (ε := ε) fits (Nat.lt_of_lt_of_le old later)
    rw [bind_of_ok ran, settles]
    refine ⟨rfl, ?_, fun out' site' ended => ?_, fun e site' ended => (nomatch ended)⟩
    · refine isMove_samePlace.trans visits.samePlace ?_
      have stays := settle_moves (ε := ε) isMove_samePlace n news mid
      rwa [settles] at stays
    · cases ended
      exact ⟨news, mid, visits, settled⟩

/-! ## A visitor that renews a text -/

/-- Puts `"new"` in the place of `"old"` and notes at the root that it did. -/
def renewing : Visitor Unit String Unit where
  visit _ descend := do
    let out ← descend
    if out.expr?.bind Expr.stringValue? = some "old" then
      modifyCursor fun c => ((), c.putAt 0 ⟨"renewed", id, some⟩ "old")
      .fresh (Node.expr <$> Expr.mkString "new")
    else return out

theorem renewing_lawful : renewing.Lawful where
  sorts n descend h := by
    refine h.bind fun out => ?_
    split
    · next old =>
      have noted : Triple (fun _ : Site String Unit => Node.SameSort n out)
          (modifyCursor (ε := Unit) fun c => ((), c.putAt 0 ⟨"renewed", id, some⟩ "old"))
          fun _ _ => Node.SameSort n out := .modifyCursor fun _ sort => sort
      refine noted.bind fun _ => .fresh fun _ sort => sort.trans ?_
      cases out with
      | expr e => rfl
      | _ => cases old
    · exact .pure fun _ sort => sort
  supply n descend h := by
    refine h.bind isMove_noReuse fun out => ?_
    split
    · exact .bind isMove_noReuse (fun _ => Nat.le_refl _) fun _ _ => Nat.le_succ _
    · exact .pure isMove_noReuse out

theorem renewing_tidy : renewing.Tidy := by
  intro n descend h
  refine h.bind isMove_samePlace fun out => ?_
  split
  · exact .bind isMove_samePlace (fun site => site.cursor.path_atFrame fun _ => rfl) fun _ _ => rfl
  · exact .pure isMove_samePlace out

/-- `"old" + "kept"` -/
def sumOfTexts : Node :=
  .expr ⟨1, .string, .binary .add ⟨2, .string, .literal (.string "old")⟩
    ⟨3, .string, .literal (.string "kept")⟩⟩

/-- The sum in a frame below that of an empty block. -/
def onSum : Site String Unit :=
  { cursor := (Cursor.ofRoot (.block ⟨0, false, []⟩)).push sumOfTexts, next := 4, own := () }

/-- `"new" + "kept"` -/
def renewedSum : Node :=
  .expr ⟨5, .string, .binary .add ⟨4, .string, .literal (.string "new")⟩
    ⟨3, .string, .literal (.string "kept")⟩⟩

/-- The same frames, with the note at the root. -/
def afterSum : Site String Unit where
  cursor := ⟨[.ofNode sumOfTexts, ⟨.block ⟨0, false, []⟩, [("renewed", "old")]⟩]⟩
  next := 6
  own := ()

theorem walk_sumOfTexts :
    renewing.Lawful ∧ renewing.Tidy ∧ sumOfTexts.id < onSum.next ∧
      renewing.walk sumOfTexts onSum = .ok renewedSum afterSum ∧
      ∃ news mid, renewing.Visits sumOfTexts.children news onSum mid ∧
        Settled sumOfTexts news mid renewedSum afterSum := by
  have old : sumOfTexts.id < onSum.next := by decide
  have ran : renewing.walk sumOfTexts onSum = .ok renewedSum afterSum := by with_unfolding_all rfl
  have ends := walk_ends renewing_lawful renewing_tidy sumOfTexts onSum old
  exact ⟨renewing_lawful, renewing_tidy, old, ran, ends.2.2.1 renewedSum afterSum ran⟩

end Visitor

end JavaMend
