import JavaMend.Proofs.TempFiles.Sharing

/-!
# The two passes for temporary files commute

`Square` puts the four rewritings of a node next to each other: directories made first and
files after, and the other way round. The square closes, all ids aside (`Square.close`), by
induction over the tree.

A call that no site claims becomes the same either way, as no directory is made in it. A
call that a site claims is replaced first on one side; the other side makes files in its
arguments before. What is made of it has these arguments for its leaves, so the files are
made in them afterwards (`alike_of_claimed`).
-/

namespace JavaMend

/-- Two lists that are related to a third one. -/
theorem forall₂_join {α β γ : Type} {r : α → β → Prop} {t : α → γ → Prop} {u : β → γ → Prop}
    {as : List α} {bs : List β} {cs : List γ} (left : List.Forall₂ r as bs) (right : List.Forall₂ t as cs)
    (join : ∀ a ∈ as, ∀ b c, r a b → t a c → u b c) : List.Forall₂ u bs cs := by
  induction left generalizing cs with
  | nil =>
    cases right
    exact .nil
  | cons first _ ih =>
    cases right with
    | cons first' rest' =>
      refine .cons (join _ List.mem_cons_self _ _ first first') (ih rest' fun a mem => ?_)
      exact join a (List.mem_cons_of_mem _ mem)

/-- Two relations between lists, one after the other. -/
theorem forall₂_comp {α β γ : Type} {r : α → β → Prop} {t : β → γ → Prop} {as : List α} {bs : List β}
    {cs : List γ} (first : List.Forall₂ r as bs) (second : List.Forall₂ t bs cs) :
    List.Forall₂ (fun a c => ∃ b ∈ bs, r a b ∧ t b c) as cs := by
  induction first generalizing cs with
  | nil =>
    cases second
    exact .nil
  | cons here _ ih =>
    cases second with
    | cons here' rest' =>
      refine .cons ⟨_, List.mem_cons_self, here, here'⟩ ((ih rest').imp ?_)
      rintro a c ⟨b, mem, both⟩
      exact ⟨b, List.mem_cons_of_mem _ mem, both⟩

theorem Node.block_of_sameSort {b : Block} {n : Node} (sort : Node.SameSort (.block b) n) :
    ∃ b', n = .block b' := by
  cases n with
  | block b' => exact ⟨b', rfl⟩
  | _ => cases sort

namespace TempDirectory

variable {p q q' : Place} {n : Node} {e e' : Expr}

/-! ## Expressions -/

theorem alike_structural : Structural fun e e' => e.alike e' = true := by
  intro e e' _ label children
  refine Node.alike_iff.mpr ⟨label.symm, ?_⟩
  show List.Forall₂ _ (e.children.map Node.expr) (e'.children.map Node.expr)
  rw [List.forall₂_map_left_iff, List.forall₂_map_right_iff]
  exact children

/-- No directory is made in an expression in which no call is claimed. -/
theorem made_eq (plain : p.inClass = false) (free : Free p (.expr e)) {out : Node}
    (made : making.Rewritten p (.expr e) out) : out = .expr e := by
  refine made.eq_of_not_acts fun acts => ?_
  generalize at_ : Node.expr e = n at acts free
  clear made
  induction acts generalizing e with
  | @here p n given =>
    subst at_
    have given : making.gives p e = true := given
    rw [free e (by rw [Node.surface_eq rfl]; exact List.mem_cons_self)] at given
    cases given
  | @under p n c mem _ ih =>
    subst at_
    have mem : c ∈ (Node.expr e).children := mem
    obtain ⟨e', -, rfl⟩ := List.mem_map.mp mem
    rw [making_ofCreations.inside_open plain rfl rfl] at ih
    exact ih plain rfl (free.child rfl mem)

/-- A call that no site claims gives way to a call that makes a file. -/
theorem filing_gives (creation : isCreation e = true) (free : Free p (.expr e)) :
    TempFile.filing.gives p e = true := by
  have unclaimed : (isCreation e && p.claims e) = false :=
    free e (by rw [Node.surface_eq rfl]; exact List.mem_cons_self)
  rw [creation, Bool.true_and] at unclaimed
  show (isCreation e && !p.claims e) = true
  rw [creation, unclaimed]
  rfl

/-- A node that is no call that may give way. -/
def Other (n : Node) : Prop := ∀ e, n = .expr e → isCreation e = false

/-- What does not give way. -/
theorem filing_cases (plain : p.inClass = false) {out : Node}
    (filed : TempFile.filing.Rewritten p (.expr e) out) (creation : isCreation e = false) :
    out.label = (Node.expr e).label ∧
      List.Forall₂ (TempFile.filing.Rewritten p) (Node.expr e).children out.children := by
  rcases filed.cases with ⟨_, _, same, -, given, -⟩ | ⟨-, label, children⟩
  · cases same
    cases creation.symm.trans (TempFile.filing_ofCreations.gives p e given)
  · rw [TempFile.filing_ofCreations.inside_open plain rfl rfl] at children
    exact ⟨label, children⟩

/-- What files are made in an expression in which no call is claimed does not depend on the
place. -/
theorem filed_alike (plain : p.inClass = false) (plain' : q.inClass = false) (e : Expr)
    (free : Free p (.expr e)) (free' : Free q (.expr e)) {out out' : Node}
    (filed : TempFile.filing.Rewritten p (.expr e) out)
    (filed' : TempFile.filing.Rewritten q (.expr e) out') : out.alike out' = true := by
  cases creation : isCreation e with
  | true =>
    rcases filed.cases with ⟨_, new, same, rfl, -, made⟩ | ⟨other, -⟩
    · rcases filed'.cases with ⟨_, new', same', rfl, -, made'⟩ | ⟨other, -⟩
      · cases same
        cases same'
        refine TempFile.Makes.related alike_structural made made' ?_
        exact List.forall₂_same.mpr fun a _ => ⟨Node.alike_refl _, rfl⟩
      · cases other.symm.trans (filing_gives creation free')
    · cases other.symm.trans (filing_gives creation free)
  | false =>
    obtain ⟨label, children⟩ := filing_cases plain filed creation
    obtain ⟨label', children'⟩ := filing_cases plain' filed' creation
    refine Node.alike_iff.mpr ⟨label.trans label'.symm, forall₂_join children children' ?_⟩
    intro c mem out out' filed filed'
    obtain ⟨c, hc, rfl⟩ := List.mem_map.mp mem
    exact filed_alike plain plain' c (free.child rfl mem) (free'.child rfl mem) filed filed'
termination_by sizeOf e
decreasing_by exact Expr.sizeOf_lt_of_mem_children hc

/-! ## Calls of sites -/

/-- The first two arguments have the type of what is put in their places. -/
def ArgsAreFiles (e : Expr) : Prop :=
  ∀ a ∈ e.args.take 2, isCreation a = true → a.ty = .file

theorem isNull_rewritten {R : Rewriting Place} (h : R.OfCreations) (plain : p.inClass = false)
    (rewritten : R.Rewritten p (.expr e) (.expr e')) : isNull e' = isNull e := by
  have literal {m : MethodRef} {e : Expr} (found : e.method? = some m) : e.literal? = none := by
    obtain ⟨id, ty, form⟩ := e
    cases form <;> first | rfl | cases found
  have same : e'.unparen.literal? = e.unparen.literal? := by
    have inner := h.unparen_rewritten plain rewritten
    generalize e.unparen = f at inner
    generalize e'.unparen = f' at inner
    rcases h.expr_cases plain inner with ⟨given, made⟩ | ⟨-, -, related⟩
    · obtain ⟨m, found, -⟩ := h.given_method given
      rw [literal found, literal (h.made_method made)]
    · obtain ⟨id, ty, form⟩ := f
      obtain ⟨id', ty', form'⟩ := f'
      cases related <;> rfl
  unfold isNull
  rw [same]

/-- Making a directory of a call and files in it comes to the same as making files in the
arguments of the call and then the directory. -/
theorem alike_of_claimed (plain : p.inClass = false) (plain' : q.inClass = false)
    {e1 e2 e21 : Expr} {out : Node} (below : ∀ c ∈ (Node.expr e).children, Free p c)
    (free : Free q (.expr e1)) (claimed : TempFile.filing.gives p e = false) (files : ArgsAreFiles e)
    (made : Makes e e1) (filed : TempFile.filing.Rewritten p (.expr e) (.expr e2))
    (made' : Makes e2 e21) (filed' : TempFile.filing.Rewritten q (.expr e1) out) :
    out.alike (.expr e21) = true := by
  -- What becomes of an expression when files are made in it at the second place.
  let r (a b : Expr) : Prop :=
    Free q (.expr a) → ∀ out, TempFile.filing.Rewritten q (.expr a) out → out.alike (.expr b) = true
  have structural : Structural r := by
    intro a b creation label children free out filed
    obtain ⟨label', children'⟩ := filing_cases plain' filed creation
    refine Node.alike_iff.mpr ⟨label'.trans label.symm, ?_⟩
    have related : List.Forall₂ (fun c d => ∀ out, c ∈ (Node.expr a).children →
        TempFile.filing.Rewritten q c out → out.alike d = true)
        (Node.expr a).children (Node.expr b).children := by
      show List.Forall₂ _ (a.children.map Node.expr) (b.children.map Node.expr)
      rw [List.forall₂_map_left_iff, List.forall₂_map_right_iff]
      refine children.imp fun c d related out mem filed => ?_
      exact related (free.child rfl mem) out filed
    exact forall₂_join children' related fun c mem out d filed alike => alike out mem filed
  rcases TempFile.filing_ofCreations.expr_cases plain filed with ⟨given, -⟩ | ⟨-, -, related⟩
  · cases claimed.symm.trans given
  have args : List.Forall₂ (fun a a' => a ∈ e.children ∧
      TempFile.filing.Rewritten p (.expr a) (.expr a')) e.args e2.args := by
    have inside : ∀ a ∈ e.args, a ∈ e.children := fun a mem => Expr.mem_children_of_args mem
    have both : List.Forall₂ (fun a a' => TempFile.filing.Rewritten p (.expr a) (.expr a'))
        e.args e2.args := (Expr.args_related related).2
    exact (List.forall₂_and_left _ _).mpr ⟨inside, both⟩
  have types : (e2.args.take 2).map (·.ty) = (e.args.take 2).map (·.ty) := by
    have firsts := List.forall₂_take 2 args
    have same : List.Forall₂ (fun a a' => a.ty = a'.ty) (e.args.take 2) (e2.args.take 2) := by
      refine ((List.forall₂_and_left _ _).mpr ⟨files, firsts⟩).imp ?_
      rintro a a' ⟨file, -, filed⟩
      rcases filed.cases with ⟨_, _, same, same', given, made⟩ | ⟨-, label, -⟩
      · cases same
        cases same'
        obtain ⟨_, _, _, _, _, -, new, -⟩ := made
        rw [file (TempFile.filing_ofCreations.gives p _ given), new.ty]
        rfl
      · exact (Node.Label.expr.inj label).1.symm
    rw [← List.forall₂_eq_eq_eq, List.forall₂_map_left_iff, List.forall₂_map_right_iff]
    exact same.flip.imp fun _ _ => Eq.symm
  refine TempDirectory.Makes.related structural made made' (args.imp ?_) types free out filed'
  rintro a a' ⟨mem, filed⟩
  refine ⟨fun free out filed' => ?_, isNull_rewritten TempFile.filing_ofCreations plain filed⟩
  exact filed_alike plain' plain a free (below _ (List.mem_map_of_mem mem)) filed' filed

/-! ## The square -/

/-- The four rewritings of a node: directories first and files after, and the other way
round. -/
structure Square (p q q' : Place) (n n1 n2 n12 n21 : Node) : Prop where
  made : making.Rewritten p n n1
  filedAfter : TempFile.filing.Rewritten q n1 n12
  filed : TempFile.filing.Rewritten p n n2
  madeAfter : making.Rewritten q' n2 n21

variable {n1 n2 n12 n21 : Node}

theorem Other.of_label {m : Node} (other : Other n) (label : m.label = n.label) : Other m := by
  rintro e rfl
  cases n with
  | expr e' =>
    rw [isCreation_of_label label]
    exact other e' rfl
  | _ => cases label

/-- What is no block and does not give way is rebuilt of its children. -/
theorem Other.cases {R : Rewriting Place} (h : R.OfCreations) (other : Other n)
    (open_ : n.block? = none) {out : Node} (rewritten : R.Rewritten p n out) :
    out.label = n.label ∧ List.Forall₂ (R.Rewritten (p.inside n)) n.children out.children := by
  rcases rewritten.cases with ⟨e, _, rfl, -, given, -⟩ | ⟨-, label, children⟩
  · cases (other e rfl).symm.trans (h.gives p e given)
  · rw [Rewriting.kept_of_open open_, h.inside] at children
    exact ⟨label, children⟩

theorem closed_of_label {m : Node} (open_ : n.block? = none) (noClass : n.cls? = none)
    (label : m.label = n.label) : m.block? = none ∧ m.cls? = none := by
  cases n with
  | block b => cases open_
  | cls c => cases noClass
  | _ =>
    cases m with
    | block b => cases label
    | cls c => cases label
    | _ => exact ⟨rfl, rfl⟩

/-- Below a block, the square of a node that is no block closes if those of its children do. -/
theorem Square.around (plain : p.inClass = false) (plain1 : q.inClass = false)
    (plain2 : q'.inClass = false) (h : Square p q q' n n1 n2 n12 n21) (other : Other n)
    (open_ : n.block? = none) (noClass : n.cls? = none)
    (below : n1.label = n.label → n2.label = n.label →
      ∀ c ∈ n.children, ∀ c1 ∈ n1.children, ∀ c2 ∈ n2.children, ∀ c12 c21,
        Square p q q' c c1 c2 c12 c21 → c12.alike c21 = true) : n12.alike n21 = true := by
  obtain ⟨label1, children1⟩ := other.cases making_ofCreations open_ h.made
  obtain ⟨label2, children2⟩ := other.cases TempFile.filing_ofCreations open_ h.filed
  obtain ⟨open1, noClass1⟩ := closed_of_label open_ noClass label1
  obtain ⟨open2, noClass2⟩ := closed_of_label open_ noClass label2
  obtain ⟨label12, children12⟩ :=
    (other.of_label label1).cases TempFile.filing_ofCreations open1 h.filedAfter
  obtain ⟨label21, children21⟩ := (other.of_label label2).cases making_ofCreations open2 h.madeAfter
  rw [Place.inside_open plain open_ noClass] at children1 children2
  rw [Place.inside_open plain1 open1 noClass1] at children12
  rw [Place.inside_open plain2 open2 noClass2] at children21
  refine Node.alike_iff.mpr ⟨label12.trans (label1.trans (label2.symm.trans label21.symm)), ?_⟩
  refine forall₂_join (forall₂_comp children1 children12) (forall₂_comp children2 children21) ?_
  rintro c mem c12 c21 ⟨c1, mem1, made, filedAfter⟩ ⟨c2, mem2, filed, madeAfter⟩
  exact below label1 label2 c mem c1 mem1 c2 mem2 c12 c21 ⟨made, filedAfter, filed, madeAfter⟩

theorem other_of_method (none_ : e.method? = none) : Other (.expr e) := by
  rintro _ same
  cases same
  exact isCreation_of_none none_

theorem other_of_expr? (none_ : n.expr? = none) : Other n := by
  rintro _ rfl
  cases none_

section

variable (plain : p.inClass = false) (plain1 : q.inClass = false) (plain2 : q'.inClass = false)

include plain plain1 plain2

/-- The square of a call that a site claims, in parentheses or not. -/
theorem Square.unparen (h : Square p q q' (.expr e) n1 n2 n12 n21)
    (gives : making.gives p e.unparen = true)
    (claims : ∀ e2, n2 = .expr e2 → isCreation e2.unparen = true → q'.claims e2.unparen = true)
    (below : ∀ c ∈ (Node.expr e.unparen).children, Free p c) (free : Free q n1)
    (files : ArgsAreFiles e.unparen) : n12.alike n21 = true := by
  fun_induction Expr.unparen e generalizing n1 n2 n12 n21 with
  | case1 id ty inner ih =>
    refine h.around plain plain1 plain2 (other_of_method rfl) rfl rfl
      fun label1 label2 c mem c1 mem1 c2 mem2 c12 c21 square => ?_
    cases List.mem_singleton.mp mem
    refine ih square gives (fun e2 at_ => ?_) below
      (free.child (closed_of_label rfl rfl label1).1 mem1) files
    cases n2 with
    | expr e2' =>
      obtain ⟨id', ty', form'⟩ := e2'
      obtain ⟨-, form⟩ := Node.Label.expr.inj label2
      cases form' <;> simp only [ExprForm.map, reduceCtorEq] at form
      subst at_
      cases List.mem_singleton.mp mem2
      have inner := claims ⟨id', ty', .parens e2⟩ rfl
      rwa [Expr.unparen] at inner
    | _ => cases label2
  | case2 e unbracketed =>
    have claimed : TempFile.filing.gives p e = false := by
      have claims : p.claims e = true := (Bool.and_eq_true_iff.mp gives).2
      show (isCreation e && !p.claims e) = false
      rw [claims]
      exact Bool.and_false _
    rcases h.made.cases with ⟨_, e1, same, rfl, -, made⟩ | ⟨other, -⟩
    · cases same
      rcases h.filed.cases with ⟨_, _, same, -, given, -⟩ | ⟨-, label, -⟩
      · cases same
        cases claimed.symm.trans given
      · cases n2 with
        | expr e2 =>
          have creation : isCreation e2 = true :=
            (isCreation_of_label label).trans (Bool.and_eq_true_iff.mp gives).1
          obtain ⟨m, found, -⟩ := name_of_accepted (accepted_of_isCreation creation)
          have bare := Expr.unparen_of_method found
          have gives2 : making.gives q' e2 = true :=
            Bool.and_eq_true_iff.mpr ⟨creation, bare ▸ claims e2 rfl (bare.symm ▸ creation)⟩
          rcases h.madeAfter.cases with ⟨_, e21, same, rfl, -, made'⟩ | ⟨other, -⟩
          · cases same
            exact alike_of_claimed plain plain1 below free claimed files made h.filed made' h.filedAfter
          · cases other.symm.trans gives2
        | _ => cases label
    · cases other.symm.trans gives

/-- The square of a statement that begins a site. -/
theorem Square.binding {s s2 : Stmt} {create : Expr} {name : String}
    (h : Square p q q' (.stmt s) n1 (.stmt s2) n12 n21)
    (binds : binding? .standard s = some (name, create)) (gives : making.gives p create = true)
    (claims : ∃ name create2, binding? .standard s2 = some (name, create2) ∧ q'.claims create2 = true)
    (below : ∀ c ∈ (Node.expr create).children, Free p c) (free : Free q n1)
    (files : ArgsAreFiles create) : n12.alike n21 = true := by
  obtain ⟨name2, create2, binds2, claims⟩ := claims
  refine h.around plain plain1 plain2 (other_of_expr? rfl) rfl rfl
    fun label1 label2 c mem c1 mem1 c2 mem2 c12 c21 square => ?_
  have free1 := free.child (closed_of_label rfl rfl label1).1 mem1
  rcases binding?_cases binds with
    ⟨id, modifiers, typeName, v, init, rfl, -, initialised, rfl⟩ |
    ⟨id, id', ty, target, value, rfl, local_, rfl⟩ <;>
  rcases binding?_cases binds2 with
    ⟨id2, modifiers2, typeName2, v2, init2, rfl, -, initialised2, rfl⟩ |
    ⟨id2, id2', ty2, target2, value2, rfl, local2, rfl⟩
  · cases List.mem_singleton.mp mem
    cases List.mem_singleton.mp mem2
    refine square.around plain plain1 plain2 (other_of_expr? rfl) rfl rfl
      fun label1 label2 d mem d1 mem1 d2 mem2 d12 d21 square => ?_
    have children : (Node.var v).children = [.expr init] := by simp [Node.children, initialised]
    have children2 : (Node.var v2).children = [.expr init2] := by simp [Node.children, initialised2]
    rw [children] at mem
    rw [children2] at mem2
    cases List.mem_singleton.mp mem
    cases List.mem_singleton.mp mem2
    refine square.unparen plain plain1 plain2 gives ?_ below
      (free1.child (closed_of_label rfl rfl label1).1 mem1) files
    rintro _ ⟨⟩ -
    exact claims
  · cases label2
  · cases label2
  · cases List.mem_singleton.mp mem
    cases List.mem_singleton.mp mem2
    refine square.around plain plain1 plain2 (other_of_method rfl) rfl rfl
      fun label1 label2 d mem d1 mem1 d2 mem2 d12 d21 square => ?_
    have named {target : Expr} {name : String} (local_ : target.localName? = some name) :
        target.children = [] ∧ target.unparen = target ∧ target.method? = none := by
      obtain ⟨_, _, form⟩ := target
      cases form with
      | ident => exact ⟨rfl, rfl, rfl⟩
      | _ => cases local_
    rcases List.mem_cons.mp mem with rfl | mem
    · -- A name has no children.
      obtain ⟨leaf, -, noCall⟩ := named local_
      refine square.around plain plain1 plain2 (other_of_method noCall) rfl rfl fun _ _ d mem => ?_
      rw [show (Node.expr target).children = [] from congrArg (List.map Node.expr) leaf] at mem
      cases mem
    · cases List.mem_singleton.mp mem
      refine square.unparen plain plain1 plain2 gives ?_ below
        (free1.child (closed_of_label rfl rfl label1).1 mem1) files
      rintro e2 rfl creation
      rcases List.mem_cons.mp mem2 with same | mem2
      · cases same
        obtain ⟨-, bare, noCall⟩ := named local2
        rw [bare] at creation
        cases (isCreation_of_none noCall).symm.trans creation
      · cases List.mem_singleton.mp mem2
        exact claims

end

/-! ## Trees -/

/-- No block of the tree sets a local and declares one of that name later, and a call that
creates a temporary file and stands among the first two arguments of another one has the
type of what is put in its place. -/
structure Regular (n : Node) : Prop where
  ordered : ∀ b, .block b ∈ n.subtree → Ordered b.stmts
  files : ∀ e, .expr e ∈ n.subtree → isCreation e = true → ArgsAreFiles e

theorem Regular.child {c : Node} (h : Regular n) (mem : c ∈ n.children) : Regular c where
  ordered b below := h.ordered b (Node.mem_subtree_of_child mem below)
  files e below := h.files e (Node.mem_subtree_of_child mem below)

/-- The square of a block closes if those of the statements do in which no call is claimed. -/
theorem Square.block {b b1 b2 b12 b21 : Block}
    (h : Square p q q' (.block b) (.block b1) (.block b2) (.block b12) (.block b21))
    (same1 : q.inClass = p.inClass) (same2 : q'.inClass = p.inClass)
    (distinct : ((Node.block b).subtree.map Node.id).Nodup)
    (distinct1 : ((Node.block b1).subtree.map Node.id).Nodup)
    (distinct2 : ((Node.block b2).subtree.map Node.id).Nodup) (regular : Regular (.block b))
    (below : ∀ s ∈ b.stmts, ∀ s1 ∈ b1.stmts, ∀ s2 ∈ b2.stmts, ∀ s12 s21,
      Square (p.inside (.block b)) (q.inside (.block b1)) (q'.inside (.block b2)) (.stmt s) (.stmt s1)
        (.stmt s2) (.stmt s12) (.stmt s21) →
      Free (p.inside (.block b)) (.stmt s) → Free (q.inside (.block b1)) (.stmt s1) →
      Free (q'.inside (.block b2)) (.stmt s2) → (Node.stmt s12).alike (.stmt s21) = true) :
    (Node.block b12).alike (.block b21) = true := by
  have ordered := regular.ordered b Node.mem_subtree_self
  have isStatic {R : Rewriting Place} {p : Place} {b b' : Block}
      (rewritten : R.Rewritten p (.block b) (.block b')) : b'.isStatic = b.isStatic := by
    rcases rewritten.cases with ⟨_, _, same, -⟩ | ⟨-, label, -⟩
    · cases same
    · exact Node.Label.block.inj label
  have made := Rewriting.pairs_rewritten h.made
  have filedAfter := Rewriting.pairs_rewritten h.filedAfter
  have filed := Rewriting.pairs_rewritten h.filed
  have madeAfter := Rewriting.pairs_rewritten h.madeAfter
  rw [filed_all] at filed filedAfter
  have kept : List.Forall₂ (TempFile.filing.Pairs (p.inside (.block b)) b b2)
      (b.stmts.filter (!(p.inside (.block b)).steps ·))
      (b2.stmts.filter (!(q'.inside (.block b2)).steps ·)) := by
    refine List.rel_filter ?_ filed
    rintro s s2 ⟨pair, -⟩
    rw [filed_all] at pair
    dsimp only
    rw [steps_filed distinct distinct2 ordered h.filed same2 pair]
  refine Node.alike_iff.mpr ⟨?_, ?_⟩
  · refine congrArg Node.Label.block ?_
    rw [isStatic h.filedAfter, isStatic h.made, isStatic h.madeAfter, isStatic h.filed]
  show List.Forall₂ _ (b12.stmts.map Node.stmt) (b21.stmts.map Node.stmt)
  rw [List.forall₂_map_left_iff, List.forall₂_map_right_iff]
  refine forall₂_join (forall₂_comp made filedAfter) (forall₂_comp kept madeAfter) ?_
  rintro s mem s12 s21 ⟨s1, mem1, made, filedAfter⟩ ⟨s2, mem2, filed, madeAfter⟩
  have pair := filed.1
  rw [filed_all] at pair
  have inside : s ∈ b.stmts := (List.mem_filter.mp mem).1
  have free1 : Free (q.inside (.block b1)) (.stmt s1) :=
    free_made distinct distinct1 ordered h.made same1 mem1
  have square : Square (p.inside (.block b)) (q.inside (.block b1)) (q'.inside (.block b2)) (.stmt s)
      (.stmt s1) (.stmt s2) (.stmt s12) (.stmt s21) :=
    ⟨made.2, filedAfter.2, filed.2, madeAfter.2⟩
  by_cases first : ∃ site ∈ (p.inside (.block b)).sites, site.createStmt = s ∧
      isCreation site.create = true
  · obtain ⟨site, found, rfl, creation⟩ := first
    have of := siteOf_inside found
    obtain ⟨name, binds⟩ := of.binds
    refine square.binding Place.inClass_inside Place.inClass_inside Place.inClass_inside binds
      (Bool.and_eq_true_iff.mpr ⟨creation, claims_of_mem found⟩)
      (claims_filed distinct distinct2 ordered h.filed same2 pair found rfl)
      (fun c child => free_below distinct found child) free1 ?_
    refine regular.files _ (Node.mem_subtree_of_child (List.mem_map_of_mem inside) ?_) creation
    exact create_mem (sites_inside found)
  · have none_ : ∀ site ∈ (p.inside (.block b)).sites, site.createStmt = s →
        isCreation site.create = false := fun site found begins =>
      Bool.eq_false_iff.mpr fun creation => first ⟨site, found, begins, creation⟩
    exact below s inside s1 mem1 s2 (List.of_mem_zip pair).2 s12 s21 square
      (free_of_first distinct inside none_) free1
      (free_filed distinct distinct2 ordered h.filed same2 pair none_)

/-- What stands below a class. -/
def Inner (n : Node) : Prop := n.cls? = none ∧ n.unit? = none

theorem Inner.of_stmt {s : Stmt} {c : Node} (mem : c ∈ s.children) : Inner c := by
  obtain ⟨id, form⟩ := s
  cases c with
  | unit u =>
    cases form <;> simp [Stmt.children, Declaration.children, CatchClause.children] at mem
  | cls d =>
    cases form <;> simp [Stmt.children, Declaration.children, CatchClause.children] at mem
  | _ => exact ⟨rfl, rfl⟩

theorem Inner.child {c : Node} (h : Inner n) (mem : c ∈ n.children) : Inner c := by
  cases n with
  | unit u => cases h.2
  | cls d => cases h.1
  | stmt s => exact .of_stmt mem
  | block b =>
    obtain ⟨s, -, rfl⟩ := List.mem_map.mp mem
    exact ⟨rfl, rfl⟩
  | var v =>
    obtain ⟨e, -, rfl⟩ := List.mem_map.mp mem
    exact ⟨rfl, rfl⟩
  | expr e =>
    obtain ⟨e', -, rfl⟩ := List.mem_map.mp mem
    exact ⟨rfl, rfl⟩

/-- The square closes. -/
theorem Square.close (plain : p.inClass = false) (plain1 : q.inClass = false)
    (plain2 : q'.inClass = false) (h : Square p q q' n n1 n2 n12 n21) (inner : Inner n)
    (distinct : (n.subtree.map Node.id).Nodup) (distinct1 : (n1.subtree.map Node.id).Nodup)
    (distinct2 : (n2.subtree.map Node.id).Nodup) (regular : Regular n) (free : Free p n)
    (free1 : Free q n1) (free2 : Free q' n2) : n12.alike n21 = true := by
  induction n using Node.inductionOn generalizing p q q' n1 n2 n12 n21 with
  | step n ih =>
    cases n with
    | block b =>
      obtain ⟨b1, rfl⟩ := Node.block_of_sameSort h.made.sameSort
      obtain ⟨b2, rfl⟩ := Node.block_of_sameSort h.filed.sameSort
      obtain ⟨b12, rfl⟩ := Node.block_of_sameSort h.filedAfter.sameSort
      obtain ⟨b21, rfl⟩ := Node.block_of_sameSort h.madeAfter.sameSort
      refine h.block (plain1.trans plain.symm) (plain2.trans plain.symm) distinct distinct1 distinct2
        regular fun s mem s1 mem1 s2 mem2 s12 s21 square free free1 free2 => ?_
      have mem : Node.stmt s ∈ (Node.block b).children := List.mem_map_of_mem mem
      exact ih _ mem Place.inClass_inside Place.inClass_inside Place.inClass_inside square ⟨rfl, rfl⟩
        (Node.distinct_child distinct mem) (Node.distinct_child distinct1 (List.mem_map_of_mem mem1))
        (Node.distinct_child distinct2 (List.mem_map_of_mem mem2)) (regular.child mem) free free1 free2
    | expr e =>
      cases made_eq plain free h.made
      have sort := h.filed.sameSort
      cases n2 with
      | expr e2 =>
        cases made_eq plain2 free2 h.madeAfter
        exact filed_alike plain1 plain e free1 free h.filedAfter h.filed
      | _ => cases sort
    | unit u => cases inner.2
    | cls c => cases inner.1
    | _ =>
      refine h.around plain plain1 plain2 (other_of_expr? rfl) rfl rfl
        fun label1 label2 c mem c1 mem1 c2 mem2 c12 c21 square => ?_
      exact ih c mem plain plain1 plain2 square (inner.child mem) (Node.distinct_child distinct mem)
        (Node.distinct_child distinct1 mem1) (Node.distinct_child distinct2 mem2) (regular.child mem)
        (free.child rfl mem) (free1.child (closed_of_label rfl rfl label1).1 mem1)
        (free2.child (closed_of_label rfl rfl label2).1 mem2)

end TempDirectory

end JavaMend
