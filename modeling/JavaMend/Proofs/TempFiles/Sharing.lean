import JavaMend.Proofs.TempFiles.Reading
import JavaMend.Proofs.Tree.Sound

/-!
# The calls of a block are shared out once

Making directories takes the calls of the sites of a block, and making files takes all
others. After one of the two, the other one still finds its own calls: no call of a site is
left in a block whose directories have been made (`TempDirectory.free_made`), and the sites
of a block whose files have been made are those of the block before
(`TempDirectory.sites_filed`).
-/

namespace JavaMend

/-- In lists without repetition, each member has one partner. -/
theorem eq_iff_of_mem_zip {α β : Type} {l : List α} {r : List β} {a a' : α} {b b' : β}
    (left : l.Nodup) (right : r.Nodup) (pair : (a, b) ∈ l.zip r) (pair' : (a', b') ∈ l.zip r) :
    a = a' ↔ b = b' := by
  obtain ⟨i, hi, at_⟩ := List.mem_iff_getElem.mp pair
  obtain ⟨j, hj, at_'⟩ := List.mem_iff_getElem.mp pair'
  rw [List.length_zip] at hi hj
  rw [List.getElem_zip] at at_ at_'
  obtain ⟨rfl, rfl⟩ := Prod.mk.inj at_
  obtain ⟨rfl, rfl⟩ := Prod.mk.inj at_'
  rw [left.getElem_inj_iff, right.getElem_inj_iff]

namespace TempDirectory

variable {p q : Place} {n c : Node} {b b' : Block} {s s' : Stmt} {e e' : Expr} {site : DirectorySite}

/-- No call in the node becomes one that makes a directory. -/
def Free (p : Place) (n : Node) : Prop := ∀ e ∈ n.surface, making.gives p e = false

theorem Free.child (h : Free p n) (open_ : n.block? = none) (mem : c ∈ n.children) : Free p c :=
  fun e on => h e (Node.mem_surface_of_child open_ mem on)

/-! ## Sites and ids -/

theorem sites_inside (mem : site ∈ (p.inside (.block b)).sites) : site ∈ sites .standard b := by
  unfold Place.inside at mem
  dsimp only at mem
  split at mem
  · cases mem
  · exact mem

/-- Where a call of a site stands. -/
theorem create_mem (mem : site ∈ sites .standard b) :
    .expr site.create ∈ (Node.stmt site.createStmt).subtree :=
  (siteAmong_of_mem mem).create

/-- A call that gives way is the call of a site of the block. -/
theorem site_of_gives (distinct : ((Node.block b).subtree.map Node.id).Nodup) (inside : s ∈ b.stmts)
    (below : .expr e ∈ (Node.stmt s).subtree) (gives : making.gives (p.inside (.block b)) e = true) :
    ∃ site ∈ (p.inside (.block b)).sites, site.createStmt = s ∧ site.create = e := by
  obtain ⟨site, mem, same⟩ := List.any_eq_true.mp (Bool.and_eq_true_iff.mp gives).2
  have same : (Node.expr site.create).id = (Node.expr e).id := eq_of_beq same
  have found := sites_inside mem
  have first : Node.stmt site.createStmt ∈ (Node.block b).children :=
    List.mem_map_of_mem (siteOf_mem found).createMem
  have here : Node.stmt s ∈ (Node.block b).children := List.mem_map_of_mem inside
  refine ⟨site, mem, Node.stmt.inj ?_, Node.expr.inj ?_⟩
  · exact Node.eq_of_inside distinct here first below (create_mem found) same.symm
  · exact Node.eq_of_id distinct (Node.mem_subtree_of_child first (create_mem found))
      (Node.mem_subtree_of_child here below) same

/-- In a statement that no such site begins with, no call gives way. -/
theorem free_of_first (distinct : ((Node.block b).subtree.map Node.id).Nodup) (inside : s ∈ b.stmts)
    (none_ : ∀ site ∈ (p.inside (.block b)).sites, site.createStmt = s →
      isCreation site.create = false) : Free (p.inside (.block b)) (.stmt s) := by
  intro e on
  by_contra gives
  have gives : making.gives (p.inside (.block b)) e = true := Bool.not_eq_false _ ▸ gives
  obtain ⟨site, mem, first, rfl⟩ := site_of_gives distinct inside (Node.mem_subtree_of_surface on) gives
  cases (none_ site mem first).symm.trans (Bool.and_eq_true_iff.mp gives).1

/-- Inside of a call of a site, no other one gives way. -/
theorem free_below (distinct : ((Node.block b).subtree.map Node.id).Nodup)
    (mem : site ∈ (p.inside (.block b)).sites) (child : c ∈ (Node.expr site.create).children) :
    Free (p.inside (.block b)) c := by
  intro e on
  by_contra gives
  have gives : making.gives (p.inside (.block b)) e = true := Bool.not_eq_false _ ▸ gives
  have found := sites_inside mem
  have of := siteOf_mem found
  have below := Node.mem_subtree_of_surface on
  have first : Node.stmt site.createStmt ∈ (Node.block b).children :=
    List.mem_map_of_mem of.createMem
  obtain ⟨other, mem', first', rfl⟩ := site_of_gives distinct of.createMem
    (Node.subtree_trans (create_mem found) (Node.mem_subtree_of_child child below)) gives
  obtain ⟨name, binds⟩ := of.binds
  obtain ⟨name', binds'⟩ := (siteOf_inside mem').binds
  rw [first', binds] at binds'
  have same : site.create = other.create := (Prod.mk.inj (Option.some.inj binds')).2
  have own : ((Node.expr site.create).subtree.map Node.id).Nodup :=
    ((Node.subtree_sublist_of_mem (Node.mem_subtree_of_child first (create_mem found))).map
      Node.id).nodup distinct
  exact Node.id_ne_of_below own child below (congrArg Expr.id same.symm)

/-- The statements that are dropped are the steps of the sites whose calls give way. -/
theorem steps_iff (distinct : ((Node.block b).subtree.map Node.id).Nodup) (inside : s ∈ b.stmts) :
    (p.inside (.block b)).steps s = true ↔ ∃ site ∈ (p.inside (.block b)).sites,
      isCreation site.create = true ∧ (site.deleteStmt = s ∨ site.mkdirStmt = s) := by
  have same {t : Stmt} (mem : t ∈ b.stmts) : t.id = s.id ↔ t = s := by
    refine ⟨fun same => Node.stmt.inj ?_, fun same => same ▸ rfl⟩
    exact Node.eq_of_id distinct (Node.mem_subtree_of_child (List.mem_map_of_mem mem)
      Node.mem_subtree_self) (Node.mem_subtree_of_child (List.mem_map_of_mem inside)
        Node.mem_subtree_self) same
  unfold Place.steps
  simp only [Bool.and_eq_true, List.any_eq_true, Bool.or_eq_true, beq_iff_eq]
  constructor
  · rintro ⟨-, site, mem, creation, step⟩
    have of := siteOf_inside mem
    exact ⟨site, mem, creation, step.imp (same of.deleteMem).mp (same of.mkdirMem).mp⟩
  · rintro ⟨site, mem, creation, step⟩
    have of := siteOf_inside mem
    refine ⟨?_, site, mem, creation, step.imp (same of.deleteMem).mpr (same of.mkdirMem).mpr⟩
    rcases step with rfl | rfl
    · rw [of.deletes]
      rfl
    · rw [of.makes]
      rfl

/-! ## Directories that have been made -/

/-- What is left of a call that has not given way can give way if it could. -/
theorem isCreation_of_label (label : (Node.expr e').label = (Node.expr e).label) :
    isCreation e' = isCreation e := by
  have method : e'.method? = e.method? := Expr.method?_of_label label
  have args : e'.args.length = e.args.length := by
    obtain ⟨-, form⟩ := Node.Label.expr.inj label
    obtain ⟨id, ty, form_⟩ := e
    obtain ⟨id', ty', form_'⟩ := e'
    cases form_ <;> cases form_' <;> simp only [ExprForm.map, reduceCtorEq] at form <;>
      first
      | rfl
      | simpa [Expr.args] using congrArg List.length (ExprForm.call.inj form).2.2.1
      | simpa [Expr.args] using congrArg List.length (ExprForm.create.inj form).2.1
  unfold isCreation
  rw [CallMatcher.acceptsAny_congr method, args]

theorem isCreation_rewritten {R : Rewriting Place} (rewritten : R.Rewritten p (.expr e) (.expr e'))
    (stays : R.gives p e = false) : isCreation e' = isCreation e := by
  rcases rewritten.cases with ⟨_, _, same, -, given, -⟩ | ⟨-, label, -⟩
  · cases same
    cases stays.symm.trans given
  · exact isCreation_of_label label

/-- Making directories leaves no call that a site claims. -/
theorem free_made (distinct : ((Node.block b).subtree.map Node.id).Nodup)
    (distinct' : ((Node.block b').subtree.map Node.id).Nodup) (ordered : Ordered b.stmts)
    (rewritten : making.Rewritten p (.block b) (.block b')) (same : q.inClass = p.inClass)
    (inside : s' ∈ b'.stmts) : Free (q.inside (.block b')) (.stmt s') := by
  refine free_of_first distinct' inside fun site' mem' _ => ?_
  cases plain : p.inClass with
  | true =>
    rw [Place.inside, same, plain] at mem'
    cases mem'
  | false =>
    have claims {site : DirectorySite} (mem : site ∈ sites .standard b) :
        (p.inside (.block b)).claims site.create = true := by
      rw [Place.inside_block plain]
      exact claims_of_mem mem
    have mirrored := making_ofCreations.sites_rewritten rewritten (Node.stmts_nodup distinct) ordered
      fun s mem steps => by
        obtain ⟨site, found, creation, step⟩ := (steps_iff distinct mem).mp steps
        exact ⟨site, sites_inside found,
          Bool.and_eq_true_iff.mpr ⟨creation, claims_of_mem found⟩, step⟩
    obtain ⟨site, mem, turned⟩ := exists_of_forall₂ mirrored (sites_inside mem')
    obtain ⟨mem, stays⟩ := List.mem_filter.mp mem
    have stays : making.gives (p.inside (.block b)) site.create = false := by simpa using stays
    rw [isCreation_rewritten turned.create stays]
    have gives : (isCreation site.create && (p.inside (.block b)).claims site.create) = false := stays
    rwa [claims mem, Bool.and_true] at gives

/-! ## Files that have been made -/

/-- No statement is dropped. -/
theorem filed_all (p : Place) (stmts : List Stmt) :
    stmts.filter (!TempFile.filing.drops p ·) = stmts :=
  List.filter_eq_self.mpr fun _ _ => rfl

section

variable (distinct : ((Node.block b).subtree.map Node.id).Nodup)
  (distinct' : ((Node.block b').subtree.map Node.id).Nodup) (ordered : Ordered b.stmts)
  (rewritten : TempFile.filing.Rewritten p (.block b) (.block b')) (same : q.inClass = p.inClass)

include distinct ordered rewritten same in
/-- Making files leaves the sites. -/
theorem sites_filed :
    List.Forall₂
      (DirectorySite.Mirrored
        (fun c c' => TempFile.filing.Rewritten (p.inside (.block b)) (.expr c) (.expr c') ∧
          isCreation c' = isCreation c)
        fun s s' => (s, s') ∈ b.stmts.zip b'.stmts)
      (p.inside (.block b)).sites (q.inside (.block b')).sites := by
  cases plain : p.inClass with
  | true =>
    rw [Place.inside, Place.inside, same, plain]
    exact .nil
  | false =>
    have mirrored := TempFile.filing_ofCreations.sites_rewritten rewritten (Node.stmts_nodup distinct)
      ordered (by
        intro s _ dropped
        cases dropped)
    have stays : ∀ site ∈ sites .standard b,
        TempFile.filing.gives (p.inside (.block b)) site.create = false := by
      intro site mem
      rw [Place.inside_block plain]
      show (isCreation site.create && !Place.claims ⟨sites .standard b, false⟩ site.create) = false
      rw [claims_of_mem mem]
      exact Bool.and_false _
    rw [List.filter_eq_self.mpr fun site mem => by rw [stays site mem]; rfl] at mirrored
    rw [Place.inside_block plain, Place.inside_block (same.trans plain)]
    rw [Place.inside_block plain] at stays mirrored
    rw [List.forall₂_iff_zip] at mirrored ⊢
    refine ⟨mirrored.1, fun {site site'} pair => ?_⟩
    obtain ⟨create, createStmt, deleteStmt, mkdirStmt⟩ := mirrored.2 pair
    unfold Rewriting.Pairs at createStmt deleteStmt mkdirStmt
    rw [filed_all] at createStmt deleteStmt mkdirStmt
    exact ⟨⟨create, isCreation_rewritten create (stays site (List.of_mem_zip pair).1)⟩, createStmt.1,
      deleteStmt.1, mkdirStmt.1⟩

include distinct distinct' ordered rewritten same in
/-- Making files leaves the steps. -/
theorem steps_filed (pair : (s, s') ∈ b.stmts.zip b'.stmts) :
    (q.inside (.block b')).steps s' = (p.inside (.block b)).steps s := by
  have mirrored := sites_filed distinct ordered rewritten same
  have partner {t t' : Stmt} (pair' : (t, t') ∈ b.stmts.zip b'.stmts) : t = s ↔ t' = s' :=
    eq_iff_of_mem_zip (Node.stmts_nodup distinct) (Node.stmts_nodup distinct') pair' pair
  rw [Bool.eq_iff_iff, steps_iff distinct (List.of_mem_zip pair).1,
    steps_iff distinct' (List.of_mem_zip pair).2]
  constructor
  · rintro ⟨site', mem', creation, step⟩
    obtain ⟨site, mem, create, -, deleteStmt, mkdirStmt⟩ := exists_of_forall₂ mirrored mem'
    exact ⟨site, mem, create.2 ▸ creation, step.imp (partner deleteStmt).mpr (partner mkdirStmt).mpr⟩
  · rintro ⟨site, mem, creation, step⟩
    obtain ⟨site', mem', create, -, deleteStmt, mkdirStmt⟩ := exists_of_forall₂ mirrored.flip mem
    exact ⟨site', mem', create.2.trans creation,
      step.imp (partner deleteStmt).mp (partner mkdirStmt).mp⟩

include distinct distinct' ordered rewritten same in
/-- Where no call of a site stands, none stands when files have been made. -/
theorem free_filed (pair : (s, s') ∈ b.stmts.zip b'.stmts)
    (none_ : ∀ site ∈ (p.inside (.block b)).sites, site.createStmt = s →
      isCreation site.create = false) : Free (q.inside (.block b')) (.stmt s') := by
  refine free_of_first distinct' (List.of_mem_zip pair).2 fun site' mem' first => ?_
  obtain ⟨site, mem, create, createStmt, -, -⟩ :=
    exists_of_forall₂ (sites_filed distinct ordered rewritten same) mem'
  rw [create.2]
  refine none_ site mem ?_
  exact (eq_iff_of_mem_zip (Node.stmts_nodup distinct) (Node.stmts_nodup distinct') createStmt pair).mpr
    first

include distinct distinct' ordered rewritten same in
/-- The call of a site is the call of a site when files have been made. -/
theorem claims_filed (pair : (s, s') ∈ b.stmts.zip b'.stmts)
    (mem : site ∈ (p.inside (.block b)).sites) (first : site.createStmt = s) :
    ∃ name create', binding? .standard s' = some (name, create') ∧
      (q.inside (.block b')).claims create' = true := by
  obtain ⟨site', mem', -, createStmt, -, -⟩ :=
    exists_of_forall₂ (sites_filed distinct ordered rewritten same).flip mem
  have at_ : site'.createStmt = s' := (eq_iff_of_mem_zip (Node.stmts_nodup distinct)
    (Node.stmts_nodup distinct') createStmt pair).mp first
  obtain ⟨name, binds⟩ := (siteOf_inside mem').binds
  exact ⟨name, site'.create, at_ ▸ binds, claims_of_mem mem'⟩

end

end TempDirectory

end JavaMend
