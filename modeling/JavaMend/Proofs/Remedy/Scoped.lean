import JavaMend.Proofs.Remedy.Orderly
import JavaMend.Proofs.Remedy.Reads

/-!
# Fixes that read what is in scope

A fix is written next to a statement of a block. Whether what it reads is in scope there depends
on what stands in front of the statement (`Block.Faces`), so each sort of fix has a demand of its
own (`PendingFix.ScopedAt`). Where all fixes meet theirs, a statement and what is written around
it can stand in the place of the statement (`Segment.ScopedAt.step`), and a tree that is closed
stays closed (`Regime.closing_lawful`).

The demands may rely on what is known of a node and the nodes above it, `safe`, if it is known of
the children as well.

A factory is configured behind the declaration that a block has of it, or in an initializer if a
field holds it (`Factory.fits_closing`). The flag of a cookie is set behind the statement that the
cookie stands in, whatever declares the local: it may be gone there if that is the header of a loop.
So such locals are excluded (`Node.Shelters`, `Cookie.fits_closing`).
-/

namespace JavaMend

variable {outer : List String} {r : Region}

/-! ## Statements in turn -/

/-- Statements in turn, each closed where it stands. -/
def Stmt.ClosedInTurn (outer : List String) (r : Region) (stmts : List Stmt) : Prop :=
  Node.ClosedInTurn outer r (stmts.map .stmt)

namespace Stmt

variable {front stmts more back : List Stmt} {s : Stmt}

theorem flatMap_declares (stmts : List Stmt) :
    (stmts.map Node.stmt).flatMap Node.declares = stmts.flatMap declaredNames := by
  rw [List.flatMap_map]
  rfl

theorem closedInTurn_append : ClosedInTurn outer r (stmts ++ more) ↔ ClosedInTurn outer r stmts ∧
    ClosedInTurn outer (r.declaring (stmts.flatMap declaredNames)) more := by
  unfold ClosedInTurn
  rw [List.map_append, Node.closedInTurn_append, flatMap_declares]

theorem closedInTurn_singleton : ClosedInTurn outer r [s] ↔ (Node.stmt s).Closed outer r :=
  Node.closedInTurn_cons.trans (and_iff_left Node.closedInTurn_nil)

/-- Statements stay closed behind more declarations. -/
theorem ClosedInTurn.behind {some more : List String}
    (h : ClosedInTurn outer (r.declaring some) stmts) (grows : r = .members ∨ some ⊆ more) :
    ClosedInTurn outer (r.declaring more) stmts := by
  rcases grows with rfl | grows
  · exact h
  · exact Node.ClosedInTurn.wider h ((Region.Wider.refl outer r).declaring_more grows)

/-- What stands in the place of a statement and declares as much leaves the statements behind
closed. -/
theorem ClosedInTurn.replaced {news : List Stmt}
    (h : ClosedInTurn outer r (front ++ [s] ++ back))
    (closed : ClosedInTurn outer (r.declaring (front.flatMap declaredNames)) news)
    (declares : r = .members ∨ s.declaredNames ⊆ news.flatMap declaredNames) :
    ClosedInTurn outer r (front ++ news ++ back) := by
  obtain ⟨before, behind⟩ := closedInTurn_append.mp h
  refine closedInTurn_append.mpr ⟨closedInTurn_append.mpr
    ⟨(closedInTurn_append.mp before).1, closed⟩, behind.behind (declares.imp_right fun declares => ?_)⟩
  rw [List.flatMap_append, List.flatMap_append, List.flatMap_singleton]
  exact List.append_subset.mpr
    ⟨List.subset_append_left _ _, fun x mem => List.mem_append_right _ (declares mem)⟩

end Stmt

/-! ## Statements of a block -/

/-- In a block whose statements are closed, one of them faces a region: what is in scope where
it stands. -/
def Block.Faces (b : Block) (above : List Node) (s : Stmt) (outer : List String) (r : Region) : Prop :=
  ∃ start front back, b.stmts = front ++ [s] ++ back ∧ start.SameKind (.below (.block b :: above)) ∧
    Stmt.ClosedInTurn outer start b.stmts ∧ r = start.declaring (front.flatMap Stmt.declaredNames)

namespace Block.Faces

variable {b : Block} {above : List Node} {s : Stmt}

theorem kind (h : b.Faces above s outer r) : r.SameKind (.below (.block b :: above)) := by
  obtain ⟨start, front, back, -, kind, -, rfl⟩ := h
  exact Region.declaring_members.trans kind

theorem closed (h : b.Faces above s outer r) : (Node.stmt s).Closed outer r := by
  obtain ⟨start, front, back, split, -, closed, rfl⟩ := h
  rw [split] at closed
  obtain ⟨before, -⟩ := Stmt.closedInTurn_append.mp closed
  exact Stmt.closedInTurn_singleton.mp (Stmt.closedInTurn_append.mp before).2

end Block.Faces

/-! ## What a fix has to read -/

/-- The fix reads what is in scope, if its anchor faces the region. What it takes out of the
block declares nothing that can be read behind it. -/
def PendingFix.ScopedAt (outer : List String) (r : Region) (fix : PendingFix) : Prop :=
  match fix.kind with
  | .extract _ => r ≠ .members ∧ fix.tainted.ReadsFrom (· ∈ outer ++ r.names)
  | .guardAfter _ _ => ∀ e ∈ fix.tainted :: fix.parent.toList,
      e.ReadsFrom (· ∈ outer ++ (r.declaring fix.anchor.declaredNames).names)
  | .replace new _ => new.ReadsFrom (· ∈ (Node.expr fix.tainted).reads)
  | .insertAfter stmts => Stmt.ClosedInTurn outer (r.declaring fix.anchor.declaredNames) stmts
  | .insertBefore stmts => Stmt.ClosedInTurn outer r stmts
  | .remove => r = .members ∨ fix.anchor.declaredNames = []

/-- What stands in the place of a statement that faces the region is closed there, and declares
what the statement declares. -/
structure Segment.ScopedAt (outer : List String) (r : Region) (s : Stmt) (seg : Segment) : Prop where
  closed : Stmt.ClosedInTurn outer r seg.stmts
  declares : r = .members ∨ s.declaredNames ⊆ seg.stmts.flatMap Stmt.declaredNames
  core : ∀ core ∈ seg.core, core.declaredNames = s.declaredNames

/-! ## Replacing expressions -/

namespace Stmt

variable {s s' : Stmt} {target new : Expr} {next used : NodeId}

/-- An expression is replaced by one that reads no more. -/
theorem replaceExpr?_standsFor (coherent : (Node.stmt s).Coherent)
    (only : ∀ m ∈ (Node.stmt s).subtree, m.same (.expr target) = true → m = .expr target)
    (reads : new.ReadsFrom (· ∈ (Node.expr target).reads))
    (h : s.replaceExpr? target new next = (some s', used)) :
    Node.StandsFor .any (.stmt s) (.stmt s') :=
  Node.replaceExpr?_keeps (.refl .any)
    (fun n out news _ => .refilled Node.Place.inherited_any n out news)
    (fun _ => .expr reads) coherent only (Nat.zero_le _) (replaceExpr?_node h)

/-- Expressions are replaced by the read of a local, which is in scope. -/
theorem replaceAlike?_standsFor {x : String} (reads : new.ReadsFrom (· = x))
    (h : s.replaceAlike? target new next = (some s', used)) :
    Node.StandsFor (.naming x) (.stmt s) (.stmt s') := by
  refine Node.replaceAlike?_keeps (.refl _) (.refilled (Node.Place.inherited_naming x))
    (fun e _ _ => ⟨rfl, ?_⟩)
    (replaceAlike?_node h)
  exact fun outer r known _ => Node.closed_of_reads fun y mem => reads y mem ▸ known

end Stmt

/-! ## One fix -/

/-- What a fix makes of a statement that faces a region, if what it writes is closed. -/
structure FixStep.Scoped (outer : List String) (r : Region) (core : Stmt) (before : List Stmt)
    (core' : Option Stmt) (after : List Stmt) : Prop where
  closed : Stmt.ClosedInTurn outer r (before ++ core'.toList ++ after)
  declares : r = .members ∨
    core.declaredNames ⊆ (before ++ core'.toList ++ after).flatMap Stmt.declaredNames
  core : ∀ s ∈ core', s.declaredNames = core.declaredNames

section

variable {core : Stmt}

theorem Stmt.closedInTurn_two {s t : Stmt} (first : (Node.stmt s).Closed outer r)
    (second : (Node.stmt t).Closed outer (r.declaring s.declaredNames)) :
    Stmt.ClosedInTurn outer r [s, t] :=
  Node.closedInTurn_cons.mpr ⟨first, closedInTurn_singleton.mpr second⟩

/-- The declaration of the new local, and the statement that reads it. -/
theorem FixStep.Scoped.extract {tainted read : Expr} {changed declaration : Stmt} {name : String}
    {start named replaced declared : NodeId} (closed : (Node.stmt core).Closed outer r)
    (inCode : r ≠ .members) (reads : tainted.ReadsFrom (· ∈ outer ++ r.names))
    (hread : Expr.mkIdent name tainted.ty start = (read, named))
    (hchanged : core.replaceAlike? tainted read named = (some changed, replaced))
    (hdeclaration : Stmt.mkDeclare [.final] tainted.ty name (some tainted) replaced =
      (declaration, declared)) : Scoped outer r core [declaration] (some changed) [] := by
  have hears : read.ReadsFrom (· = name) := by
    have made : (Expr.mkIdent name tainted.ty).Gives (Expr.ReadsFrom (· = name)) :=
      @Expr.mkIdent_reads (· = name) name rfl tainted.ty
    have made := made start
    rwa [hread] at made
  have exchanged := Stmt.replaceAlike?_standsFor hears hchanged []
  have same : changed.declaredNames = core.declaredNames := exchanged.declares
  have first : (Node.stmt declaration).Closed outer r := by
    cases hdeclaration
    exact Node.closed_of_reads (Stmt.mkDeclare_reads reads _ _ _ _)
  have names : declaration.declaredNames = [name] := by
    cases hdeclaration
    rfl
  have second : (Node.stmt changed).Closed outer (r.declaring [name]) := by
    refine exchanged.closed outer _ (List.mem_append_right _ ?_) (closed.behind [name])
    exact (Region.mem_declaring inCode).mpr (.inr (List.mem_singleton_self name))
  refine ⟨Stmt.closedInTurn_two first (by rwa [names]), .inr ?_, ?_⟩
  · show core.declaredNames ⊆ [declaration, changed].flatMap Stmt.declaredNames
    rw [List.flatMap_cons, List.flatMap_singleton, same]
    exact List.subset_append_right _ _
  · rintro _ ⟨⟩
    exact same

/-- What a fix makes of the statement in the place of its anchor, where at least as much is in
scope as in front of the anchor. -/
theorem FixStep.scoped {fix : PendingFix} {before after : List Stmt} {core' : Option Stmt}
    {next used : NodeId} {front : List String} (fits : fix.ScopedAt outer r)
    (closed : (Node.stmt core).Closed outer (r.declaring front))
    (same : core.declaredNames = fix.anchor.declaredNames)
    (step : FixStep next used fix core before core' after)
    (replaces : fix.kind.tag = .replace → (Node.stmt core).Coherent ∧
      ∀ m ∈ (Node.stmt core).subtree, m.same (.expr fix.tainted) = true → m = .expr fix.tainted) :
    Scoped outer (r.declaring front) core before core' after := by
  have here {stmts : List Stmt} (h : Stmt.ClosedInTurn outer r stmts) :
      Stmt.ClosedInTurn outer (r.declaring front) stmts := by
    rw [← r.declaring_nil] at h
    exact h.behind (.inr (List.nil_subset _))
  have behind {stmts : List Stmt}
      (h : Stmt.ClosedInTurn outer (r.declaring fix.anchor.declaredNames) stmts) :
      Stmt.ClosedInTurn outer ((r.declaring front).declaring core.declaredNames) stmts := by
    rw [Region.declaring_declaring, same]
    exact h.behind (.inr (List.subset_append_right _ _))
  have still : ∀ s ∈ some core, s.declaredNames = core.declaredNames := by
    rintro _ ⟨⟩
    rfl
  unfold PendingFix.ScopedAt at fits
  cases step with
  | extract kind _ _ hread hchanged hdeclaration =>
    rw [kind] at fits
    obtain ⟨inCode, reads⟩ := fits
    refine .extract closed (mt Region.declaring_members.mp inCode) (reads.mono fun x mem => ?_)
      hread hchanged hdeclaration
    exact (List.mem_append.mp mem).elim (List.mem_append_left _)
      fun mem => List.mem_append_right _ (r.names_declaring front mem)
  | @guardAfter variant message parent thrown guard _ _ kind hparent _ _ hguard =>
    rw [kind, hparent] at fits
    obtain ⟨tainted, others⟩ := List.forall_mem_cons.mp fits
    have reads := mkGuard_reads tainted (List.forall_mem_singleton.mp others) variant thrown message
    have made : (Node.stmt guard).Closed outer (r.declaring fix.anchor.declaredNames) := by
      cases hguard
      exact Node.closed_of_reads (reads _)
    refine ⟨Stmt.closedInTurn_two closed (Stmt.closedInTurn_singleton.mp (behind ?_)), .inr ?_, still⟩
    · exact Stmt.closedInTurn_singleton.mpr made
    · exact List.subset_append_left _ _
  | @replace new imports changed _ kind _ hchanged =>
    rw [kind] at fits
    obtain ⟨coherent, only⟩ := replaces (by rw [kind]; rfl)
    have stays := Stmt.replaceExpr?_standsFor coherent only fits hchanged []
    have same : changed.declaredNames = core.declaredNames := stays.declares
    refine ⟨Stmt.closedInTurn_singleton.mpr (stays.closed outer _ trivial closed), .inr ?_, ?_⟩
    · show core.declaredNames ⊆ [changed].flatMap Stmt.declaredNames
      rw [List.flatMap_singleton, same]
      exact List.Subset.refl _
    · rintro _ ⟨⟩
      exact same
  | insertAfter kind =>
    rw [kind] at fits
    exact ⟨Node.closedInTurn_cons.mpr ⟨closed, behind fits⟩, .inr (List.subset_append_left _ _), still⟩
  | insertBefore kind =>
    rw [kind] at fits
    have closed : Stmt.ClosedInTurn outer (r.declaring front) (before ++ [core]) :=
      Stmt.closedInTurn_append.mpr
        ⟨here fits, Stmt.closedInTurn_singleton.mpr (closed.behind (before.flatMap Stmt.declaredNames))⟩
    have whole : before ++ (some core).toList ++ [] = before ++ [core] := List.append_nil _
    refine ⟨whole.symm ▸ closed, .inr ?_, still⟩
    rw [whole, List.flatMap_append, List.flatMap_singleton]
    exact List.subset_append_right _ _
  | remove kind =>
    rw [kind] at fits
    refine ⟨Node.closedInTurn_nil, ?_, fun s none => (Option.not_mem_none s none).elim⟩
    refine fits.imp (fun members => Region.declaring_members.mpr members) fun silent => ?_
    rw [same, silent]
    exact List.nil_subset _

end

/-- Applying a fix that reads what is in scope keeps the segment closed. -/
theorem Segment.ScopedAt.step {fix : PendingFix} {front back before after : List Stmt} {core : Stmt}
    {core' : Option Stmt} {next used : NodeId} (fits : fix.ScopedAt outer r)
    (kept : ScopedAt outer r fix.anchor ⟨front, some core, back⟩)
    (step : FixStep next used fix core before core' after)
    (replaces : fix.kind.tag = .replace → (Node.stmt core).Coherent ∧
      ∀ m ∈ (Node.stmt core).subtree, m.same (.expr fix.tainted) = true → m = .expr fix.tainted) :
    ScopedAt outer r fix.anchor ⟨front ++ before, core', after ++ back⟩ := by
  have same : core.declaredNames = fix.anchor.declaredNames := kept.core core rfl
  have whole : Stmt.ClosedInTurn outer r (front ++ [core] ++ back) := kept.closed
  have faced := (Stmt.closedInTurn_append.mp (Stmt.closedInTurn_append.mp whole).1).2
  obtain ⟨closed, declares, still⟩ :=
    FixStep.scoped fits (Stmt.closedInTurn_singleton.mp faced) same step replaces
  rw [Region.declaring_members] at declares
  have stmts : stmts ⟨front ++ before, core', after ++ back⟩ =
      front ++ (before ++ core'.toList ++ after) ++ back := by simp [Segment.stmts]
  refine ⟨?_, declares.imp_right fun declares => ?_, fun s mem => (still s mem).trans same⟩
  · rw [stmts]
    exact whole.replaced closed declares
  · rw [stmts, ← same, List.flatMap_append, List.flatMap_append]
    exact fun x mem => List.mem_append_left _ (List.mem_append_right _ (declares mem))

/-- Segments in turn, each closed in the region that its statement faced, are closed together. -/
theorem Stmt.closedInTurn_segments {start : Region} {parts : List (Stmt × Segment)}
    (before after : List String)
    (segments : ∀ front p back, parts = front ++ p :: back → p.2.ScopedAt outer
      (start.declaring (before ++ (front.map (·.1)).flatMap declaredNames)) p.1)
    (grows : start = .members ∨ before ⊆ after) :
    ClosedInTurn outer (start.declaring after) (parts.flatMap (·.2.stmts)) := by
  induction parts generalizing before after with
  | nil => exact Node.closedInTurn_nil
  | cons p parts ih =>
    have first := segments [] p parts rfl
    rw [List.map_nil, List.flatMap_nil, List.append_nil] at first
    rw [List.flatMap_cons, closedInTurn_append, Region.declaring_declaring]
    refine ⟨first.closed.behind grows,
      ih (before ++ p.1.declaredNames) _ (fun front p' back split => ?_) ?_⟩
    · have later := segments (p :: front) p' back (congrArg (p :: ·) split)
      rwa [List.map_cons, List.flatMap_cons, ← List.append_assoc] at later
    · have declares := first.declares
      rw [Region.declaring_members] at declares
      rcases grows with members | grows
      · exact .inl members
      · exact declares.imp_right fun declares => List.append_subset.mpr
          ⟨fun x mem => List.mem_append_left _ (grows mem),
            fun x mem => List.mem_append_right _ (declares mem)⟩

/-! ## The regime -/

namespace Regime

/-- The regime under which trees stay closed where it is safe. -/
def closing (safe : List Node → Node → Prop) (hidden : Expr → Bool) (tree : Multiset Node)
    (mark : NodeId) : Regime where
  hidden := hidden
  tree := tree
  mark := mark
  fits path fix := ∀ b above outer r, path = .block b :: above → safe above (.block b) →
    b.Faces above fix.anchor outer r → fix.ScopedAt outer r
  became above n out := safe above n → Node.StaysClosed .ofKind above n out
  segment path s seg := ∀ b above outer r, path = .block b :: above → safe above (.block b) →
    b.Faces above s outer r → seg.ScopedAt outer r s

variable {safe : List Node → Node → Prop} {hidden : Expr → Bool} {tree : Multiset Node} {mark : NodeId}

theorem closing_lawful (drawn : Drawn 0 mark tree)
    (inherited : ∀ above n c, safe above n → c ∈ n.children → safe (n :: above) c) :
    (closing safe hidden tree mark).Lawful where
  drawn := drawn
  became_self above n _ := .refl .ofKind above n
  became_refilled above n out news refilled children safe := by
    refine .refilled Node.Place.inherited_ofKind refilled ?_
    rw [List.forall₂_iff_zip] at children ⊢
    exact ⟨children.1, fun {c c'} mem =>
      (children.2 mem).became (inherited above n c safe (List.of_mem_zip mem).1)⟩
  segment_visited b above s s' mem became := by
    rintro _ _ outer r ⟨⟩ safe faces
    have stays := became.became (inherited above _ _ safe (List.mem_map_of_mem mem))
    have same : s'.declaredNames = s.declaredNames := stays.declares
    refine ⟨Stmt.closedInTurn_singleton.mpr (stays.closed outer r faces.kind faces.closed), .inr ?_, ?_⟩
    · show s.declaredNames ⊆ [s'].flatMap Stmt.declaredNames
      rw [List.flatMap_singleton, same]
      exact List.Subset.refl _
    · rintro _ ⟨⟩
      exact same
  segment_step path fix front core back next used before core' after anchored kept _ step replaces :=
    fun b above outer r at_ safe faces => .step (anchored.fits b above outer r at_ safe faces)
      (kept b above outer r at_ safe faces) step replaces
  became_repaired b out above parts anchors _ stmts segments safe := by
    refine ⟨rfl, fun outer r kind closed => Node.closed_block.mpr ?_⟩
    have closed : Stmt.ClosedInTurn outer r b.stmts := Node.closed_block.mp closed
    have whole : Stmt.ClosedInTurn outer (r.declaring []) (parts.flatMap (·.2.stmts)) := by
      refine Stmt.closedInTurn_segments [] [] (fun front p back split => ?_)
        (.inr (List.Subset.refl _))
      refine segments p (split ▸ List.mem_append_right _ List.mem_cons_self) b above outer _ rfl safe ?_
      refine ⟨r, front.map (·.1), back.map (·.1), ?_, kind, closed, rfl⟩
      rw [← anchors, split, List.map_append, List.map_cons, List.append_assoc, List.singleton_append]
    rw [Region.declaring_nil, ← stmts] at whole
    exact whole

end Regime

/-! ## Where members are declared -/

/-- Where the body of a class starts, members are declared. -/
theorem Region.below_of_owner {b : Block} {above : List Node}
    (owned : ((⟨.block b :: above⟩ : Path).bodyOwner?).isSome) :
    Region.below (.block b :: above) = .members := by
  cases above with
  | nil => simp [Path.bodyOwner?, Path.parent?] at owned
  | cons owner up =>
    change ((owner.class?).map (·.1.ty)).isSome at owned
    cases owner with
    | cls c => rfl
    | stmt s =>
      obtain ⟨id, form⟩ := s
      cases form <;> first | rfl | cases owned
    | _ => cases owned

/-- Members are declared in no other block. -/
theorem Region.owner_of_below {b : Block} {above : List Node}
    (genuine : Path.GenuineList (.block b :: above))
    (members : Region.below (.block b :: above) = .members) :
    ((⟨.block b :: above⟩ : Path).bodyOwner?).isSome := by
  change Region.below above = .members at members
  cases above with
  | nil => cases members
  | cons owner up =>
    change owner.label.region (Region.below up) = .members at members
    have inner : (Region.below up).inner ≠ .members := by
      cases Region.below up <;> exact Region.noConfusion
    have child := genuine.1
    cases owner with
    | cls c => rfl
    | stmt s =>
      obtain ⟨id, form⟩ := s
      cases form with
      | cls head body => rfl
      | method head body => cases members
      | declare decl =>
        obtain ⟨v, -, same⟩ := List.mem_map.mp child
        cases same
      | _ => exact (inner members).elim
    | _ =>
      obtain ⟨m, -, same⟩ := List.mem_map.mp child
      cases same

namespace Block.Faces

variable {b : Block} {above : List Node} {s : Stmt}

theorem members (h : b.Faces above s outer r)
    (owned : ((⟨.block b :: above⟩ : Path).bodyOwner?).isSome) : r = .members :=
  h.kind.mpr (Region.below_of_owner owned)

theorem inCode (h : b.Faces above s outer r) (genuine : Path.GenuineList (.block b :: above))
    (free : (⟨.block b :: above⟩ : Path).bodyOwner? = none) : r ≠ .members := by
  intro members
  have owned := Region.owner_of_below genuine (h.kind.mp members)
  rw [free] at owned
  cases owned

end Block.Faces

/-- What a statement declares is in scope behind it, and where the statements behind it stand. -/
theorem Block.Faces.declared {b : Block} {above : List Node} {s t : Stmt} {front following : List Stmt}
    (h : b.Faces above t outer r) (distinct : b.stmts.Nodup)
    (split : b.stmts = front ++ s :: following) (after : t = s ∨ t ∈ following)
    (inCode : r ≠ .members) {x : String} (mem : x ∈ s.declaredNames) :
    x ∈ (r.declaring t.declaredNames).names := by
  rcases after with rfl | later
  · exact (Region.mem_declaring inCode).mpr (.inr mem)
  · obtain ⟨start, front', back, split', -, -, rfl⟩ := h
    obtain ⟨between, rest, rfl⟩ := List.append_of_mem later
    have place : (front ++ s :: between) ++ t :: rest = front' ++ t :: back :=
      (List.append_assoc front (s :: between) (t :: rest)).trans
        (split.symm.trans (split'.trans (List.append_cons front' t back).symm))
    have nodup : ((front ++ s :: between) ++ t :: rest).Nodup := by
      rwa [place, List.append_cons, ← split']
    obtain ⟨alone, -⟩ := List.nodup_cons.mp (List.nodup_middle.mp nodup)
    rw [List.mem_append, not_or] at alone
    obtain ⟨rfl, -, -⟩ := (List.append_cons_inj_of_notMem alone.1 alone.2).mp place
    have inCode := mt Region.declaring_members.mpr inCode
    refine Region.names_declaring _ _ ((Region.mem_declaring inCode).mpr (.inr ?_))
    exact List.mem_flatMap.mpr ⟨s, List.mem_append_right _ List.mem_cons_self, mem⟩

/-! ## Fixes that fit -/

section

variable {safe : List Node → Node → Prop} {hidden : Expr → Bool} {tree : Multiset Node} {mark : NodeId}
  {path : List Node}

theorem Regime.fits_closing {b : Block} {above : List Node} {fix : PendingFix}
    (fits : ∀ outer r, safe above (.block b) → b.Faces above fix.anchor outer r → fix.ScopedAt outer r) :
    (closing safe hidden tree mark).fits (.block b :: above) fix := by
  rintro _ _ outer r ⟨⟩
  exact fits outer r

/-- A replacement that reads no more fits. -/
theorem Regime.fitsNear_closing {anchor : Stmt} {tainted new : Expr} {imports : List String}
    (reads : new.ReadsFrom (· ∈ (Node.expr tainted).reads)) :
    (closing safe hidden tree mark).FitsNear path ⟨anchor, tainted, none, .replace new imports⟩ :=
  fun _ _ _ _ _ => fits_closing fun _ _ _ _ => reads

/-- Statements that declare nothing may be taken out. -/
theorem Regime.fits_closing_remove {b : Block} {above : List Node} {anchor : Stmt} {tainted : Expr}
    (silent : anchor.declaredNames = []) :
    (closing safe hidden tree mark).fits (.block b :: above) ⟨anchor, tainted, none, .remove⟩ :=
  fits_closing fun _ _ _ _ => .inr silent

/-- The configuration of a factory is written where the factory can be read: behind the
declaration of a local, or in an initializer of the class for a field. -/
theorem Factory.fits_closing {matcher : CallMatcher} {creation : List Signature} {b : Block}
    {above : List Node} {f : Factory} {last : Option Stmt} {stmts : List Stmt}
    (drawn : Drawn 0 mark tree)
    (stands : (Regime.closing safe hidden tree mark).Stands (.block b) above)
    (mem : f ∈ declaredIn matcher creation b.stmts)
    (follows : (⟨.block b :: above⟩ : Path).bodyOwner? = none → ∀ s ∈ last, s ∈ f.following)
    (closed : ∀ outer locals,
      ((⟨.block b :: above⟩ : Path).bodyOwner? = none → f.held.name ∈ outer ++ locals) →
      Stmt.ClosedInTurn outer (.code locals) stmts) :
    f.Fits (.closing safe hidden tree mark) (.block b :: above)
      (⟨.block b :: above⟩ : Path).bodyOwner? last stmts := by
  cases owner : (⟨.block b :: above⟩ : Path).bodyOwner? with
  | some ty =>
    refine fun next => Regime.fits_closing fun outer r _ faces => ?_
    obtain rfl := faces.members (Option.isSome_of_eq_some owner)
    refine Stmt.closedInTurn_singleton.mpr (mkFieldInitializer_closed ?_ next)
    exact closed outer [] fun none => (Option.some_ne_none ty (owner.symm.trans none)).elim
  | none =>
    refine Regime.fits_closing fun outer r _ faces => ?_
    obtain ⟨⟨front, split⟩, decl, declares, held⟩ := declaredAmong_of_mem mem
    have distinct : b.stmts.Nodup := (stands.distinct_stmts drawn.distinct).of_map
    have inCode := faces.inCode stands.genuine owner
    have named : f.held.name ∈ f.declaration.declaredNames := by
      unfold Stmt.declaration? at declares
      unfold Stmt.declaredNames
      split at declares
      · cases declares
        exact List.mem_map_of_mem held
      · cases declares
    have behind : f.held.name ∈ (r.declaring (last.getD f.declaration).declaredNames).names := by
      refine faces.declared distinct split ?_ inCode named
      cases last with
      | none => exact .inl rfl
      | some s => exact .inr (follows owner s rfl)
    cases r with
    | members => exact (inCode rfl).elim
    | code locals => exact closed outer _ fun _ => List.mem_append_right _ behind

end

/-! ## Variables that statements declare -/

/-- The variables of a node that are declared outside of the blocks in it. -/
def Node.surfaceVars (n : Node) : List Variable :=
  if n.block?.isSome then []
  else n.var?.toList ++ n.children.attach.flatMap fun ⟨c, _⟩ => c.surfaceVars
termination_by sizeOf n
decreasing_by exact sizeOf_lt_of_mem_children ‹_›

namespace Node

theorem surfaceVars_eq {n : Node} (open_ : n.block? = none) :
    n.surfaceVars = n.var?.toList ++ n.children.flatMap surfaceVars := by
  rw [surfaceVars, open_, Option.isSome_none, if_neg Bool.false_ne_true]
  simp only [List.flatMap_subtype, List.unattach_attach]

/-- The variables are locals that the statements of a block declare themselves, where they stand
outside of the blocks in the statements, and none of them is a field. -/
def Shelters (held : Variable → Bool) (n : Node) : Prop :=
  (∀ b ∈ n.block?, ∀ s ∈ b.stmts, ∀ v ∈ (stmt s).surfaceVars, held v = true →
    v.name ∈ s.declaredNames) ∧
  ∀ c ∈ n.class?, ∀ s ∈ c.2.stmts, ∀ v ∈ (stmt s).surfaceVars, held v = false

instance (held : Variable → Bool) (n : Node) : Decidable (n.Shelters held) :=
  inferInstanceAs (Decidable (_ ∧ _))

/-- The variables are sheltered by the node above, by the node and by the nodes below. -/
def Sheltered (held : Variable → Bool) (above : List Node) (n : Node) : Prop :=
  (∀ owner ∈ above.head?, owner.Shelters held) ∧ n.All (Shelters held)

theorem Sheltered.child {held : Variable → Bool} {above : List Node} {n c : Node}
    (h : n.Sheltered held above) (mem : c ∈ n.children) : c.Sheltered held (n :: above) := by
  refine ⟨?_, h.2.child mem⟩
  rintro _ ⟨⟩
  exact h.2.self

end Node

namespace Path

/-- Going outward through nodes that are no blocks stays on the surface. -/
theorem mem_surfaceVars_of_genuine {v : Variable} {m n : Node} {between back : List Node}
    (genuine : GenuineList (m :: between ++ n :: back))
    (open_ : ∀ m ∈ between ++ [n], m.block? = none) (mem : v ∈ m.surfaceVars) : v ∈ n.surfaceVars := by
  have outward {c parent : Node} (plain : parent.block? = none) (child : c ∈ parent.children)
      (mem : v ∈ c.surfaceVars) : v ∈ parent.surfaceVars := by
    rw [Node.surfaceVars_eq plain]
    exact List.mem_append_right _ (List.mem_flatMap.mpr ⟨c, child, mem⟩)
  induction between generalizing m with
  | nil => exact outward (open_ n List.mem_cons_self) genuine.1 mem
  | cons parent between ih =>
    refine ih genuine.2 (fun k hk => open_ k (List.mem_cons_of_mem _ hk)) ?_
    exact outward (open_ parent List.mem_cons_self) genuine.1 mem

/-- A variable around an expression stands on the surface of the anchor of the expression, if
there is no block between the two. -/
theorem mem_surfaceVars_anchor {e : Expr} {between rest : List Node} {v : Variable} {anchor : Stmt}
    (genuine : GenuineList (.expr e :: (between ++ .var v :: rest)))
    (open_ : ∀ n ∈ between, n.block? = none)
    (found : (⟨.expr e :: (between ++ .var v :: rest)⟩ : Path).anchor? = some anchor) :
    v ∈ (Node.stmt anchor).surfaceVars := by
  obtain ⟨front, b, up, split, closed⟩ := anchor?_cases found
  dsimp only at split
  have whole : .expr e :: (between ++ .var v :: rest) = (.expr e :: between ++ [.var v]) ++ rest := by
    simp
  have plain : ∀ n ∈ .expr e :: between ++ [.var v], n.block? = none := by
    rw [List.forall_mem_append, List.forall_mem_cons]
    exact ⟨⟨rfl, open_⟩, List.forall_mem_singleton.mpr rfl⟩
  have nearest : (.expr e :: between ++ [.var v]) ++ rest =
      (front ++ [.stmt anchor]) ++ .block b :: up := by
    rw [← whole, split, List.append_assoc, List.singleton_append]
  obtain ⟨mid, ends, -⟩ := split_before_block nearest plain
  rcases List.eq_nil_or_concat' mid with rfl | ⟨mid, last, rfl⟩
  · rw [List.append_nil] at ends
    cases (List.append_inj' ends rfl).2
  · rw [← List.append_assoc] at ends
    obtain ⟨rfl, same⟩ := List.append_inj' ends rfl
    cases same
    have below : GenuineList (.var v :: mid ++ .stmt anchor :: .block b :: up) := by
      have whole : GenuineList ((.expr e :: between) ++
          .var v :: (mid ++ .stmt anchor :: .block b :: up)) := by
        rw [split] at genuine
        simpa using genuine
      exact genuineList_right whole
    refine mem_surfaceVars_of_genuine below (fun n mem => ?_) ?_
    · rcases List.mem_append.mp mem with mem | mem
      · exact closed n (List.mem_append_right _ mem)
      · cases List.mem_singleton.mp mem
        rfl
    · rw [Node.surfaceVars_eq rfl]
      exact List.mem_append_left _ (List.mem_singleton_self v)

end Path

/-! ## Cookies -/

/-- Does a new cookie initialize the variable? -/
def Cookie.initializes (matcher : CallMatcher) (v : Variable) : Bool :=
  v.init.any fun init => matcher.acceptsAny init.unparen creation

section

variable {hidden : Expr → Bool} {tree : Multiset Node} {mark : NodeId}

/-- The flag of a cookie is set where the cookie can be read. -/
theorem Cookie.fits_closing {matcher : CallMatcher} {e : Expr} {above : List Node} {v : Variable}
    {anchor : Stmt} {next : NodeId} (drawn : Drawn 0 mark tree)
    (stands : (Regime.closing (Node.Sheltered (initializes matcher)) hidden tree mark).Stands (.expr e)
      above)
    (new : matcher.acceptsAny e creation = true)
    (initialized : (⟨.expr e :: above⟩ : Path).initialized? = some v)
    (anchored : (⟨.expr e :: above⟩ : Path).anchor? = some anchor) :
    (Regime.closing (Node.Sheltered (initializes matcher)) hidden tree mark).FitsNear (.expr e :: above)
      ⟨anchor, e, none, .insertAfter [(mkEnable v next).1]⟩ := by
  intro front b up split open_
  refine Regime.fits_closing fun outer r safe faces => ?_
  obtain ⟨front', b', up', split', open_', inside, -⟩ := Path.anchor?_of_expr stands.genuine anchored
  obtain ⟨-, rfl, rfl⟩ := Path.nearest_unique (split.symm.trans split') open_ open_'
  obtain ⟨between, init, rest, rfl, closed, held, unwrapped, same⟩ :=
    Path.variableAround?_cases stands.genuine rfl initialized
  have taken : initializes matcher v = true := by
    unfold initializes
    rw [held, Option.any_some, stands.unparen_eq drawn unwrapped same]
    exact new
  have surface := Path.mem_surfaceVars_anchor stands.genuine closed anchored
  have genuine : Path.GenuineList (.block b :: up) := by
    have whole := stands.genuine
    rw [split] at whole
    exact Path.genuineList_right whole
  have free : (⟨.block b :: up⟩ : Path).bodyOwner? = none := by
    cases up with
    | nil => rfl
    | cons owner up =>
      cases isClass : owner.class? with
      | none => simp [Path.bodyOwner?, Path.parent?, isClass]
      | some c =>
        obtain ⟨head, body⟩ := c
        have child := genuine.1
        rw [Node.children_of_class isClass] at child
        cases List.mem_singleton.mp child
        have refused := (safe.1 owner rfl).2 _ isClass anchor inside v surface
        rw [taken] at refused
        cases refused
  have declared := safe.2.self.1 b rfl anchor inside v surface taken
  refine Stmt.closedInTurn_singleton.mpr (Node.closed_of_reads (mkEnable_reads ?_ next))
  refine List.mem_append_right _ ((Region.mem_declaring (faces.inCode genuine free)).mpr (.inr declared))

end

end JavaMend
