import JavaMend.Proofs.Remedy.Mending
import JavaMend.Proofs.Remedy.Written

/-!
# What remedies note

Each remedy looks at a node and notes fixes for a statement of the nearest block. For
every remedy it is shown here, whatever the regime, that it notes only fixes that may
wait (`Regime.Notes`): its fixes are anchored where they are noted, and what they
write is new or was taken from the expression that they replace. Whether the fixes
fit is left to the regime, as a hypothesis for each fix that the remedy notes.
-/

namespace JavaMend

namespace Regime

variable {G : Regime} {σ : Type}

/-! ## Fixes near a node -/

/-- The fix may wait at the nearest block. -/
def FitsNear (G : Regime) (path : List Node) (fix : PendingFix) : Prop :=
  ∀ front b above, path = front ++ .block b :: above → (∀ n ∈ front, n.block? = none) →
    G.fits (.block b :: above) fix

/-- A fix for a statement of the nearest block. -/
structure Near (G : Regime) (path : List Node) (fix : PendingFix) : Prop where
  place : ∃ front b above, path = front ++ .block b :: above ∧ (∀ n ∈ front, n.block? = none) ∧
    fix.anchor ∈ b.stmts
  fits : G.FitsNear path fix

variable {path : List Node} {fix : PendingFix} {extra hand : Multiset Node}

/-- Noting a fix that writes something new. -/
theorem Near.note_written (near : G.Near path fix) (noReplace : fix.kind.tag ≠ .replace)
    (noExtract : fix.kind.tag ≠ .extract) (new : ∀ m ∈ extra, G.mark ≤ m.id)
    (made : Stmt.partsOf G.hidden fix.kind.written ≤ extra) :
    VisitM.Triple (G.Holds path (extra + hand)) (PassM.noteFix fix : PassM σ Bool)
      fun _ => G.Holds path hand := by
  obtain ⟨front, b, above, split, open_, inside⟩ := near.place
  refine noteFix_holds split open_ ⟨⟨b, above, rfl, inside⟩, fun s mem => ?_,
    fun h => (noReplace h).elim, fun h => (noExtract h).elim, near.fits front b above split open_⟩ ?_
  · refine new (.stmt s) (Multiset.mem_of_le (le_trans (Stmt.map_stmt_le _ _) made) ?_)
    exact Multiset.mem_coe.mpr (List.mem_map_of_mem mem)
  · rw [PendingFix.load_of_written noReplace]
    exact made

/-- Making statements and noting a fix that writes them. -/
theorem note_made {α : Type} {make : Fresh α} {fix : α → PendingFix}
    (spends : make.Spends 0 fun a => Stmt.partsOf G.hidden (fix a).kind.written)
    (near : ∀ next, G.Near path (fix (make next).1)) (noReplace : ∀ a, (fix a).kind.tag ≠ .replace)
    (noExtract : ∀ a, (fix a).kind.tag ≠ .extract) :
    G.Keeps path (do PassM.noteFix (fix (← VisitM.fresh make)) : PassM σ Bool) := by
  intro hand
  refine (fresh_holds spends).bind fun a => .assuming ?_
  rintro ⟨next, rfl⟩
  refine .naming fun extra => .assuming fun new => .assuming fun made => ?_
  rw [zero_add] at made
  exact (near next).note_written (noReplace _) (noExtract _) new made

/-- Noting a fix that writes nothing. -/
theorem Near.note_plain (near : G.Near path fix) (noReplace : fix.kind.tag ≠ .replace)
    (noExtract : fix.kind.tag ≠ .extract) (nothing : fix.kind.written = []) :
    G.Keeps path (PassM.noteFix fix : PassM σ Bool) := by
  intro hand
  have noted : VisitM.Triple (G.Holds path (0 + hand)) (PassM.noteFix fix : PassM σ Bool)
      fun _ => G.Holds path hand :=
    near.note_written noReplace noExtract (fun _ mem => (Multiset.notMem_zero _ mem).elim)
      (by rw [nothing]; exact le_rfl)
  rwa [zero_add] at noted

/-- Noting a replacement that is made of the expression it replaces. -/
theorem Near.note_replace {new : Expr} {imports : List String} (near : G.Near path fix)
    (kind : fix.kind = .replace new imports) (inTree : .expr fix.tainted ∈ G.tree)
    (plain : ∀ e, G.hidden e = false)
    (paid : new.parts G.hidden ≤ fix.tainted.parts G.hidden + extra) :
    VisitM.Triple (G.Holds path (extra + hand)) (PassM.noteFix fix : PassM σ Bool)
      fun _ => G.Holds path hand := by
  obtain ⟨front, b, above, split, open_, inside⟩ := near.place
  refine noteFix_holds split open_ ⟨⟨b, above, rfl, inside⟩, fun s mem => ?_,
    fun _ => ⟨inTree, plain⟩, fun h => ?_, near.fits front b above split open_⟩
    ((PendingFix.load_replace_le_iff kind).mpr paid)
  · rw [kind] at mem
    cases mem
  · rw [kind] at h
    cases h

/-- The anchor of an expression is a statement of the nearest block. -/
theorem Stands.near {e tainted : Expr} {above : List Node} {anchor : Stmt} {parent : Option Expr}
    {kind : FixKind} (stands : G.Stands (.expr e) above)
    (found : (⟨.expr e :: above⟩ : Path).anchor? = some anchor)
    (fits : G.FitsNear (.expr e :: above) ⟨anchor, tainted, parent, kind⟩) :
    G.Near (.expr e :: above) ⟨anchor, tainted, parent, kind⟩ := by
  obtain ⟨front, b, up, split, open_, inside, -⟩ := Path.anchor?_of_expr stands.genuine found
  exact ⟨⟨front, b, up, split, open_, inside⟩, fits⟩

/-- A statement of a block below which there is none. -/
theorem near_of_mem {front above : List Node} {b : Block} (open_ : ∀ n ∈ front, n.block? = none)
    (mem : fix.anchor ∈ b.stmts) (fits : G.fits (.block b :: above) fix) :
    G.Near (front ++ .block b :: above) fix := by
  refine ⟨⟨front, b, above, rfl, open_, mem⟩, fun front' b' above' split open_' => ?_⟩
  obtain ⟨-, rfl, rfl⟩ := Path.nearest_unique split open_ open_'
  exact fits

/-- A statement of the current block. -/
theorem near_here {b : Block} {above : List Node} (mem : fix.anchor ∈ b.stmts)
    (fits : G.fits (.block b :: above) fix) : G.Near (.block b :: above) fix := by
  have near : G.Near ([] ++ .block b :: above) fix :=
    near_of_mem (fun _ none => (List.not_mem_nil none).elim) mem fits
  exact near

/-- Replacing an expression that stands at the current one, by one made of it. -/
theorem replaceHere_holds {e tainted new : Expr} {above : List Node} {imports : List String}
    (stands : G.Stands (.expr e) above) (plain : ∀ e, G.hidden e = false)
    (inside : tainted ∈ e.subterms)
    (paid : new.parts G.hidden ≤ tainted.parts G.hidden + extra)
    (fits : ∀ anchor, (⟨.expr e :: above⟩ : Path).anchor? = some anchor →
      G.FitsNear (.expr e :: above) ⟨anchor, tainted, none, .replace new imports⟩) :
    VisitM.Triple (G.Holds (.expr e :: above) (extra + hand))
      (PassM.replaceHere tainted new imports : PassM σ Unit)
      fun _ => G.Holds (.expr e :: above) hand := by
  unfold PassM.replaceHere
  refine path_holds.bind fun path => VisitM.Triple.assuming ?_
  rintro rfl
  split
  next anchor found =>
    refine VisitM.Triple.bind ?_ fun _ => .pure fun _ h => h
    exact (stands.near found (fits anchor found)).note_replace rfl
      (stands.mem_tree (Node.expr_mem_subtree inside)) plain paid
  next => exact .pure fun _ h => h.weaken (Multiset.le_add_left _ _)

/-- The same, with the new expression made on the spot. -/
theorem replaceFresh_keeps {e tainted : Expr} {above : List Node} {imports : List String}
    {make : Fresh Expr} (stands : G.Stands (.expr e) above) (plain : ∀ e, G.hidden e = false)
    (inside : tainted ∈ e.subterms)
    (spends : make.Spends (tainted.parts G.hidden) (Expr.parts G.hidden))
    (fits : ∀ anchor next, (⟨.expr e :: above⟩ : Path).anchor? = some anchor →
      G.FitsNear (.expr e :: above) ⟨anchor, tainted, none, .replace (make next).1 imports⟩) :
    G.Keeps (.expr e :: above)
      (do PassM.replaceHere tainted (← VisitM.fresh make) imports : PassM σ Unit) := by
  intro hand
  refine (fresh_holds spends).bind fun new => .assuming ?_
  rintro ⟨next, rfl⟩
  refine .naming fun extra => .assuming fun _ => .assuming fun made => ?_
  exact replaceHere_holds stands plain inside made fun anchor found => fits anchor next found

theorem path_keeps : G.Keeps path (VisitM.path : PassM σ Path) :=
  fun _ => path_holds.mono (fun _ h => h) fun _ _ h => h.2

theorem pure_keeps {α : Type} (a : α) : G.Keeps path (pure a : PassM σ α) :=
  fun _ => .pure fun _ h => h

/-- One visit after the other. -/
theorem bind_keeps {α β : Type} {first : PassM σ α} {next : α → PassM σ β}
    (h : G.Keeps path first) (hnext : ∀ a, G.Keeps path (next a)) : G.Keeps path (first >>= next) :=
  fun hand => (h hand).bind fun a => hnext a hand

/-- A remedy that looks at expressions only. -/
theorem keeps_of_expr {α : Type} {look : Expr → PassM σ α} {other : α} {n : Node}
    {above : List Node} (h : ∀ e, n = .expr e → G.Keeps (.expr e :: above) (look e)) :
    G.Keeps (n :: above) (match n with
      | .expr e => look e
      | _ => pure other) := by
  cases n with
  | expr e => exact h e rfl
  | _ => exact pure_keeps _

end Regime

/-! ## Replacements -/

section

variable {G : Regime} {env : PassEnv}

open Regime

theorem Random.notes (plain : ∀ e, G.hidden e = false)
    (fits : ∀ e above anchor next, G.Stands (.expr e) above →
      (⟨.expr e :: above⟩ : Path).anchor? = some anchor →
      G.FitsNear (.expr e :: above) ⟨anchor, e, none,
        .replace (Expr.mkCreate Jdk.secureRandom [] next).1 [Fqn.secureRandom]⟩) :
    G.Notes (Random.remedy env) where
  enter n above stands := by
    refine keeps_of_expr fun e at_ => ?_
    subst at_
    split
    · rw [← bind_assoc]
      refine bind_keeps ?_ fun _ => pure_keeps _
      refine replaceFresh_keeps stands plain e.mem_subterms_self ?_ fun anchor next found =>
        fits e above anchor next stands found
      exact (Expr.mkCreate_spends G.hidden _ []).of_le (Multiset.zero_le _)
    · exact pure_keeps _
  leave _ _ _ := pure_keeps _

theorem Cookie.inspect_keeps {e : Expr} {above : List Node} (stands : G.Stands (.expr e) above)
    (fits : ∀ v anchor next, (⟨.expr e :: above⟩ : Path).initialized? = some v →
      (⟨.expr e :: above⟩ : Path).anchor? = some anchor →
      G.FitsNear (.expr e :: above) ⟨anchor, e, none, .insertAfter [(mkEnable v next).1]⟩) :
    G.Keeps (.expr e :: above) (Cookie.inspect env e) := by
  intro hand
  unfold Cookie.inspect
  refine path_holds.bind fun path => .assuming ?_
  rintro rfl
  split
  next => exact pure_keeps _ _
  next v initialized =>
    split
    · split
      next => exact pure_keeps _ _
      next anchor found =>
        refine (fresh_holds (mkEnable_spends G.hidden v)).bind fun enable => .assuming ?_
        rintro ⟨next, rfl⟩
        refine .naming fun extra => .assuming fun new => .assuming fun made => ?_
        refine VisitM.Triple.bind ?_ fun _ => pure_keeps _ _
        rw [zero_add] at made
        refine (stands.near found (fits v anchor next initialized found)).note_written
          FixTag.noConfusion FixTag.noConfusion new ?_
        simpa [FixKind.written] using made
    · split
      · exact modifyOwn_keeps _ _
      · exact pure_keeps _ _

theorem Cookie.notes (plain : ∀ e, G.hidden e = false)
    (enables : ∀ e above v anchor next, G.Stands (.expr e) above →
      env.matcher.acceptsAny e creation = true →
      (⟨.expr e :: above⟩ : Path).initialized? = some v →
      (⟨.expr e :: above⟩ : Path).anchor? = some anchor →
      G.FitsNear (.expr e :: above) ⟨anchor, e, none, .insertAfter [(mkEnable v next).1]⟩)
    (turns : ∀ e above arg anchor next, G.Stands (.expr e) above →
      (⟨.expr e :: above⟩ : Path).anchor? = some anchor →
      G.FitsNear (.expr e :: above) ⟨anchor, arg, none, .replace (Expr.mkBool true next).1 []⟩) :
    G.Notes (Cookie.remedy env) where
  enter n above stands := by
    refine keeps_of_expr fun e at_ => ?_
    subst at_
    refine bind_keeps own_keeps fun marked => ?_
    split
    · refine bind_keeps (modifyOwn_keeps _) fun _ => bind_keeps ?_ fun _ => pure_keeps _
      unfold Cookie.turnAround
      split
      next arg head =>
        refine replaceFresh_keeps stands plain ?_ ?_ fun anchor next found =>
          turns e above arg anchor next stands found
        · exact Expr.mem_subterms_of_child
            (Expr.mem_children_of_args (List.mem_of_mem_head? head)) arg.mem_subterms_self
        · exact (Expr.mkBool_spends G.hidden true).of_le (Multiset.zero_le _)
      next => exact pure_keeps _
    · split
      next new =>
        refine bind_keeps (inspect_keeps stands ?_) fun _ => pure_keeps _
        exact fun v anchor next => enables e above v anchor next stands new
      next => exact pure_keeps _
  leave _ _ _ := pure_keeps _

theorem TempDirectory.belowClass_keeps {σ : Type} {path : List Node} :
    G.Keeps path (belowClass : PassM σ Bool) :=
  bind_keeps path_keeps fun _ => pure_keeps _

theorem TempFile.notes (plain : ∀ e, G.hidden e = false)
    (fits : ∀ e above anchor next new, G.Stands (.expr e) above →
      env.matcher.acceptsAny e TempDirectory.createTempFile = true →
      (⟨.expr e :: above⟩ : Path).anchor? = some anchor → (replacement? e next).1 = some new →
      G.FitsNear (.expr e :: above) ⟨anchor, e, none, .replace new [Fqn.files]⟩) :
    G.Notes (TempFile.remedy env) where
  enter n above stands := by
    unfold TempFile.remedy
    dsimp only
    split
    next block =>
      refine bind_keeps TempDirectory.belowClass_keeps fun below => ?_
      split
      · exact pure_keeps _
      · exact bind_keeps (modifyOwn_keeps _) fun _ => pure_keeps _
    next e =>
      refine bind_keeps own_keeps fun claimed => ?_
      split
      next creates =>
        have accepted := (Bool.and_eq_true_iff.mp creates).1
        intro hand
        unfold TempFile.checkCreation
        refine path_holds.bind fun path => .assuming ?_
        rintro rfl
        refine (fresh_holds ((replacement?_spends G.hidden e).of_le (e.partsOf_args_le G.hidden))).bind
          fun answer => .assuming ?_
        rintro ⟨next, made⟩
        refine .naming fun extra => .assuming fun _ => .assuming fun paid => ?_
        split
        next anchor new found =>
          refine VisitM.Triple.bind ?_ fun _ => pure_keeps _ _
          refine replaceHere_holds stands plain e.mem_subterms_self (by simpa using paid)
            fun anchor found => fits e above anchor next new stands accepted found made
        next => exact .pure fun _ h => h.weaken (Multiset.le_add_left _ _)
      next => exact pure_keeps _
    next => exact pure_keeps _
  leave _ _ _ := pure_keeps _

theorem Privileged.notes (remediation : String) : G.Notes (Privileged.remedy env remediation) where
  enter n above stands := by
    unfold Privileged.remedy
    dsimp only
    split
    next snippet _ =>
      refine bind_keeps (fun hand => ?_) fun _ => pure_keeps _
      exact path_holds.bind fun path => .assuming fun _ => noteFinding_keeps _ hand
    next => exact bind_keeps (pure_keeps _) fun _ => pure_keeps _
  leave _ _ _ := pure_keeps _

/-! ## Removals -/

theorem Seed.notes
    (fits : ∀ stmt b above call, G.Stands (.stmt stmt) (.block b :: above) →
      weakSeeding? env.matcher stmt = some call →
      G.fits (.block b :: above) ⟨stmt, call, none, .remove⟩) :
    G.Notes (Seed.remedy env) where
  enter n above stands := by
    unfold Seed.remedy
    dsimp only
    split
    next stmt =>
      intro hand
      refine path_holds.bind fun path => .assuming ?_
      rintro rfl
      split
      next call seeds =>
        cases above with
        | nil => exact pure_keeps _ _
        | cons parent above =>
          cases parent with
          | block b =>
            refine VisitM.Triple.bind ?_ fun _ => pure_keeps _ _
            have inside : stmt ∈ b.stmts := by
              obtain ⟨s, hs, same⟩ := List.mem_map.mp stands.genuine.1
              cases same
              exact hs
            have near : G.Near ([.stmt stmt] ++ .block b :: above) ⟨stmt, call, none, .remove⟩ :=
              near_of_mem (by simp [Node.block?]) inside (fits stmt b above call stands seeds)
            exact near.note_plain FixTag.noConfusion FixTag.noConfusion rfl hand
          | _ => exact pure_keeps _ _
      next => exact pure_keeps _ _
    next => exact pure_keeps _
  leave _ _ _ := pure_keeps _

namespace TempDirectory

variable {matcher : CallMatcher}

theorem mem_subtree_unparen (e : Expr) : .expr e.unparen ∈ (Node.expr e).subtree := by
  fun_induction Expr.unparen e with
  | case1 id ty inner ih => exact Node.mem_subtree_of_child List.mem_cons_self ih
  | case2 e plain => exact Node.mem_subtree_self

/-- A call that creates a temporary file stands in the statement that binds it. -/
theorem creates_of_binding? {stmt : Stmt} {name : String} {create : Expr}
    (found : binding? matcher stmt = some (name, create)) :
    .expr create ∈ (Node.stmt stmt).subtree ∧ matcher.acceptsAny create createTempFile = true := by
  obtain ⟨id, form⟩ := stmt
  unfold binding? at found
  dsimp only at found
  split at found
  next modifiers typeName v =>
    obtain ⟨init, hinit, found⟩ := Option.bind_eq_some_iff.mp found
    obtain ⟨_, accepted, found⟩ := Option.bind_eq_some_iff.mp found
    obtain ⟨rfl, rfl⟩ := Prod.mk.inj (Option.some.inj found)
    have child : Node.expr init ∈ (Node.var v).children := by
      simp [Node.children, hinit]
    refine ⟨Node.mem_subtree_of_child List.mem_cons_self
      (Node.mem_subtree_of_child child (mem_subtree_unparen init)), ?_⟩
    exact (Bool.and_eq_true_iff.mp ((Option.guard_eq_some' _).mp accepted)).1
  next id ty target value =>
    obtain ⟨_, accepted, found⟩ := Option.bind_eq_some_iff.mp found
    obtain ⟨_, -, found⟩ := Option.bind_eq_some_iff.mp found
    obtain ⟨rfl, rfl⟩ := Prod.mk.inj (Option.some.inj found)
    refine ⟨Node.mem_subtree_of_child List.mem_cons_self (Node.mem_subtree_of_child
      (List.mem_cons_of_mem _ List.mem_cons_self) (mem_subtree_unparen value)), ?_⟩
    exact (Bool.and_eq_true_iff.mp ((Option.guard_eq_some' _).mp accepted)).1
  next => cases found

theorem mem_of_lookup {candidates : List (String × Candidate)} {name : String}
    {candidate : Candidate} (found : candidates.lookup name = some candidate) :
    (name, candidate) ∈ candidates := by
  induction candidates with
  | nil => cases found
  | cons entry candidates ih =>
    rw [List.lookup_cons] at found
    split at found
    next same =>
      cases found
      rw [eq_of_beq same]
      exact List.mem_cons_self
    next => exact List.mem_cons_of_mem _ (ih found)

/-- The statements of a directory site are statements of some list, and the call
stands in the first of them. -/
structure SiteAmong (matcher : CallMatcher) (stmts : List Stmt) (site : DirectorySite) : Prop where
  create : .expr site.create ∈ (Node.stmt site.createStmt).subtree
  accepted : matcher.acceptsAny site.create createTempFile = true
  createStmt : site.createStmt ∈ stmts
  deleteStmt : site.deleteStmt ∈ stmts
  deletes : (stepCall? site.deleteStmt).isSome
  mkdirStmt : site.mkdirStmt ∈ stmts
  makes : (stepCall? site.mkdirStmt).isSome

/-- The same for what is known on the way. -/
structure ProgressAmong (matcher : CallMatcher) (stmts : List Stmt) (p : Progress) : Prop where
  candidates : ∀ c ∈ p.candidates, (.expr c.2.create ∈ (Node.stmt c.2.createStmt).subtree ∧
      matcher.acceptsAny c.2.create createTempFile = true) ∧
    c.2.createStmt ∈ stmts ∧ ∀ s, c.2.deleteStmt = some s → s ∈ stmts ∧ (stepCall? s).isSome
  sites : ∀ site ∈ p.sites, SiteAmong matcher stmts site

theorem ProgressAmong.forget {stmts : List Stmt} {p : Progress} (h : ProgressAmong matcher stmts p)
    (name : String) : ProgressAmong matcher stmts (p.forget name) :=
  ⟨fun c mem => h.candidates c (List.mem_filter.mp mem).1, h.sites⟩

theorem ProgressAmong.remember {stmts : List Stmt} {p : Progress} (h : ProgressAmong matcher stmts p)
    {name : String} {candidate : Candidate}
    (create : .expr candidate.create ∈ (Node.stmt candidate.createStmt).subtree ∧
      matcher.acceptsAny candidate.create createTempFile = true)
    (createStmt : candidate.createStmt ∈ stmts)
    (deleteStmt : ∀ s, candidate.deleteStmt = some s → s ∈ stmts ∧ (stepCall? s).isSome) :
    ProgressAmong matcher stmts (p.remember name candidate) := by
  refine ⟨fun c mem => ?_, h.sites⟩
  rcases List.mem_cons.mp mem with rfl | mem
  · exact ⟨create, createStmt, deleteStmt⟩
  · exact (h.forget name).candidates c mem

theorem stepCall?_of_step? {shapes : List Signature} {stmt : Stmt} {name : String}
    (found : step? matcher shapes stmt = some name) : (stepCall? stmt).isSome := by
  unfold step? at found
  obtain ⟨call, isStep, -⟩ := Option.bind_eq_some_iff.mp found
  rw [isStep]
  rfl

theorem ProgressAmong.next {stmts : List Stmt} {p : Progress} (h : ProgressAmong matcher stmts p)
    {stmt : Stmt} (mem : stmt ∈ stmts) : ProgressAmong matcher stmts (p.next matcher stmt) := by
  unfold Progress.next
  split
  next name create _ _ _ binds =>
    exact h.remember (creates_of_binding? binds) mem fun s none => nomatch none
  next => exact h.forget _
  next name _ _ _ deletes =>
    split
    next create createStmt found =>
      obtain ⟨made, inside, -⟩ := h.candidates _ (mem_of_lookup found)
      refine h.remember made inside fun s some => ?_
      cases some
      exact ⟨mem, stepCall?_of_step? deletes⟩
    next => exact h
  next name _ _ _ makes =>
    split
    next create createStmt deleteStmt found =>
      obtain ⟨made, inside, deleted⟩ := h.candidates _ (mem_of_lookup found)
      refine ⟨(h.forget name).candidates, fun site here => ?_⟩
      rcases List.mem_append.mp here with here | here
      · exact h.sites site here
      · cases List.mem_singleton.mp here
        obtain ⟨deleteMem, deletes⟩ := deleted deleteStmt rfl
        exact ⟨made.1, made.2, inside, deleteMem, deletes, mem, stepCall?_of_step? makes⟩
    next => exact h
  next => exact h

/-- The sites of a block are made of its statements. -/
theorem siteAmong_of_mem {block : Block} {site : DirectorySite} (mem : site ∈ sites matcher block) :
    SiteAmong matcher block.stmts site := by
  have all : ∀ (stmts : List Stmt) (p : Progress), (∀ s ∈ stmts, s ∈ block.stmts) →
      ProgressAmong matcher block.stmts p →
      ProgressAmong matcher block.stmts (stmts.foldl (Progress.next matcher) p) := by
    intro stmts
    induction stmts with
    | nil => exact fun p _ h => h
    | cons stmt stmts ih =>
      exact fun p inside h => ih _ (fun s hs => inside s (List.mem_cons_of_mem _ hs))
        (h.next (inside stmt List.mem_cons_self))
  refine (all block.stmts ⟨[], []⟩ (fun _ h => h) ⟨?_, ?_⟩).sites site mem
  · exact fun c none => nomatch none
  · exact fun s none => nomatch none

theorem notes (plain : ∀ e, G.hidden e = false)
    (replaces : ∀ b above site next new, G.Stands (.block b) above → site ∈ sites env.matcher b →
      (replacement? site.create next).1 = some new →
      G.fits (.block b :: above) ⟨site.createStmt, site.create, none, .replace new [Fqn.files]⟩)
    (removes : ∀ b above stmt tainted, (stepCall? stmt).isSome →
      G.fits (.block b :: above) ⟨stmt, tainted, none, .remove⟩) :
    G.Notes (remedy env) where
  enter _ _ _ := pure_keeps _
  leave b above stands := by
    unfold remedy
    dsimp only
    refine bind_keeps belowClass_keeps fun below => ?_
    split
    · exact pure_keeps _
    · intro hand
      refine .forM _ fun site mem => ?_
      have among := siteAmong_of_mem mem
      unfold noteSite
      refine (fresh_holds ((replacement?_spends G.hidden site.create).of_le
        (site.create.partsOf_args_le G.hidden))).bind fun answer => .assuming ?_
      rintro ⟨next, made⟩
      refine .naming fun extra => .assuming fun _ => .assuming fun paid => ?_
      cases answer with
      | none => exact .pure fun _ h => h.weaken (Multiset.le_add_left _ _)
      | some new =>
        have inTree : Node.expr site.create ∈ G.tree := by
          refine stands.mem_tree (Node.mem_subtree_of_child ?_ among.create)
          exact List.mem_map_of_mem among.createStmt
        refine VisitM.Triple.bind ((near_here among.createStmt
          (replaces b above site next new stands mem made)).note_replace rfl inTree plain
          (by simpa using paid)) fun _ => ?_
        refine bind_keeps ((near_here among.deleteStmt
          (removes b above _ _ among.deletes)).note_plain FixTag.noConfusion FixTag.noConfusion rfl)
          (fun _ => ?_) hand
        refine bind_keeps ((near_here among.mkdirStmt
          (removes b above _ _ among.makes)).note_plain FixTag.noConfusion FixTag.noConfusion rfl)
          fun _ => pure_keeps _

end TempDirectory

/-! ## Configurations -/

namespace Factory

variable {matcher : CallMatcher} {creation : List Signature} {f : Factory}

/-- A factory declared among some statements, and the statements after it. -/
structure DeclaredAmong (stmts : List Stmt) (f : Factory) : Prop where
  stmts : ∃ front, stmts = front ++ f.declaration :: f.following
  held : ∃ decl, f.declaration.declaration? = some decl ∧ f.held ∈ decl.vars

theorem declaredAmong_of_mem {stmts : List Stmt} (mem : f ∈ declaredIn matcher creation stmts) :
    DeclaredAmong stmts f := by
  induction stmts with
  | nil => cases mem
  | cons stmt following ih =>
    rw [declaredIn] at mem
    rcases List.mem_append.mp mem with here | later
    · unfold ofDeclaration at here
      split at here
      next => cases here
      next decl found =>
        obtain ⟨held, hheld, here⟩ := List.mem_filterMap.mp here
        obtain ⟨init, -, here⟩ := Option.bind_eq_some_iff.mp here
        obtain ⟨-, -, here⟩ := Option.bind_eq_some_iff.mp here
        cases here
        exact ⟨⟨[], rfl⟩, decl, found, hheld⟩
    · obtain ⟨⟨front, split⟩, held⟩ := ih later
      exact ⟨⟨stmt :: front, by rw [split]; rfl⟩, held⟩

theorem DeclaredAmong.declaration_mem {stmts : List Stmt} (h : DeclaredAmong stmts f) :
    f.declaration ∈ stmts := by
  obtain ⟨front, split⟩ := h.stmts
  rw [split]
  exact List.mem_append_right _ List.mem_cons_self

theorem DeclaredAmong.following_mem {stmts : List Stmt} (h : DeclaredAmong stmts f) {s : Stmt}
    (mem : s ∈ f.following) : s ∈ stmts := by
  obtain ⟨front, split⟩ := h.stmts
  rw [split]
  exact List.mem_append_right _ (List.mem_cons_of_mem _ mem)

/-- The configuration of a factory fits: in an initializer for a field, else after the
statement `last` or the declaration. -/
def Fits (G : Regime) (path : List Node) (f : Factory) (owner : Option Ty) (last : Option Stmt)
    (stmts : List Stmt) : Prop :=
  match owner with
  | some _ => ∀ next, G.fits path
    ⟨f.declaration, f.init, none, .insertAfter [(mkFieldInitializer f.declaration stmts next).1]⟩
  | none => G.fits path ⟨last.getD f.declaration, f.init, none, .insertAfter stmts⟩

/-- Noting a configuration that was made for a factory of the current block. -/
theorem addConfiguration_holds {b : Block} {above : List Node} {owner : Option Ty}
    {last : Option Stmt} {stmts : List Stmt} {imports : List String} {extra hand : Multiset Node}
    (among : DeclaredAmong b.stmts f) (follows : owner = none → ∀ s ∈ last, s ∈ f.following)
    (new : ∀ m ∈ extra, G.mark ≤ m.id) (made : Stmt.partsOf G.hidden stmts ≤ extra)
    (fits : f.Fits G (.block b :: above) owner last stmts) :
    VisitM.Triple (G.Holds (.block b :: above) (extra + hand))
      (f.addConfiguration owner last stmts imports)
      fun _ => G.Holds (.block b :: above) hand := by
  have notes {anchor : Stmt} {stmts : List Stmt} {extra : Multiset Node} (mem : anchor ∈ b.stmts)
      (fits : G.fits (.block b :: above) ⟨anchor, f.init, none, .insertAfter stmts⟩)
      (new : ∀ m ∈ extra, G.mark ≤ m.id) (made : Stmt.partsOf G.hidden stmts ≤ extra) :
      VisitM.Triple (G.Holds (.block b :: above) (extra + hand))
        (do
          if ← PassM.noteFix ⟨anchor, f.init, none, .insertAfter stmts⟩ then
            PassM.requestImports imports : PassM Unit Unit)
        fun _ => G.Holds (.block b :: above) hand := by
    refine VisitM.Triple.bind ((near_here mem fits).note_written FixTag.noConfusion
      FixTag.noConfusion new made) fun noted => ?_
    split
    · exact requestImports_keeps imports hand
    · exact pure_keeps _ hand
  unfold addConfiguration
  cases owner with
  | some ty =>
    refine (fresh_holds (mkFieldInitializer_spends G.hidden f.declaration stmts)).bind fun block =>
      .assuming ?_
    rintro ⟨next, rfl⟩
    refine .naming fun more => .assuming fun new' => .assuming fun made' => ?_
    have all : VisitM.Triple (G.Holds (.block b :: above) (more + extra + hand)) _ _ :=
      notes among.declaration_mem (fits next)
        (fun m mem => (Multiset.mem_add.mp mem).elim (new' m) (new m)) <| by
          rw [Stmt.partsOf_cons, Stmt.partsOf_nil, add_zero, add_comm]
          exact le_trans made' (by gcongr)
    rw [add_assoc] at all
    exact all
  | none =>
    have anchor : last.getD f.declaration ∈ b.stmts := by
      cases last with
      | none => exact among.declaration_mem
      | some s => exact among.following_mem (follows rfl s rfl)
    exact notes anchor fits new made

/-- The last setter of a local is one of the statements after its declaration. -/
theorem lastSetter?_mem {owner : Option Ty} {shapes : List Signature} {path : Path}
    (isLocal : owner = none) :
    ∀ s ∈ f.lastSetter? owner matcher shapes (f.surroundings owner path), s ∈ f.following := by
  intro s found
  have mem := (List.mem_filter.mp (List.mem_of_getLast? found)).1
  rw [isLocal] at mem
  exact mem

/-- Making a configuration and noting it. -/
theorem configure_keeps {b : Block} {above : List Node} {owner : Option Ty} {last : Option Stmt}
    {imports : List String} {make : Fresh (List Stmt)}
    (spends : make.Spends 0 (Stmt.partsOf G.hidden)) (among : DeclaredAmong b.stmts f)
    (follows : owner = none → ∀ s ∈ last, s ∈ f.following)
    (fits : ∀ next, f.Fits G (.block b :: above) owner last (make next).1) :
    G.Keeps (.block b :: above) (do
      let stmts ← VisitM.fresh make
      f.addConfiguration owner last stmts imports) := by
  intro hand
  refine (fresh_holds spends).bind fun stmts => .assuming ?_
  rintro ⟨next, rfl⟩
  refine .naming fun extra => .assuming fun new => .assuming fun made => ?_
  rw [zero_add] at made
  exact addConfiguration_holds among follows new made (fits next)

end Factory

theorem XmlInput.notes {dtdsRequired : Bool}
    (fits : ∀ b above f last properties next, G.Stands (.block b) above →
      f ∈ Factory.declaredIn env.matcher creation b.stmts →
      ((⟨.block b :: above⟩ : Path).bodyOwner? = none → ∀ s ∈ last, s ∈ f.following) →
      f.Fits G (.block b :: above) (⟨.block b :: above⟩ : Path).bodyOwner? last
        (mkSettings f (⟨.block b :: above⟩ : Path).bodyOwner? properties next).1) :
    G.Notes (XmlInput.remedy env dtdsRequired) where
  enter _ _ _ := pure_keeps _
  leave b above stands hand := by
    refine path_holds.bind fun path => .assuming ?_
    rintro rfl
    refine .forM _ fun f mem => ?_
    unfold XmlInput.protect
    dsimp only
    split
    next => exact pure_keeps _ _
    next =>
      exact Factory.configure_keeps (mkSettings_spends G.hidden f _ _)
        (Factory.declaredAmong_of_mem mem) Factory.lastSetter?_mem
        (fun next => fits b above f _ _ next stands mem Factory.lastSetter?_mem) hand

theorem Transformer.notes
    (fits : ∀ b above f last settings next, G.Stands (.block b) above →
      f ∈ Factory.declaredIn env.matcher creation b.stmts →
      ((⟨.block b :: above⟩ : Path).bodyOwner? = none → ∀ s ∈ last, s ∈ f.following) →
      f.Fits G (.block b :: above) (⟨.block b :: above⟩ : Path).bodyOwner? last
        (mkSettings f (⟨.block b :: above⟩ : Path).bodyOwner? settings next).1) :
    G.Notes (Transformer.remedy env) where
  enter _ _ _ := pure_keeps _
  leave b above stands hand := by
    refine path_holds.bind fun path => .assuming ?_
    rintro rfl
    refine .forM _ fun f mem => ?_
    unfold Transformer.protect
    dsimp only
    split
    next => exact pure_keeps _ _
    next =>
      exact Factory.configure_keeps (mkSettings_spends G.hidden f _ _)
        (Factory.declaredAmong_of_mem mem) Factory.lastSetter?_mem
        (fun next => fits b above f _ _ next stands mem Factory.lastSetter?_mem) hand

theorem DocumentBuilder.lastFeatureStmt?_mem {f : Factory} :
    ∀ s ∈ lastFeatureStmt? env f, s ∈ f.following :=
  fun _ found => (List.mem_filter.mp (List.mem_of_getLast? found)).1

theorem DocumentBuilder.protect_keeps {dtdsRequired : Bool} {b : Block} {above : List Node}
    {facts : List (String × Fact)} {f : Factory} (among : Factory.DeclaredAmong b.stmts f)
    (fits : ∀ feature exception xincludeSet next,
      f.Fits G (.block b :: above) (⟨.block b :: above⟩ : Path).bodyOwner? (lastFeatureStmt? env f)
        (mkSettings f (⟨.block b :: above⟩ : Path).bodyOwner? dtdsRequired feature exception
          xincludeSet next).1) (taken : List String) :
    G.Keeps (.block b :: above) (protect env dtdsRequired ⟨.block b :: above⟩ facts taken f) := by
  unfold DocumentBuilder.protect
  dsimp only
  split
  · exact pure_keeps _
  · rw [← bind_assoc]
    refine bind_keeps (Factory.configure_keeps (mkSettings_spends G.hidden f _ dtdsRequired _ _ _)
      among (fun _ => lastFeatureStmt?_mem) fun next => ?_) fun _ => pure_keeps _
    exact fits _ _ _ next

theorem DocumentBuilder.notes {dtdsRequired : Bool}
    (fits : ∀ b above f last feature exception xincludeSet next, G.Stands (.block b) above →
      f ∈ Factory.declaredIn env.matcher creation b.stmts → (∀ s ∈ last, s ∈ f.following) →
      f.Fits G (.block b :: above) (⟨.block b :: above⟩ : Path).bodyOwner? last
        (mkSettings f (⟨.block b :: above⟩ : Path).bodyOwner? dtdsRequired feature exception
          xincludeSet next).1) :
    G.Notes (DocumentBuilder.remedy env dtdsRequired) where
  enter _ _ _ := pure_keeps _
  leave b above stands hand := by
    refine path_holds.bind fun path => .assuming ?_
    rintro rfl
    split
    next => exact pure_keeps _ _
    next =>
      refine VisitM.Triple.bind ?_ fun _ => pure_keeps _ _
      have step (facts : List (String × Fact)) :
          ∀ f ∈ Factory.declaredIn env.matcher creation b.stmts, ∀ taken,
            VisitM.Triple (G.Holds (.block b :: above) hand)
              (protect env dtdsRequired ⟨.block b :: above⟩ facts taken f)
              fun _ => G.Holds (.block b :: above) hand := fun f mem taken =>
        protect_keeps (Factory.declaredAmong_of_mem mem) (fun feature exception xincludeSet next =>
          fits b above f _ feature exception xincludeSet next stands mem lastFeatureStmt?_mem)
          taken hand
      exact VisitM.Triple.foldlM _ (step _) _

/-! ## New members -/

theorem RandomString.addMembers_keeps {b : Block} {above : List Node} {owner : Ty}
    (heads : ∀ anchor call next,
      G.fits (.block b :: above) ⟨anchor, call, none, .insertBefore (mkHead owner next).1⟩)
    (methods : ∀ anchor call utils next,
      G.fits (.block b :: above) ⟨anchor, call, none, .insertAfter [(mkMethod owner utils next).1]⟩)
    (removes : ∀ anchor call, G.fits (.block b :: above) ⟨anchor, call, none, .remove⟩) :
    G.Keeps (.block b :: above) (addMembers env b owner) := by
  unfold RandomString.addMembers
  split
  · exact pure_keeps _
  · refine bind_keeps path_keeps fun path => ?_
    dsimp only
    split
    next call _ first last _ hfirst hlast =>
      have firstMem := List.mem_of_mem_head? hfirst
      have lastMem := List.mem_of_getLast? hlast
      rw [← bind_assoc]
      refine bind_keeps (note_made (mkHead_spends G.hidden owner) (fun next => near_here firstMem
        (heads first call next)) (fun _ => FixTag.noConfusion) fun _ => FixTag.noConfusion)
        fun noted => ?_
      split
      · rw [← bind_assoc]
        refine bind_keeps (note_made ?_ (fun next => near_here lastMem (methods last call _ next))
          (fun _ => FixTag.noConfusion) fun _ => FixTag.noConfusion) fun _ => ?_
        · exact (mkMethod_spends G.hidden owner _).weaken fun method => by simp [FixKind.written]
        · split
          next existing found =>
            have mem : existing ∈ b.stmts := by
              unfold loneField? at found
              exact List.mem_of_find?_eq_some found
            exact bind_keeps ((near_here mem (removes existing call)).note_plain
              FixTag.noConfusion FixTag.noConfusion rfl) fun _ => requestImports_keeps _
          next => exact requestImports_keeps _
      · exact pure_keeps _
    next => exact pure_keeps _

theorem RandomString.notes (plain : ∀ e, G.hidden e = false)
    (replaces : ∀ e above method anchor next, G.Stands (.expr e) above →
      (⟨.expr e :: above⟩ : Path).anchor? = some anchor →
      G.FitsNear (.expr e :: above) ⟨anchor, e, none,
        .replace (Expr.mkLocalCall method [] next).1 []⟩)
    (heads : ∀ b above owner anchor call next,
      (⟨.block b :: above⟩ : Path).bodyOwner? = some owner →
      G.fits (.block b :: above) ⟨anchor, call, none, .insertBefore (mkHead owner next).1⟩)
    (methods : ∀ b above owner anchor call utils next,
      (⟨.block b :: above⟩ : Path).bodyOwner? = some owner →
      G.fits (.block b :: above) ⟨anchor, call, none, .insertAfter [(mkMethod owner utils next).1]⟩)
    (removes : ∀ b above owner anchor call,
      (⟨.block b :: above⟩ : Path).bodyOwner? = some owner →
      G.fits (.block b :: above) ⟨anchor, call, none, .remove⟩) :
    G.Notes (RandomString.remedy env) where
  enter n above stands := by
    refine keeps_of_expr fun e at_ => ?_
    subst at_
    split
    · refine bind_keeps (bind_keeps path_keeps fun path => ?_) fun _ => pure_keeps _
      split
      next => exact pure_keeps _
      next head body _ =>
        split
        · exact pure_keeps _
        · refine replaceFresh_keeps stands plain e.mem_subterms_self ?_ fun anchor next found =>
            replaces e above _ anchor next stands found
          exact (Expr.mkLocalCall_spends G.hidden _ []).of_le (Multiset.zero_le _)
    · exact pure_keeps _
  leave b above stands hand := by
    refine path_holds.bind fun path => .assuming ?_
    rintro rfl
    split
    next owner owns =>
      exact addMembers_keeps (fun anchor call next => heads b above owner anchor call next owns)
        (fun anchor call utils next => methods b above owner anchor call utils next owns)
        (fun anchor call => removes b above owner anchor call owns) hand
    next => exact pure_keeps _ _

end

end JavaMend
