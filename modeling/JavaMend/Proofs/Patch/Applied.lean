import JavaMend.Proofs.Patch.Replaced
import JavaMend.Proofs.Patch.Success
import JavaMend.Proofs.Traversal.Triple

/-!
# What a fix does

`FixStep` says all that a fix can do to the statement that its anchor stands for:
what it writes before the statement, what it puts in its place, and what it writes
after it. `Repair.apply_cases` reads this off `Repair.apply`; nothing else about
applying fixes needs to look into that function.
-/

namespace JavaMend

/-- The statements that a fix writes as they are. -/
def FixKind.written : FixKind → List Stmt
  | insertAfter stmts => stmts
  | insertBefore stmts => stmts
  | _ => []

/-! ## Guards -/

section

variable (hidden : Expr → Bool)

theorem GuardVariant.normalized_spends (e : Expr) :
    Fresh.Spends (e.parts hidden) (normalized e) (Expr.parts hidden) :=
  (Expr.mkCall_spends hidden e _ []).of_le (by simp)

theorem GuardVariant.normalizedFile_spends (e : Expr) :
    Fresh.Spends (e.parts hidden) (normalizedFile e) (Expr.parts hidden) :=
  ((Expr.mkCall_spends hidden e _ []).of_le (by simp)).then_ (normalized_spends hidden)

theorem GuardVariant.check_spends (variant : GuardVariant) (tainted parent : Expr) :
    Fresh.Spends (tainted.parts hidden + parent.parts hidden) (variant.check tainted parent)
      (Expr.parts hidden) := by
  have call (method : MethodRef) (path dir : Expr) :
      Fresh.Spends (dir.parts hidden + path.parts hidden) (Expr.mkCall path method [dir])
        (Expr.parts hidden) :=
    (Expr.mkCall_spends hidden path method [dir]).of_le (by simp [add_comm])
  cases variant with
  | fileInFile =>
    refine (normalizedFile_spends hidden tainted).bind fun path => ?_
    rw [add_comm]
    exact (normalizedFile_spends hidden parent).bind fun dir => call _ path dir
  | fileInString =>
    refine (normalizedFile_spends hidden tainted).bind fun path => ?_
    rw [add_comm]
    exact call _ path parent
  | pathInPath =>
    refine (normalized_spends hidden tainted).bind fun path => ?_
    rw [add_comm]
    exact (normalized_spends hidden parent).bind fun dir => call _ path dir

end

/-- A guard is new from its first node to its last. -/
theorem mkGuard_spends (hidden : Expr → Bool) (variant : GuardVariant) (thrown : ThrownException)
    (message : String) (tainted parent : Expr) :
    Fresh.Spends 0 (mkGuard variant thrown message tainted parent) (Stmt.parts hidden) := by
  have operands (t p : Expr) : Fresh.Spends (p.parts hidden + t.parts hidden) (variant.check t p)
      (Expr.parts hidden) := (variant.check_spends hidden t p).of_le (le_of_eq (add_comm _ _))
  refine (Expr.freshCopy_spends hidden tainted).bind_new fun t => ?_
  refine (Expr.freshCopy_spends hidden parent).bind_new fun p => ?_
  refine (operands t p).of_le (by rw [add_zero]) |>.then_ fun check => ?_
  refine (Expr.mkNot_spends hidden check).then_ fun condition => ?_
  refine (Stmt.mkThrowNew_spends hidden thrown.ty message).bind_new fun throw => ?_
  refine ((Stmt.mkBlock_spends hidden [throw]).of_le (by simp)).bind fun body => ?_
  exact (Stmt.mkIf_spends hidden condition body none).of_le (by simp [add_comm])

/-! ## Steps -/

/-- What a fix makes of the statement `core` that its anchor stands for, while the
supply goes from `next` to `used`: the statements before it, what stands in its
place, and the statements after it. -/
inductive FixStep (next used : NodeId) (fix : PendingFix) (core : Stmt) :
    List Stmt → Option Stmt → List Stmt → Prop where
  | extract {base name : String} {changed declaration : Stmt} {read : Expr}
      {start named replaced declared : NodeId} (kind : fix.kind = .extract base)
      (above : next ≤ start) (below : declared ≤ used)
      (hread : Expr.mkIdent name fix.tainted.ty start = (read, named))
      (hchanged : core.replaceAlike? fix.tainted read named = (some changed, replaced))
      (hdeclaration : Stmt.mkDeclare [.final] fix.tainted.ty name (some fix.tainted) replaced =
        (declaration, declared)) :
      FixStep next used fix core [declaration] (some changed) []
  | guardAfter {variant : GuardVariant} {message : String} {parent : Expr}
      {thrown : ThrownException} {guard : Stmt} {start built : NodeId}
      (kind : fix.kind = .guardAfter variant message) (hparent : fix.parent = some parent)
      (above : next ≤ start) (below : built ≤ used)
      (hguard : mkGuard variant thrown message fix.tainted parent start = (guard, built)) :
      FixStep next used fix core [] (some core) [guard]
  | replace {new : Expr} {imports : List String} {changed : Stmt} {replaced : NodeId}
      (kind : fix.kind = .replace new imports) (below : replaced ≤ used)
      (hchanged : core.replaceExpr? fix.tainted new next = (some changed, replaced)) :
      FixStep next used fix core [] (some changed) []
  | insertAfter {stmts : List Stmt} (kind : fix.kind = .insertAfter stmts) :
      FixStep next used fix core [] (some core) stmts
  | insertBefore {stmts : List Stmt} (kind : fix.kind = .insertBefore stmts) :
      FixStep next used fix core stmts (some core) []
  | remove (kind : fix.kind = .remove) : FixStep next used fix core [] none []

theorem Stmt.mkDeclare_id {modifiers : List Modifier} {ty : Ty} {name : String} {init : Option Expr}
    {next used : NodeId} {stmt : Stmt}
    (h : Stmt.mkDeclare modifiers ty name init next = (stmt, used)) :
    next ≤ stmt.id ∧ stmt.id < used := by
  cases h
  exact ⟨Nat.le_succ _, Nat.lt_succ_self _⟩

theorem mkGuard_id {variant : GuardVariant} {thrown : ThrownException} {message : String}
    {tainted parent : Expr} {next used : NodeId} {guard : Stmt}
    (h : mkGuard variant thrown message tainted parent next = (guard, used)) :
    next ≤ guard.id ∧ guard.id < used := by
  obtain ⟨new, drawn, made⟩ := mkGuard_spends (fun _ => false) variant thrown message tainted parent
    next
  rw [h, zero_add] at made
  rw [h] at drawn
  refine drawn.within (.stmt guard) (Multiset.mem_of_le made ?_)
  exact Multiset.mem_coe.mpr (List.mem_filter.mpr ⟨Node.mem_subtree_self, rfl⟩)

namespace FixStep

variable {next used : NodeId} {fix : PendingFix} {core : Stmt} {before after : List Stmt}
  {core' : Option Stmt}

/-- What a fix puts in the place of a statement is the statement itself, what the fix
was given to write, or new. -/
theorem ids (step : FixStep next used fix core before core' after)
    (distinct : (core.id :: fix.kind.written.map (·.id)).Nodup) (early : core.id < next) :
    ((before ++ core'.toList ++ after).map (·.id)).Nodup ∧
      (∀ id ∈ (before ++ core'.toList ++ after).map (·.id),
        id = core.id ∨ id ∈ fix.kind.written.map (·.id) ∨ next ≤ id ∧ id < used) ∧
      (core' ≠ some core → core.id ∉ (before ++ core'.toList ++ after).map (·.id)) := by
  cases step with
  | @extract base name changed declaration read start named replaced declared kind above below hread
      hchanged hdeclaration =>
    have named_le : start ≤ named := by
      cases hread
      exact Nat.le_succ _
    have new := Stmt.replaceAlike?_id hchanged
    have new' := Stmt.mkDeclare_id hdeclaration
    simp only [List.map_cons, List.map_nil, Option.toList, List.append_nil, List.singleton_append,
      List.nodup_cons, List.mem_cons, List.not_mem_nil]
    grind
  | guardAfter kind hparent above below hguard =>
    have new := mkGuard_id hguard
    simp only [List.map_cons, List.map_nil, Option.toList, List.singleton_append, List.nil_append,
      List.nodup_cons, List.mem_cons, List.not_mem_nil]
    grind
  | replace kind below hchanged =>
    have new := Stmt.replaceExpr?_id hchanged
    simp only [List.map_cons, List.map_nil, Option.toList, List.append_nil, List.nil_append,
      List.nodup_cons, List.mem_cons, List.not_mem_nil]
    grind
  | insertAfter kind =>
    rw [kind] at distinct
    rw [kind]
    exact ⟨distinct, fun id mem => (List.mem_cons.mp mem).imp_right .inl, fun other => (other rfl).elim⟩
  | insertBefore kind =>
    rw [kind] at distinct
    rw [kind]
    simp [FixKind.written, List.nodup_append] at distinct ⊢
    grind
  | remove kind => simp

end FixStep

/-- The fix is no removal and has no statements to write, and if it is a replacement, the
statement does not hold what it replaces. -/
def PendingFix.Misses (next : NodeId) (fix : PendingFix) (core : Stmt) : Prop :=
  (fix.kind.tag ≠ .remove ∧ fix.kind.written = []) ∧
    ∀ new imports, fix.kind = .replace new imports → (core.replaceExpr? fix.tainted new next).1 = none

theorem PendingFix.Misses.of_tag_ne {next : NodeId} {fix : PendingFix} {core : Stmt}
    (stays : fix.kind.tag ≠ .remove) (other : fix.kind.tag ≠ .replace)
    (nothing : fix.kind.written = []) : fix.Misses next core := by
  refine ⟨⟨stays, nothing⟩, fun new imports kind => ?_⟩
  rw [kind] at other
  exact (other rfl).elim

theorem PendingFix.Misses.of_kind {next : NodeId} {fix : PendingFix} {core : Stmt} {new : Expr}
    {imports : List String} (kind : fix.kind = .replace new imports)
    (none : (core.replaceExpr? fix.tainted new next).1 = none) : fix.Misses next core := by
  refine ⟨by rw [kind]; exact ⟨FixTag.noConfusion, rfl⟩, fun new' imports' kind' => ?_⟩
  cases kind.symm.trans kind'
  exact none

/-! ## Places in a block -/

theorem Block.position?_isSome {block : Block} {stmt : Stmt} :
    (block.position? stmt).isSome ↔ stmt.id ∈ block.stmts.map (·.id) := by
  unfold Block.position?
  rw [List.findIdx?_isSome, List.any_eq_true, List.mem_map]
  simp only [Stmt.same, beq_iff_eq]

theorem Block.position?_of_split {block : Block} {stmt : Stmt} {front back : List Stmt}
    (split : block.stmts = front ++ stmt :: back) (first : stmt.id ∉ front.map (·.id)) :
    block.position? stmt = some front.length := by
  have skipped : front.findIdx? (·.same stmt) = none := by
    rw [List.findIdx?_eq_none_iff]
    intro s mem
    refine beq_eq_false_iff_ne.mpr fun same => first ?_
    exact same ▸ List.mem_map_of_mem mem
  have here : (stmt :: back).findIdx? (·.same stmt) = some 0 := by
    rw [List.findIdx?_cons, show stmt.same stmt = true from beq_self_eq_true stmt.id]
    rfl
  unfold Block.position?
  rw [split, List.findIdx?_append, skipped, here]
  simp

/-- The statements around and in place of a statement after a splice at it. -/
def SpliceSide.around (side : SpliceSide) (stmt : Stmt) (news : List Stmt) : List Stmt :=
  match side with
  | .before => news ++ [stmt]
  | .after => stmt :: news
  | .replace => news

/-- A splice at a statement of the block changes the block at that statement. -/
theorem Block.splice_of_split {block : Block} {stmt : Stmt} {front back : List Stmt}
    (split : block.stmts = front ++ stmt :: back) (first : stmt.id ∉ front.map (·.id))
    (news : List Stmt) (side : SpliceSide) (next : NodeId) :
    block.splice (.statements news) ⟨side, stmt⟩ next =
      (.ok ⟨next, block.isStatic, front ++ side.around stmt news ++ back⟩, next + 1) := by
  have spliced : spliceList block.stmts front.length side news =
      front ++ side.around stmt news ++ back := by
    rw [split]
    cases side <;> simp [spliceList, SpliceSide.around, List.take_append, List.take_of_length_le]
  unfold Block.splice
  rw [Block.position?_of_split split first, ← spliced]
  rfl

/-! ## Applying one fix -/

/-- The site of a visit after some more imports were asked for and some ids were
used. -/
def Site.Asks {σ : Type} (site site' : Site Note σ) : Prop :=
  site.next ≤ site'.next ∧
    ∃ fqns, site' = { site with cursor := site.cursor.requestImports fqns, next := site'.next }

theorem Site.Asks.of_next {σ : Type} {site : Site Note σ} {next : NodeId} (le : site.next ≤ next) :
    site.Asks { site with next } :=
  ⟨le, [], rfl⟩

theorem Path.replacing_grows (p : Path) (index : Nat) (node : Node) :
    (p.replacing index node).Grows := by
  have rebuild : ∀ (above : List Node) (old new : Node) (done : List Node),
      (replacing.go old new above done).Grows := by
    intro above
    induction above with
    | nil => exact fun _ _ _ => .pure _
    | cons parent above ih =>
      exact fun old new done => Fresh.Grows.freshId.bind fun _ => ih _ _ _
  unfold replacing
  split
  · split
    · exact (rebuild _ _ _ _).bind fun _ => .pure _
    · exact .pure _
  · exact .pure _

/-- What makers make from the supply of a site. -/
theorem VisitM.ok_of_fresh {ε μ σ α : Type} {make : Fresh α} {site site' : Site μ σ} {a : α}
    (h : (VisitM.fresh make : VisitM ε μ σ α) site = .ok a site') :
    ∃ used, make site.next = (a, used) ∧ site' = { site with next := used } := by
  cases h
  exact ⟨_, rfl, rfl⟩

theorem PassM.ok_of_make {σ ε α : Type} {wrap : ε → EngineError} {action : ExceptT ε Fresh α}
    {site site' : Site Note σ} {a : α} (h : (PassM.make wrap action : PassM σ α) site = .ok a site') :
    ∃ used, action site.next = (.ok a, used) ∧ site' = { site with next := used } := by
  unfold PassM.make at h
  obtain ⟨made, _, ran, h⟩ := VisitM.ok_of_bind h
  obtain ⟨used, hmade, rfl⟩ := VisitM.ok_of_fresh ran
  cases made with
  | ok made =>
    cases h
    exact ⟨used, hmade, rfl⟩
  | error e => cases h

/-- A template renders what it builds. -/
theorem Template.build_of_render {template : Template} {operands : List Expr} {fragment : Fragment}
    {next used : NodeId} (h : template.render operands next = (.ok fragment, used)) :
    template.build operands next = (fragment, used) := by
  cases checked : template.check operands with
  | ok =>
    rw [render_of_check checked] at h
    obtain ⟨made, rest⟩ := Prod.mk.inj h
    exact Prod.ext (Except.ok.inj made) rest
  | error e =>
    unfold render at h
    rw [checked] at h
    cases h

namespace Repair

variable {σ : Type} {c c' : Repair} {fix : PendingFix} {core : Stmt} {front back : List Stmt}
  {site site' : Site Note σ}

/-- Splicing at a statement of the block. -/
theorem splice_eq (split : c.block.stmts = front ++ core :: back) (first : core.id ∉ front.map (·.id))
    (news : List Stmt) (side : SpliceSide) (site : Site Note σ) :
    c.splice .standard (.statements news) side core site =
      .ok { c with block := ⟨site.next, c.block.isStatic, front ++ side.around core news ++ back⟩ }
        { site with next := site.next + 1 } := by
  have made : (PassM.make .splice (c.block.splice (.statements news) ⟨side, core⟩) : PassM σ Block)
      site = .ok ⟨site.next, c.block.isStatic, front ++ side.around core news ++ back⟩
        { site with next := site.next + 1 } := by
    have spliced := Block.splice_of_split split first news side site.next
    unfold PassM.make
    show EStateM.bind _ _ site = _
    simp only [EStateM.bind, VisitM.fresh, ExceptT.run, spliced]
    rfl
  unfold splice
  show EStateM.bind _ _ site = _
  simp only [EStateM.bind, Splicer.standard, made]
  rfl

/-- What stands in the place of a statement, and how it is kept track of. -/
inductive Successor (next used : NodeId) (core : Stmt) : Option Stmt → List (Stmt × Stmt) → Prop where
  | same : Successor next used core (some core) []
  | gone : Successor next used core none []
  | swapped {changed : Stmt} (above : next ≤ changed.id) (below : changed.id < used) :
      Successor next used core (some changed) [(core, changed)]

/-- What is known after a fix was applied to the statement `core` of a block. -/
structure Applied (fix : PendingFix) (core : Stmt) (front back : List Stmt) (c c' : Repair)
    (next used : NodeId) (before : List Stmt) (core' : Option Stmt) (after : List Stmt) : Prop where
  step : FixStep next used fix core before core' after
  grown : next ≤ used
  block : c'.block = ⟨used, c.block.isStatic, front ++ (before ++ core'.toList ++ after) ++ back⟩
  renamed : ∃ more, c'.renamed = c.renamed ++ more ∧ Successor next used core core' more

theorem currentPath_grows (c : Repair) : c.currentPath.Grows := Path.replacing_grows _ _ _

theorem ok_of_swap (split : c.block.stmts = front ++ core :: back)
    (first : core.id ∉ front.map (·.id)) {news : List Stmt} {successor : Stmt}
    (ran : c.swap .standard core news successor site = .ok c' site') :
    c'.block = ⟨site.next, c.block.isStatic, front ++ news ++ back⟩ ∧
      c'.renamed = c.renamed ++ [(core, successor)] ∧ site' = { site with next := site.next + 1 } := by
  unfold swap at ran
  obtain ⟨c₁, s₁, ran₁, ran₂⟩ := VisitM.ok_of_bind ran
  rw [splice_eq split first] at ran₁
  cases ran₁
  cases ran₂
  exact ⟨rfl, rfl, rfl⟩

/-- An extraction that finds its expression in a statement of the block declares a local of
a name that is not taken before the statement, and puts the statement with reads of the
local in its place. -/
theorem ok_of_extract {tainted : Expr} {base : String}
    (split : c.block.stmts = front ++ core :: back) (first : core.id ∉ front.map (·.id))
    (ran : c.extract .standard core tainted base site = .ok c' site') :
    ∃ path start name read named replaced, c.currentPath site.next = (path, start) ∧
      name = leastFreeName base (path.takenNames ++ c.extracted) ∧
      Expr.mkIdent name tainted.ty start = (read, named) ∧
      (core.replaceAlike? tainted read named = (none, replaced) ∧ c' = c ∧
          site' = { site with next := replaced } ∨
        ∃ changed declaration declared,
          core.replaceAlike? tainted read named = (some changed, replaced) ∧
          Stmt.mkDeclare [.final] tainted.ty name (some tainted) replaced =
            (declaration, declared) ∧
          c' = { c with
            block := ⟨declared, c.block.isStatic, front ++ [declaration, changed] ++ back⟩
            renamed := c.renamed ++ [(core, changed)]
            extracted := name :: c.extracted } ∧
          site' = { site with
            cursor := site.cursor.requestImports tainted.ty.fqn?.toList, next := declared + 1 }) := by
  unfold extract at ran
  obtain ⟨path, _, ran₁, ran⟩ := VisitM.ok_of_bind ran
  obtain ⟨start, hpath, rfl⟩ := VisitM.ok_of_fresh ran₁
  obtain ⟨read, _, ran₂, ran⟩ := VisitM.ok_of_bind ran
  obtain ⟨named, hread, rfl⟩ := VisitM.ok_of_fresh ran₂
  obtain ⟨answer, _, ran₃, ran⟩ := VisitM.ok_of_bind ran
  obtain ⟨replaced, hchanged, rfl⟩ := VisitM.ok_of_fresh ran₃
  refine ⟨path, start, _, read, named, replaced, hpath, rfl, hread, ?_⟩
  cases answer with
  | none =>
    cases ran
    exact .inl ⟨hchanged, rfl, rfl⟩
  | some changed =>
    obtain ⟨declaration, _, ran₄, ran⟩ := VisitM.ok_of_bind ran
    obtain ⟨declared, hdeclaration, rfl⟩ := VisitM.ok_of_fresh ran₄
    obtain ⟨_, _, ran₅, ran⟩ := VisitM.ok_of_bind ran
    cases ran₅
    unfold swap at ran
    obtain ⟨c₁, _, ran₆, ran⟩ := VisitM.ok_of_bind ran
    rw [splice_eq (c := { c with extracted := _ :: c.extracted }) split first] at ran₆
    cases ran₆
    cases ran
    exact .inr ⟨changed, declaration, declared, hchanged, hdeclaration, rfl, rfl⟩

theorem extract_cases {base : String} (kind : fix.kind = .extract base)
    (split : c.block.stmts = front ++ core :: back) (first : core.id ∉ front.map (·.id))
    (ran : c.extract .standard core fix.tainted base site = .ok c' site') :
    site.Asks site' ∧ (c' = c ∨ ∃ used before core' after, site'.next = used + 1 ∧
      Applied fix core front back c c' site.next used before core' after) := by
  obtain ⟨path, start, name, read, named, replaced, hpath, -, hread, outcome⟩ :=
    ok_of_extract split first ran
  have above := c.currentPath_grows.le hpath
  have named_le : start ≤ named := by
    cases hread
    exact Nat.le_succ _
  rcases outcome with ⟨hchanged, rfl, rfl⟩ | ⟨changed, declaration, declared, hchanged, hdeclaration,
    rfl, rfl⟩
  all_goals
    have replaced_le := (core.replaceAlike?_grows _ _).le hchanged
    have below : site.next ≤ replaced := Nat.le_trans above (Nat.le_trans named_le replaced_le)
  · exact ⟨.of_next below, .inl rfl⟩
  · have declared_le : replaced ≤ declared := by
      cases hdeclaration
      exact Nat.le_add_right _ 2
    have id := Stmt.replaceAlike?_id hchanged
    refine ⟨⟨Nat.le_succ_of_le (Nat.le_trans below declared_le), _, rfl⟩, .inr
      ⟨declared, [declaration], some changed, [], rfl, ?_, Nat.le_trans below declared_le, ?_, _,
        rfl, ?_⟩⟩
    · exact .extract kind above (Nat.le_refl _) hread hchanged hdeclaration
    · simp
    · exact .swapped (Nat.le_trans (Nat.le_trans above named_le) id.1)
        (Nat.lt_of_lt_of_le id.2 declared_le)

/-- Writing a guard puts a guard behind a statement of the block. -/
theorem ok_of_guardAfter {variant : GuardVariant} {message : String} {tainted parent : Expr}
    (split : c.block.stmts = front ++ core :: back) (first : core.id ∉ front.map (·.id))
    (ran : c.guardAfter .standard core tainted parent variant message site = .ok c' site') :
    ∃ start thrown guard built, site.next ≤ start ∧
      mkGuard variant thrown message tainted parent start = (guard, built) ∧
      c' = { c with block := ⟨built, c.block.isStatic, front ++ [core, guard] ++ back⟩ } ∧
      ∃ fqns, site' = { site with
        cursor := site.cursor.requestImports fqns, next := built + 1 } := by
  unfold guardAfter at ran
  obtain ⟨path, _, ran₁, ran⟩ := VisitM.ok_of_bind ran
  obtain ⟨start, hpath, rfl⟩ := VisitM.ok_of_fresh ran₁
  have above := c.currentPath_grows.le hpath
  cases made : guardTemplate variant (path.child (.stmt core)).guardException message with
  | error e =>
    simp only [made] at ran
    cases ran
  | ok template =>
    simp only [made] at ran
    obtain ⟨fragment, _, ran₂, ran⟩ := VisitM.ok_of_bind ran
    obtain ⟨built, rendered, rfl⟩ := PassM.ok_of_make ran₂
    obtain ⟨_, _, ran₃, ran⟩ := VisitM.ok_of_bind ran
    cases ran₃
    cases hguard : mkGuard variant (path.child (.stmt core)).guardException message tainted parent
        start with
    | mk guard after =>
      have build := Template.build_of_render rendered
      rw [guardTemplate_build made hguard] at build
      cases build
      rw [splice_eq split first] at ran
      cases ran
      exact ⟨start, _, guard, built, above, hguard, rfl, _, rfl⟩

theorem guardAfter_cases {variant : GuardVariant} {message : String} {parent : Expr}
    (kind : fix.kind = .guardAfter variant message) (hparent : fix.parent = some parent)
    (split : c.block.stmts = front ++ core :: back) (first : core.id ∉ front.map (·.id))
    (ran : c.guardAfter .standard core fix.tainted parent variant message site = .ok c' site') :
    site.Asks site' ∧ (c' = c ∨ ∃ used before core' after, site'.next = used + 1 ∧
      Applied fix core front back c c' site.next used before core' after) := by
  obtain ⟨start, thrown, guard, built, above, hguard, rfl, fqns, rfl⟩ :=
    ok_of_guardAfter split first ran
  have built_le := (mkGuard_spends (fun _ => false) _ _ _ _ _).grows.le hguard
  exact ⟨⟨Nat.le_succ_of_le (Nat.le_trans above built_le), fqns, rfl⟩, .inr
    ⟨built, [], some core, [guard], rfl, .guardAfter kind hparent above (Nat.le_refl _) hguard,
      Nat.le_trans above built_le, rfl, [], (List.append_nil _).symm, .same⟩⟩

theorem replace_cases {new : Expr} {imports : List String} (kind : fix.kind = .replace new imports)
    (split : c.block.stmts = front ++ core :: back) (first : core.id ∉ front.map (·.id))
    (ran : c.replace .standard core fix.tainted new imports site = .ok c' site') :
    site.Asks site' ∧ ((core.replaceExpr? fix.tainted new site.next).1 = none ∧ c' = c ∨
      ∃ used before core' after, site'.next = used + 1 ∧
        Applied fix core front back c c' site.next used before core' after) := by
  unfold replace at ran
  obtain ⟨answer, _, ran₁, ran⟩ := VisitM.ok_of_bind ran
  obtain ⟨replaced, hchanged, rfl⟩ := VisitM.ok_of_fresh ran₁
  have below := (core.replaceExpr?_grows _ _).le hchanged
  cases answer with
  | none =>
    cases ran
    exact ⟨.of_next below, .inl ⟨congrArg Prod.fst hchanged, rfl⟩⟩
  | some changed =>
    obtain ⟨_, _, ran₂, ran⟩ := VisitM.ok_of_bind ran
    cases ran₂
    obtain ⟨block, renamed, rfl⟩ := ok_of_swap split first ran
    have id := Stmt.replaceExpr?_id hchanged
    refine ⟨⟨Nat.le_succ_of_le below, _, rfl⟩, .inr
      ⟨replaced, [], some changed, [], rfl, .replace kind (Nat.le_refl _) hchanged, below, ?_, _,
        renamed, .swapped id.1 id.2⟩⟩
    rw [block]
    simp

/-- Nothing is written for an anchor that is not found. -/
theorem apply_of_unresolved (unresolved : c.resolve? fix.anchor = none)
    (ran : apply .standard c fix site = .ok c' site') : c' = c ∧ site' = site := by
  unfold apply at ran
  simp only [unresolved] at ran
  cases ran
  exact ⟨rfl, rfl⟩

/-- Applying a fix leaves the block as it is, or changes it at the statement that the
anchor of the fix stands for. A replacement changes nothing only if it finds nothing to
replace. -/
theorem apply_cases (resolved : c.resolve? fix.anchor = some core)
    (split : c.block.stmts = front ++ core :: back) (first : core.id ∉ front.map (·.id))
    (ran : apply .standard c fix site = .ok c' site') :
    site.Asks site' ∧ (fix.kind.written = [] ∧ fix.Misses site.next core ∧ c' = c ∨
      ∃ used before core' after, site'.next = used + 1 ∧
        Applied fix core front back c c' site.next used before core' after) := by
  have skipped {kind : FixKind} {applied : Prop} (at_ : fix.kind = kind) (none : kind.written = [])
      (other : kind.tag ≠ .remove ∧ kind.tag ≠ .replace) (h : site.Asks site' ∧ (c' = c ∨ applied)) :
      site.Asks site' ∧ (kind.written = [] ∧ fix.Misses site.next core ∧ c' = c ∨ applied) := by
    subst at_
    exact ⟨h.1, h.2.imp_left fun same => ⟨none, .of_tag_ne other.1 other.2 none, same⟩⟩
  unfold apply at ran
  simp only [resolved] at ran
  cases kind : fix.kind with
  | extract base =>
    simp only [kind] at ran
    exact skipped kind rfl ⟨FixTag.noConfusion, FixTag.noConfusion⟩ (extract_cases kind split first ran)
  | guardAfter variant message =>
    simp only [kind] at ran
    cases hparent : fix.parent with
    | none =>
      simp only [hparent] at ran
      cases ran
      exact skipped kind rfl ⟨FixTag.noConfusion, FixTag.noConfusion⟩
        ⟨.of_next (Nat.le_refl _), .inl rfl⟩
    | some parent =>
      simp only [hparent] at ran
      exact skipped kind rfl ⟨FixTag.noConfusion, FixTag.noConfusion⟩
        (guardAfter_cases kind hparent split first ran)
  | replace new imports =>
    simp only [kind] at ran
    obtain ⟨asks, same | applied⟩ := replace_cases kind split first ran
    · exact ⟨asks, .inl ⟨rfl, .of_kind kind same.1, same.2⟩⟩
    · exact ⟨asks, .inr applied⟩
  | insertAfter stmts =>
    simp only [kind, splice_eq split first] at ran
    cases ran
    refine ⟨.of_next (Nat.le_succ _), .inr ⟨site.next, [], some core, stmts, rfl,
      .insertAfter kind, Nat.le_refl _, rfl, [], (List.append_nil _).symm, .same⟩⟩
  | insertBefore stmts =>
    simp only [kind, splice_eq split first] at ran
    cases ran
    refine ⟨.of_next (Nat.le_succ _), .inr ⟨site.next, stmts, some core, [], rfl,
      .insertBefore kind, Nat.le_refl _, ?_, [], (List.append_nil _).symm, .same⟩⟩
    rw [List.append_nil]
    rfl
  | remove =>
    simp only [kind, splice_eq split first] at ran
    cases ran
    exact ⟨.of_next (Nat.le_succ _), .inr ⟨site.next, [], none, [], rfl, .remove kind,
      Nat.le_refl _, rfl, [], (List.append_nil _).symm, .gone⟩⟩

/-- A replacement asks for its imports if it changes anything. -/
theorem apply_replace {new : Expr} {imports : List String} (kind : fix.kind = .replace new imports)
    (ran : apply .standard c fix site = .ok c' site') :
    c' = c ∧ site' = { site with next := site'.next } ∧
        (∀ core, c.resolve? fix.anchor = some core →
          (core.replaceExpr? fix.tainted new site.next).1 = none) ∨
      site' = { site with cursor := site.cursor.requestImports imports, next := site'.next } := by
  unfold apply at ran
  cases resolved : c.resolve? fix.anchor with
  | none =>
    simp only [resolved] at ran
    cases ran
    exact .inl ⟨rfl, rfl, fun core there => nomatch there⟩
  | some anchor =>
    simp only [resolved, kind] at ran
    unfold replace at ran
    obtain ⟨answer, _, ran₁, ran⟩ := VisitM.ok_of_bind ran
    obtain ⟨replaced, made, rfl⟩ := VisitM.ok_of_fresh ran₁
    cases answer with
    | none =>
      cases ran
      refine .inl ⟨rfl, rfl, fun core there => ?_⟩
      cases there
      rw [made]
    | some changed =>
      obtain ⟨_, _, ran₂, ran⟩ := VisitM.ok_of_bind ran
      cases ran₂
      unfold swap splice at ran
      obtain ⟨c₁, _, ran₃, ran⟩ := VisitM.ok_of_bind ran
      obtain ⟨block, _, ran₄, ran₃⟩ := VisitM.ok_of_bind ran₃
      obtain ⟨used, -, rfl⟩ := PassM.ok_of_make ran₄
      cases ran₃
      cases ran
      exact .inr rfl

/-- A removal asks for no imports. -/
theorem apply_remove (kind : fix.kind = .remove) (ran : apply .standard c fix site = .ok c' site') :
    site' = { site with next := site'.next } := by
  unfold apply at ran
  cases resolved : c.resolve? fix.anchor with
  | none =>
    simp only [resolved] at ran
    cases ran
    rfl
  | some anchor =>
    simp only [resolved, kind] at ran
    unfold splice at ran
    obtain ⟨block, _, ran₁, ran⟩ := VisitM.ok_of_bind ran
    obtain ⟨used, -, rfl⟩ := PassM.ok_of_make ran₁
    cases ran
    rfl

end Repair

end JavaMend
