import JavaMend.Proofs.Patch.Waiting
import JavaMend.Proofs.Patch.Named
import JavaMend.Remedy.Pass

/-!
# Visits that name known classes only

In the course of a visit more and more classes may be named: those that were known before it,
and those whose import was asked for since. `Informed` says that the fixes that wait name no
others, where a visit may still owe some requests for what it has noted already. A visit
`Informs` if it keeps this up and pays what it owes.

The fixes of a block ask for imports as they are applied, so the block that is made of them
names what is known then (`repair_informs`).
-/

namespace JavaMend

/-! ## Fixes -/

/-- All classes that the fix would write are known, or it will ask for them. -/
structure PendingFix.NamesOnly (known : String → Prop) (fix : PendingFix) : Prop where
  anchor : fix.anchor.NamesOnly known
  reads : fix.kind.tag = .extract ∨ fix.kind.tag = .guardAfter →
    fix.tainted.NamesOnly known ∧ ∀ e ∈ fix.parent, e.NamesOnly known
  written : ∀ s ∈ fix.kind.written, s.NamesOnly known
  replaces : ∀ new imports, fix.kind = .replace new imports →
    new.Placeable fun fqn => known fqn ∨ fqn ∈ imports

theorem PendingFix.NamesOnly.mono {known more : String → Prop} {fix : PendingFix}
    (h : fix.NamesOnly known) (le : ∀ fqn, known fqn → more fqn) : fix.NamesOnly more where
  anchor := h.anchor.mono le
  reads kind := ⟨(h.reads kind).1.mono le, fun e mem => ((h.reads kind).2 e mem).mono le⟩
  written s mem := (h.written s mem).mono le
  replaces new imports kind := (h.replaces new imports kind).mono fun fqn => .imp_left (le fqn)

/-- Do fixes of this tag put nothing in but whole statements that are their own? -/
def FixTag.onlyWrites : FixTag → Bool
  | .extract | .guardAfter | .replace => false
  | _ => true

/-- A fix that only writes statements. -/
theorem PendingFix.NamesOnly.of_written {known : String → Prop} {fix : PendingFix}
    (anchor : fix.anchor.NamesOnly known) (plain : fix.kind.tag.onlyWrites = true)
    (written : ∀ s ∈ fix.kind.written, s.NamesOnly known) : fix.NamesOnly known where
  anchor := anchor
  reads other := by rcases other with other | other <;> rw [other] at plain <;> cases plain
  written := written
  replaces new imports kind := by rw [kind] at plain; cases plain

/-- A fix that replaces an expression. -/
theorem PendingFix.NamesOnly.replace {known : String → Prop} {anchor : Stmt} {tainted new : Expr}
    {imports : List String} (names : anchor.NamesOnly known)
    (placeable : new.Placeable fun fqn => known fqn ∨ fqn ∈ imports) :
    NamesOnly known ⟨anchor, tainted, none, .replace new imports⟩ where
  anchor := names
  reads other := by rcases other with other | other <;> cases other
  written s none := (List.not_mem_nil none).elim
  replaces := by
    rintro _ _ ⟨⟩
    exact placeable

theorem Cursor.noteFix_cases {c : Cursor Note} (legible : c.Legible) (fix : PendingFix) :
    c.noteFix fix = (false, c) ∨ (c.noteFix fix).1 = true ∧
      List.Forall₂ (fun p p' => p'.1 = p.1 ∧ ∀ f ∈ p'.2, f ∈ p.2 ∨ f = fix) c.waiting
        (c.noteFix fix).2.waiting := by
  unfold noteFix
  dsimp only
  split
  next => exact .inl rfl
  next index _ =>
    cases found : c.frame? index with
    | none =>
      refine .inl ?_
      unfold modifyAt atFrame
      rw [found]
      rfl
    | some f =>
      refine .inr ⟨?_, ?_⟩
      · have readable := (legible f (mem_of_frame? found)).1
        unfold modifyAt atFrame
        rw [found]
        show (f.modify Note.fixTopic .empty (·.add fix)).1.isSome = true
        unfold Frame.modify
        split
        · rfl
        next note at_ =>
          obtain ⟨pending, read⟩ := Option.isSome_iff_exists.mp (readable note at_)
          rw [read]
          rfl
      · unfold waiting
        refine List.forall₂_map_left_iff.mpr (List.forall₂_map_right_iff.mpr ?_)
        refine forall₂_atFrame (fun f => ⟨rfl, fun _ => .inl⟩) fun f => ⟨f.node_modify _ _ _, fun x mem => ?_⟩
        rcases f.modify_fixes fix with ⟨same, -⟩ | added
        · exact .inl (same ▸ mem)
        · rw [added] at mem
          rcases List.mem_append.mp mem with mem | mem
          · exact .inl (List.mem_filter.mp mem).1
          · exact .inr (List.mem_singleton.mp mem)

/-! ## The invariant of a visit -/

section

variable {σ α β : Type} {base : String → Prop} {mark : NodeId}

/-- The visit is at the end of `path`, and the fixes that wait name known classes only. These are
the classes of `base` and others that were asked for, or will be: the visit owes some requests. -/
structure Informed (base : String → Prop) (mark : NodeId) (known : String → Prop)
    (owed : List String) (path : List Node) (site : Site Note σ) : Prop where
  path : site.cursor.waiting.map (·.1) = path
  legible : site.cursor.Legible
  late : mark ≤ site.next
  before : ∀ fqn, base fqn → known fqn
  asked : ∀ fqn, known fqn → base fqn ∨ fqn ∈ owed ∨ fqn ∈ site.cursor.asked
  fixes : ∀ p ∈ site.cursor.waiting, ∀ fix ∈ p.2, fix.NamesOnly known

/-- By now some more classes may be known, no requests are owed, and something is good where these
are known. -/
def AwareOf (base : String → Prop) (mark : NodeId) (known : String → Prop) (path : List Node)
    (good : (String → Prop) → Prop) (site : Site Note σ) : Prop :=
  ∃ more, (∀ fqn, known fqn → more fqn) ∧ good more ∧ Informed base mark more [] path site

/-- By now some more classes may be known, and no requests are owed. -/
abbrev Aware (base : String → Prop) (mark : NodeId) (known : String → Prop) (path : List Node)
    (site : Site Note σ) : Prop :=
  AwareOf base mark known path (fun _ => True) site

/-- A visit that keeps fixes and requests in step. -/
def Informs (base : String → Prop) (mark : NodeId) (path : List Node) (action : PassM σ α) : Prop :=
  ∀ known, VisitM.Triple (Informed base mark known [] path) action fun _ => Aware base mark known path

variable {known : String → Prop} {owed : List String} {path : List Node} {site : Site Note σ}

namespace Informed

theorem outward (h : Informed base mark known owed path site) : site.cursor.path = ⟨path⟩ := by
  rw [← h.path, ← Cursor.outward_path]

theorem frames (h : Informed base mark known owed path site) (inside : path ≠ []) :
    site.cursor.frames ≠ [] := by
  intro none
  refine inside ?_
  rw [← h.path, Cursor.waiting, none]
  rfl

theorem awareOf {good : (String → Prop) → Prop} (h : Informed base mark known [] path site)
    (is : good known) : AwareOf base mark known path good site :=
  ⟨known, fun _ h => h, is, h⟩

theorem aware (h : Informed base mark known [] path site) : Aware base mark known path site :=
  h.awareOf trivial

/-- With another supply of ids. -/
theorem supplied (h : Informed base mark known owed path site) {next : NodeId} (late : mark ≤ next) :
    Informed base mark known owed path { site with next } :=
  ⟨h.path, h.legible, late, h.before, h.asked, h.fixes⟩

/-- Making nodes. -/
theorem grow (h : Informed base mark known owed path site) {next : NodeId} (le : site.next ≤ next) :
    Informed base mark known owed path { site with next } :=
  h.supplied (Nat.le_trans h.late le)

/-- A visit that starts at the end of a path, with nothing noted. -/
theorem ofPath {next : NodeId} {own : σ} (late : mark ≤ next) :
    Informed base mark base [] path { cursor := .ofPath ⟨path⟩, next, own } where
  path := by
    show (Cursor.ofPath ⟨path⟩ : Cursor Note).waiting.map (·.1) = path
    rw [Cursor.waiting_ofPath, List.map_map]
    exact List.map_id _
  legible := Cursor.legible_ofPath _
  late := late
  before _ is := is
  asked _ is := .inl is
  fixes p mem := by
    rw [Cursor.waiting_ofPath] at mem
    obtain ⟨n, -, rfl⟩ := List.mem_map.mp mem
    exact fun _ none => (List.not_mem_nil none).elim

/-- The state of the visitor does not matter. -/
theorem own {τ : Type} (h : Informed base mark known owed path site) (own : τ) :
    Informed base mark known owed path ⟨site.cursor, site.next, own⟩ :=
  ⟨h.path, h.legible, h.late, h.before, h.asked, h.fixes⟩

theorem push (h : Informed base mark known owed path site) (inside : path ≠ []) (n : Node) :
    Informed base mark known owed (n :: path) { site with cursor := site.cursor.push n } where
  path := by
    show ((site.cursor.push n).waiting).map (·.1) = n :: path
    rw [Cursor.waiting_push, List.map_cons, h.path]
  legible := h.legible.push n
  late := h.late
  before := h.before
  asked fqn is := by
    show _ ∨ _ ∨ fqn ∈ (site.cursor.push n).asked
    rw [Cursor.asked_push (h.frames inside)]
    exact h.asked fqn is
  fixes := List.forall_mem_cons.mpr ⟨fun _ none => (List.not_mem_nil none).elim, h.fixes⟩

theorem pop {n : Node} (h : Informed base mark known owed (n :: path) site) (inside : path ≠ []) :
    Informed base mark known owed path { site with cursor := site.cursor.pop } := by
  obtain ⟨p, above, waiting, -, rest⟩ := List.map_eq_cons_iff.mp h.path
  have popped : site.cursor.pop.waiting = above := by
    rw [Cursor.waiting_pop, waiting, List.tail_cons]
  have frames : site.cursor.pop.frames ≠ [] := by
    intro none
    refine inside ?_
    rw [← rest, ← popped, Cursor.waiting, none]
    rfl
  refine ⟨popped ▸ rest, h.legible.pop, h.late, h.before, fun fqn is => ?_, fun p mem => ?_⟩
  · show _ ∨ _ ∨ fqn ∈ site.cursor.pop.asked
    rw [Cursor.asked_pop frames]
    exact h.asked fqn is
  · rw [popped] at mem
    exact h.fixes p (waiting ▸ List.mem_cons_of_mem _ mem)

/-- Asking for classes, those that are owed among them. -/
theorem request (h : Informed base mark known owed path site) (inside : path ≠ [])
    {fqns : List String} (pays : owed ⊆ fqns) :
    Informed base mark (fun fqn => known fqn ∨ fqn ∈ fqns) [] path
      { site with cursor := site.cursor.requestImports fqns } where
  path := by
    show ((site.cursor.requestImports fqns).waiting).map (·.1) = path
    rw [Cursor.waiting_requestImports, h.path]
  legible := h.legible.requestImports fqns
  late := h.late
  before fqn is := .inl (h.before fqn is)
  asked fqn is := by
    have grown : fqn ∈ (site.cursor.requestImports fqns).asked ↔ fqn ∈ site.cursor.asked ∨ fqn ∈ fqns :=
      Cursor.mem_asked_requestImports (h.frames inside) h.legible
    show _ ∨ _ ∨ fqn ∈ (site.cursor.requestImports fqns).asked
    rw [grown]
    rcases is with is | is
    · rcases h.asked fqn is with is | is | is
      · exact .inl is
      · exact .inr (.inr (.inr (pays is)))
      · exact .inr (.inr (.inl is))
    · exact .inr (.inr (.inr is))
  fixes p mem fix waits := by
    rw [Cursor.waiting_requestImports] at mem
    exact (h.fixes p mem fix waits).mono fun _ => .inl

/-- More classes may be named if their imports are asked for afterwards. -/
theorem owe (h : Informed base mark known owed path site) (more : List String) :
    Informed base mark (fun fqn => known fqn ∨ fqn ∈ more) (owed ++ more) path site where
  path := h.path
  legible := h.legible
  late := h.late
  before fqn is := .inl (h.before fqn is)
  asked fqn is := by
    rcases is with is | is
    · exact (h.asked fqn is).imp_right (.imp_left (List.mem_append_left more))
    · exact .inr (.inl (List.mem_append_right owed is))
  fixes p mem fix waits := (h.fixes p mem fix waits).mono fun _ => .inl

/-- Noting a fix. -/
theorem note (h : Informed base mark known owed path site) {fix : PendingFix}
    (names : fix.NamesOnly known) :
    Informed base mark known owed path { site with cursor := (site.cursor.noteFix fix).2 } := by
  rcases Cursor.noteFix_cases h.legible fix with same | ⟨-, added⟩
  · rw [same]
    exact h
  · refine ⟨?_, h.legible.noteFix fix, h.late, h.before, fun fqn is => ?_, fun p mem f waits => ?_⟩
    · rw [← h.path]
      exact (List.forall₂_eq_eq_eq ▸ List.forall₂_map_left_iff.mpr (List.forall₂_map_right_iff.mpr
        (added.imp fun _ _ h => h.1.symm)) : site.cursor.waiting.map (·.1) = _).symm
    · show _ ∨ _ ∨ fqn ∈ (site.cursor.noteFix fix).2.asked
      rw [Cursor.asked_noteFix]
      exact h.asked fqn is
    · obtain ⟨p', mem', -, each⟩ := exists_of_forall₂ added mem
      rcases each f waits with waits | rfl
      · exact h.fixes p' mem' f waits
      · exact names

end Informed

/-! ## Rules -/

theorem AwareOf.mono {more : String → Prop} {good good' : (String → Prop) → Prop}
    (h : AwareOf base mark more path good site) (le : ∀ fqn, known fqn → more fqn)
    (imp : ∀ world, (∀ fqn, known fqn → world fqn) → good world → good' world) :
    AwareOf base mark known path good' site := by
  obtain ⟨world, le', is, holds⟩ := h
  have le : ∀ fqn, known fqn → world fqn := fun fqn is => le' fqn (le fqn is)
  exact ⟨world, le, imp world le is, holds⟩

theorem Aware.mono {more : String → Prop} (h : Aware base mark more path site)
    (le : ∀ fqn, known fqn → more fqn) : Aware base mark known path site :=
  AwareOf.mono h le fun _ _ h => h

/-- One visit after another one, where more classes are known. -/
theorem Informed.bind {first : PassM σ β} {next : β → PassM σ α} {good : β → (String → Prop) → Prop}
    {good' : α → (String → Prop) → Prop}
    (h : VisitM.Triple (Informed base mark known [] path) first
      fun b => AwareOf base mark known path (good b))
    (hnext : ∀ b more, (∀ fqn, known fqn → more fqn) → good b more →
      VisitM.Triple (Informed base mark more [] path) (next b)
        fun a => AwareOf base mark more path (good' a)) :
    VisitM.Triple (Informed base mark known [] path) (first >>= next)
      fun a => AwareOf base mark known path (good' a) :=
  VisitM.Triple.bind h fun b => .naming fun more => .assuming fun le => .assuming fun is =>
    (hnext b more le is).mono (fun _ h => h) fun _ _ h => h.mono le fun _ _ h => h

/-- Reading the path and going on. -/
theorem Informed.path_bind {next : Path → PassM σ α} {post : α → Site Note σ → Prop}
    (h : VisitM.Triple (Informed base mark known owed path) (next ⟨path⟩) post) :
    VisitM.Triple (Informed base mark known owed path) (VisitM.path >>= next) post := by
  have read : VisitM.Triple (Informed base mark known owed path) (VisitM.path : PassM σ Path)
      fun p site => p = ⟨path⟩ ∧ Informed base mark known owed path site :=
    .path fun site h => ⟨h.outward, h⟩
  refine read.bind fun p => .assuming ?_
  rintro rfl
  exact h

/-- Making something from whatever supply there is, and going on. -/
theorem Informed.fresh_bind {make : Fresh β} {next : β → PassM σ α} {post : α → Site Note σ → Prop}
    (grows : make.Grows)
    (h : ∀ start, VisitM.Triple (Informed base mark known owed path) (next (make start).1) post) :
    VisitM.Triple (Informed base mark known owed path) (VisitM.fresh make >>= next) post := by
  have made : VisitM.Triple (Informed base mark known owed path) (VisitM.fresh make : PassM σ β)
      fun b site => (∃ start, (make start).1 = b) ∧ Informed base mark known owed path site :=
    .fresh fun site holds => ⟨⟨site.next, rfl⟩, holds.grow (grows site.next)⟩
  refine made.bind fun b => .assuming ?_
  rintro ⟨start, rfl⟩
  exact h start

/-- Asking for what is owed. -/
theorem Informed.pay (inside : path ≠ []) (fqns : List String) :
    VisitM.Triple (Informed base mark known fqns path) (PassM.requestImports fqns : PassM σ Unit)
      fun _ => Aware base mark known path :=
  .modifyCursor fun _ h => (h.request inside (List.Subset.refl fqns)).aware.mono fun _ => .inl

/-- Noting one more fix that needs imports which are owed already. -/
theorem Informed.noteFix {fix : PendingFix} {imports : List String}
    (names : fix.NamesOnly fun fqn => base fqn ∨ fqn ∈ imports) :
    VisitM.Triple (Informed base mark (fun fqn => known fqn ∨ fqn ∈ imports) owed path)
      (PassM.noteFix fix : PassM σ Bool)
      fun _ => Informed base mark (fun fqn => known fqn ∨ fqn ∈ imports) owed path :=
  .modifyCursor fun _ h => h.note (names.mono fun fqn is => is.elim (h.before fqn) .inr)

namespace Informs

theorem aware {action : PassM σ α} (h : Informs base mark path action) (known : String → Prop) :
    VisitM.Triple (Aware base mark known path) action fun _ => Aware base mark known path :=
  .naming fun more => .assuming fun le => .assuming fun _ =>
    (h more).mono (fun _ h => h) fun _ _ h => h.mono le

theorem pure (a : α) : Informs base mark path (Pure.pure a : PassM σ α) :=
  fun _ => .pure fun _ h => h.aware

theorem bind {first : PassM σ β} {next : β → PassM σ α} (h : Informs base mark path first)
    (hnext : ∀ b, Informs base mark path (next b)) : Informs base mark path (first >>= next) :=
  fun known => Informed.bind (h known) fun b more _ _ => hnext b more

/-- Making something from whatever supply there is. -/
theorem fresh {make : Fresh β} {next : β → PassM σ α} (grows : make.Grows)
    (hnext : ∀ start, Informs base mark path (next (make start).1)) :
    Informs base mark path (VisitM.fresh make >>= next) := fun known =>
  Informed.fresh_bind grows fun start => hnext start known

theorem onPath {next : Path → PassM σ α} (h : Informs base mark path (next ⟨path⟩)) :
    Informs base mark path (VisitM.path >>= next) := fun known =>
  Informed.path_bind (h known)

theorem own : Informs base mark path (VisitM.own : PassM σ σ) := fun _ => .own fun _ h => h.aware

theorem modifyOwn (change : σ → σ) : Informs base mark path (VisitM.modifyOwn change : PassM σ Unit) :=
  fun _ => .modifyOwn fun _ h => (h.own _).aware

theorem noteFinding (finding : Finding) :
    Informs base mark path (VisitM.modifyCursor fun c => ((), c.noteFinding finding) : PassM σ Unit) := by
  refine fun known => .modifyCursor fun site h => Informed.aware ⟨?_, h.legible.noteFinding finding, h.late,
    h.before, fun fqn is => ?_, fun p mem => ?_⟩
  · show ((site.cursor.noteFinding finding).waiting).map (·.1) = path
    rw [Cursor.waiting_noteFinding, h.path]
  · show _ ∨ _ ∨ fqn ∈ (site.cursor.noteFinding finding).asked
    rw [Cursor.asked_noteFinding]
    exact h.asked fqn is
  · rw [show (site.cursor.noteFinding finding).waiting = _ from Cursor.waiting_noteFinding _ _] at mem
    exact h.fixes p mem

theorem forM {f : β → PassM σ PUnit} (items : List β) (h : ∀ b ∈ items, Informs base mark path (f b)) :
    Informs base mark path (items.forM f) :=
  fun known => (VisitM.Triple.forM items fun b mem => (h b mem).aware known).mono (fun _ h => h.aware)
    fun _ _ h => h

theorem foldlM {f : α → β → PassM σ α} (items : List β)
    (h : ∀ b ∈ items, ∀ a, Informs base mark path (f a b)) (a : α) :
    Informs base mark path (items.foldlM f a) := by
  intro known
  have all : VisitM.Triple (Aware base mark known path) (items.foldlM f a)
      fun _ => Aware base mark known path :=
    .foldlM items (fun b mem a => (h b mem a).aware known) a
  exact all.mono (fun _ h => h.aware) fun _ _ h => h

/-- Noting a fix that names classes of the base only, or asks for others itself. -/
theorem noteFix {fix : PendingFix} (names : fix.NamesOnly base) :
    Informs base mark path (PassM.noteFix fix : PassM σ Bool) := fun _ =>
  .modifyCursor fun _ h => (h.note (names.mono h.before)).aware

/-- Noting a fix and, if it was noted, going on to what asks for the imports that it needs. -/
theorem noteFix_then {fix : PendingFix} {imports : List String} {next : PassM σ Unit}
    (names : fix.NamesOnly fun fqn => base fqn ∨ fqn ∈ imports)
    (pays : ∀ known : String → Prop, VisitM.Triple
      (Informed base mark (fun fqn => known fqn ∨ fqn ∈ imports) imports path) next
      fun _ => Aware base mark (fun fqn => known fqn ∨ fqn ∈ imports) path) :
    Informs base mark path (do if ← PassM.noteFix fix then next) := by
  intro known
  have noted : VisitM.Triple (Informed base mark known [] path) (PassM.noteFix fix : PassM σ Bool)
      fun noted site => if noted then
        Informed base mark (fun fqn => known fqn ∨ fqn ∈ imports) imports path site
      else Informed base mark known [] path site := by
    refine .modifyCursor fun site h => ?_
    rcases Cursor.noteFix_cases h.legible fix with same | ⟨noted, -⟩
    · rw [same]
      exact h
    · rw [if_pos noted]
      exact (h.owe imports).note (names.mono fun fqn => .imp_left (h.before fqn))
  refine noted.bind fun noted => ?_
  cases noted with
  | true => exact (pays known).mono (fun _ h => h) fun _ _ h => h.mono fun _ => .inl
  | false => exact .pure fun _ h => h.aware

/-- Noting a fix and asking for the imports that it needs. -/
theorem noteFix_requestImports (inside : path ≠ []) {fix : PendingFix} {imports : List String}
    (names : fix.NamesOnly fun fqn => base fqn ∨ fqn ∈ imports) :
    Informs base mark path
      (do if ← PassM.noteFix fix then PassM.requestImports imports : PassM σ Unit) :=
  noteFix_then names fun _ => Informed.pay inside imports

end Informs

/-! ## Repairs -/

/-- What is spliced into a block is all that comes in. -/
theorem Block.mem_splice {block out : Block} {news : List Stmt} {place : SplicePlace}
    {next used : NodeId} (h : block.splice (.statements news) place next = (.ok out, used)) :
    next ≤ used ∧ ∀ s ∈ out.stmts, s ∈ block.stmts ∨ s ∈ news := by
  unfold splice at h
  cases found : block.position? place.anchor with
  | none =>
    simp only [found] at h
    cases h
  | some index =>
    simp only [found] at h
    cases h
    refine ⟨Nat.le_succ _, fun s mem => ?_⟩
    change s ∈ spliceList block.stmts index place.side news at mem
    cases side : place.side <;> rw [side] at mem <;>
      simp only [spliceList, List.mem_append] at mem <;>
      rcases mem with (mem | mem) | mem <;>
      first
      | exact .inl (List.mem_of_mem_take mem)
      | exact .inl (List.mem_of_mem_drop mem)
      | exact .inr mem

namespace Repair

variable {c : Repair} {anchor core : Stmt} {fix : PendingFix}

/-- The statements of the block, and those that statements are replaced by, name known classes
only. -/
structure NamesOnly (known : String → Prop) (c : Repair) : Prop where
  block : ∀ s ∈ c.block.stmts, s.NamesOnly known
  renamed : ∀ p ∈ c.renamed, p.2.NamesOnly known

theorem NamesOnly.mono {more : String → Prop} (h : c.NamesOnly known)
    (le : ∀ fqn, known fqn → more fqn) : c.NamesOnly more :=
  ⟨fun s mem => (h.block s mem).mono le, fun p mem => (h.renamed p mem).mono le⟩

theorem NamesOnly.resolve? (h : c.NamesOnly known) (names : anchor.NamesOnly known)
    (found : c.resolve? anchor = some core) : core.NamesOnly known := by
  unfold Repair.resolve? at found
  generalize c.renamed.length + 1 = fuel at found
  induction fuel generalizing anchor with
  | zero => cases found
  | succ fuel ih =>
    rw [follow] at found
    split at found
    · cases found
      exact names
    · split at found
      next old new renamed => exact ih (h.renamed _ (List.mem_of_find?_eq_some renamed)) found
      next => cases found

theorem splice_informs (h : c.NamesOnly known) {news : List Stmt}
    (names : ∀ s ∈ news, s.NamesOnly known) (side : SpliceSide) (anchor : Stmt) :
    VisitM.Triple (Informed base mark known [] path)
      (c.splice .standard (.statements news) side anchor : PassM σ Repair)
      fun c' site => c'.NamesOnly known ∧ Informed base mark known [] path site := by
  intro site c' site' holds ran
  unfold splice at ran
  obtain ⟨block, _, ran₁, ran⟩ := VisitM.ok_of_bind ran
  obtain ⟨used, made, rfl⟩ := PassM.ok_of_make ran₁
  obtain ⟨le, stmts⟩ := Block.mem_splice made
  cases ran
  exact ⟨⟨fun s mem => (stmts s mem).elim (h.block s) (names s), h.renamed⟩, holds.grow le⟩

theorem swap_informs (h : c.NamesOnly known) {news : List Stmt} {successor : Stmt}
    (names : ∀ s ∈ news, s.NamesOnly known) (mem : successor ∈ news) (anchor : Stmt) :
    VisitM.Triple (Informed base mark known [] path)
      (c.swap .standard anchor news successor : PassM σ Repair)
      fun c' site => c'.NamesOnly known ∧ Informed base mark known [] path site := by
  refine (splice_informs h names .replace anchor).bind fun c' => .assuming fun h' => .pure fun _ holds => ?_
  refine ⟨⟨h'.block, fun p among => ?_⟩, holds⟩
  rcases List.mem_append.mp among with among | last
  · exact h'.renamed p among
  · cases List.mem_singleton.mp last
    exact names successor mem

/-- Asking for classes that may be named from then on. -/
theorem request_bind {fqns : List String} (inside : path ≠ []) {next : PassM σ Repair}
    (h : VisitM.Triple (Informed base mark (fun fqn => known fqn ∨ fqn ∈ fqns) [] path) next
      fun c' site => c'.NamesOnly (fun fqn => known fqn ∨ fqn ∈ fqns) ∧
        Informed base mark (fun fqn => known fqn ∨ fqn ∈ fqns) [] path site) :
    VisitM.Triple (Informed base mark known [] path) (PassM.requestImports fqns >>= fun _ => next)
      fun c' => AwareOf base mark known path c'.NamesOnly := by
  have asked : VisitM.Triple (Informed base mark known [] path) (PassM.requestImports fqns : PassM σ Unit)
      fun _ => Informed base mark (fun fqn => known fqn ∨ fqn ∈ fqns) [] path :=
    .modifyCursor fun site holds => holds.request inside (List.nil_subset fqns)
  exact asked.bind fun _ => h.mono (fun _ h => h) fun _ _ h => ⟨_, fun _ => .inl, h⟩

/-- An extraction asks for the type of the local that it declares. -/
theorem extract_informs (h : c.NamesOnly known) (names : core.NamesOnly known) {tainted : Expr}
    (operand : tainted.NamesOnly known) (stem : String) (inside : path ≠ []) :
    VisitM.Triple (Informed base mark known [] path)
      (c.extract .standard core tainted stem : PassM σ Repair)
      fun c' => AwareOf base mark known path c'.NamesOnly := by
  unfold extract
  refine Informed.fresh_bind c.currentPath_grows fun _ => ?_
  refine Informed.fresh_bind (Expr.mkIdent_spends (fun _ => false) _ _).grows fun start => ?_
  refine Informed.fresh_bind (core.replaceAlike?_grows _ _) fun named => ?_
  cases made : core.replaceAlike? tainted (Expr.mkIdent _ tainted.ty start).1 named with
  | mk answer used =>
    cases answer with
    | none => exact .pure fun _ holds => holds.awareOf h
    | some changed =>
      refine Informed.fresh_bind (Stmt.mkDeclare_spends (fun _ => false) _ _ _ _).grows fun declared => ?_
      refine request_bind inside ?_
      have type : ∀ fqn ∈ tainted.ty.fqn?, known fqn ∨ fqn ∈ tainted.ty.fqn?.toList :=
        fun fqn mem => .inr (Option.mem_toList.mpr mem)
      have changed := Stmt.replaceAlike?_namesOnly (Expr.mkIdent_placeable type _ start)
        (names.mono fun _ => .inl) made
      have same : c.NamesOnly fun fqn => known fqn ∨ fqn ∈ tainted.ty.fqn?.toList := h.mono fun _ => .inl
      refine swap_informs ?_ (List.forall_mem_cons.mpr ⟨?_, List.forall_mem_singleton.mpr changed⟩)
        (List.mem_cons_of_mem _ List.mem_cons_self) core
      · exact ⟨same.block, same.renamed⟩
      · exact Stmt.mkDeclare_namesOnly (operand.mono fun _ => .inl) type _ declared

/-- A guard asks for the exception that it throws, unless that is known anyway. -/
theorem guardAfter_informs (h : c.NamesOnly known) {tainted parent : Expr} (operand : tainted.NamesOnly known) (directory : parent.NamesOnly known) (variant : GuardVariant)
    (message : String) (inside : path ≠ []) (unchecked : known Fqn.runtimeException) :
    VisitM.Triple (Informed base mark known [] path)
      (c.guardAfter .standard core tainted parent variant message : PassM σ Repair)
      fun c' => AwareOf base mark known path c'.NamesOnly := by
  unfold guardAfter
  refine Informed.fresh_bind c.currentPath_grows fun _ => ?_
  dsimp only
  split
  next => exact .throw
  next template parsed =>
    have rendered : VisitM.Triple (Informed base mark known [] path)
        (PassM.make .template (template.render [tainted, parent]) : PassM σ Fragment)
        fun fragment site => (∃ guard, fragment = .statements [guard] ∧
          guard.NamesOnly fun fqn => known fqn ∨ fqn ∈ template.imports) ∧
            Informed base mark known [] path site := by
      intro site fragment site' holds ran
      obtain ⟨built, rendered, rfl⟩ := PassM.ok_of_make ran
      have build := Template.build_of_render rendered
      cases made : mkGuard variant _ message tainted parent site.next with
      | mk guard after =>
        rw [guardTemplate_build parsed made] at build
        cases build
        have grows := (mkGuard_spends (fun _ => false) _ _ _ _ _).grows.le made
        refine ⟨⟨guard, rfl, ?_⟩, holds.grow grows⟩
        rw [show guard = (mkGuard variant _ message tainted parent site.next).1 from
          (congrArg Prod.fst made).symm]
        refine mkGuard_namesOnly (operand.mono fun _ => .inl) (directory.mono fun _ => .inl) ?_ message _
        rw [guardTemplate_imports parsed]
        generalize Path.guardException _ = thrown
        cases thrown with
        | ioException => exact .inr (List.mem_singleton_self _)
        | runtimeException => exact .inl unchecked
    refine rendered.bind fun fragment => .assuming ?_
    rintro ⟨guard, rfl, named⟩
    exact request_bind inside (splice_informs (h.mono fun _ => .inl)
      (List.forall_mem_singleton.mpr named) .after core)

theorem replace_informs (h : c.NamesOnly known) (names : core.NamesOnly known) {tainted new : Expr}
    {imports : List String} (placeable : new.Placeable fun fqn => known fqn ∨ fqn ∈ imports)
    (inside : path ≠ []) :
    VisitM.Triple (Informed base mark known [] path)
      (c.replace .standard core tainted new imports : PassM σ Repair)
      fun c' => AwareOf base mark known path c'.NamesOnly := by
  unfold replace
  refine Informed.fresh_bind (core.replaceExpr?_grows _ _) fun start => ?_
  cases made : core.replaceExpr? tainted new start with
  | mk answer used =>
    cases answer with
    | none => exact .pure fun _ holds => holds.awareOf h
    | some changed =>
      refine request_bind inside ?_
      have changed : changed.NamesOnly fun fqn => known fqn ∨ fqn ∈ imports :=
        Stmt.replaceExpr?_namesOnly placeable (names.mono fun _ => .inl) made
      exact swap_informs (h.mono fun _ => .inl) (List.forall_mem_singleton.mpr changed)
        (List.mem_singleton_self _) core

/-- A fix leaves a block that names what is known afterwards. -/
theorem apply_informs (h : c.NamesOnly known) (fits : fix.NamesOnly known) (inside : path ≠ [])
    (unchecked : known Fqn.runtimeException) :
    VisitM.Triple (Informed base mark known [] path) (apply .standard c fix : PassM σ Repair)
      fun c' => AwareOf base mark known path c'.NamesOnly := by
  unfold apply
  split
  next => exact .pure fun _ holds => holds.awareOf h
  next core resolved =>
    have names := h.resolve? fits.anchor resolved
    have spliced {news : List Stmt} (written : ∀ s ∈ news, s.NamesOnly known) (side : SpliceSide) :
        VisitM.Triple (Informed base mark known [] path)
          (c.splice .standard (.statements news) side core : PassM σ Repair)
          fun c' => AwareOf base mark known path c'.NamesOnly :=
      (splice_informs h written side core).mono (fun _ h => h) fun _ _ h => h.2.awareOf h.1
    have written := fits.written
    cases kind : fix.kind with
    | extract stem =>
      have reads := fits.reads (.inl (by rw [kind]; rfl))
      exact extract_informs h names reads.1 stem inside
    | guardAfter variant message =>
      cases at_ : fix.parent with
      | none => exact .pure fun _ holds => holds.awareOf h
      | some parent =>
        have reads := fits.reads (.inr (by rw [kind]; rfl))
        exact guardAfter_informs h reads.1 (reads.2 parent at_) variant message inside unchecked
    | replace new imports => exact replace_informs h names (fits.replaces new imports kind) inside
    | insertAfter stmts =>
      rw [kind] at written
      exact spliced written .after
    | insertBefore stmts =>
      rw [kind] at written
      exact spliced written .before
    | remove => exact spliced (fun _ none => (List.not_mem_nil none).elim) .replace

/-- Fixes that are applied one after the other. -/
theorem applyAll_informs {fixes : List PendingFix} (h : c.NamesOnly known)
    (each : ∀ fix ∈ fixes, fix.NamesOnly known) (inside : path ≠ [])
    (unchecked : known Fqn.runtimeException) :
    VisitM.Triple (Informed base mark known [] path)
      (fixes.foldlM (apply .standard) c : PassM σ Repair)
      fun c' => AwareOf base mark known path c'.NamesOnly := by
  induction fixes generalizing c known with
  | nil => exact .pure fun _ holds => holds.awareOf h
  | cons fix fixes ih =>
    obtain ⟨first, others⟩ := List.forall_mem_cons.mp each
    rw [List.foldlM_cons]
    exact Informed.bind (apply_informs h first inside unchecked) fun c' more le names =>
      ih names (fun other mem => (others other mem).mono le) (le _ unchecked)

theorem start_namesOnly (p : Path) (before : Block) {after : Block}
    (names : (Node.block after).NamesOnly known) : (start p before after).NamesOnly known := by
  refine ⟨Block.namesOnly_iff.mp names, fun q mem => ?_⟩
  unfold start at mem
  dsimp only at mem
  split at mem
  · exact Block.namesOnly_iff.mp names _ (List.of_mem_zip (List.mem_filter.mp mem).1).2
  · cases mem

end Repair

/-- The fixes of a block leave one that names what is known afterwards. -/
theorem repair_informs {before after : Block} {above : List Node}
    (names : (Node.block after).NamesOnly known) (unchecked : known Fqn.runtimeException) :
    VisitM.Triple (Informed base mark known [] (.block before :: above))
      (repair .standard before after : PassM σ Block)
      fun out => AwareOf base mark known (.block before :: above) fun more =>
        (Node.block out).NamesOnly more := by
  have taken : VisitM.Triple (Informed base mark known [] (.block before :: above))
      (VisitM.modifyCursor (·.take Note.fixTopic) : PassM σ (Option PendingFixes))
      fun pending site => (∀ set ∈ pending, ∀ fix ∈ set.fixes, fix.NamesOnly known) ∧
        Informed base mark known [] (.block before :: above) site := by
    refine .modifyCursor fun site h => ?_
    obtain ⟨⟨n, fixes⟩, up, here, rfl, rfl⟩ := List.map_eq_cons_iff.mp h.path
    have asked (fqn : String) (is : known fqn) : base fqn ∨ fqn ∈ [] ∨
        fqn ∈ (site.cursor.take Note.fixTopic).2.asked := by
      rw [Cursor.asked_take_fixes]
      exact h.asked fqn is
    rcases Cursor.waiting_take here with ⟨none, -, same⟩ | ⟨pending, some, rfl, left⟩
    · refine ⟨fun set mem => ?_, same ▸ h.path, h.legible.take_fixes, h.late, h.before, asked, same ▸ h.fixes⟩
      rw [none] at mem
      cases mem
    · refine ⟨fun set mem => ?_, by rw [left]; rfl, h.legible.take_fixes, h.late, h.before, asked, ?_⟩
      · rw [some] at mem
        cases mem
        exact h.fixes _ (here ▸ List.mem_cons_self)
      · rw [left]
        exact List.forall_mem_cons.mpr ⟨fun _ none => (List.not_mem_nil none).elim,
          fun p mem => h.fixes p (here ▸ List.mem_cons_of_mem _ mem)⟩
  unfold repair
  refine taken.bind fun pending => .assuming fun waits => ?_
  cases pending with
  | none => exact .pure fun _ h => h.awareOf names
  | some pending =>
    refine Informed.path_bind ?_
    have each : ∀ fix ∈ pending.ordered, fix.NamesOnly known := fun fix mem => by
      obtain ⟨tag, -, tagged⟩ := List.mem_flatMap.mp mem
      exact waits pending rfl fix (List.mem_filter.mp tagged).1
    exact Informed.bind (Repair.applyAll_informs (Repair.start_namesOnly _ before names) each
      (List.cons_ne_nil _ _) unchecked) fun c more _ repaired => .pure fun _ h =>
        h.awareOf (Block.namesOnly_iff.mpr repaired.block)

end

end JavaMend
