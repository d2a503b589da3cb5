import JavaMend.Proofs.Patch.Gaps
import JavaMend.Proofs.Remedy.Appended
import JavaMend.Proofs.Remedy.Notes

/-!
# Factories that are hardened

`XMLInputFactory` and `TransformerFactory` are hardened in one way: of the settings at
stake, those that no call on the factory makes are made, behind the last call that makes
any of them, behind the declaration if there is none, and in an initializer if a field
holds the factory (`Hardening.plan`).

What is written is found again. A call that was there still is, so what was made stays
made (`Factory.calls_subset`); what was left open is closed by a call behind the
declaration of a local, or in an initializer of the class of a field, which is where the
next pass looks. This is an argument about one factory, and it takes one more step: of the
additions for one statement only the last is written. It is the addition of a variable of
the same name, declared no earlier, and such a variable lacks whatever the first one does
(`Hardening.exists_last`). That is not so for two factories of one declaration.
-/

namespace JavaMend

/-! ## Factories of a block -/

namespace Factory

variable {matcher : CallMatcher} {creation : List Signature} {f g : Factory}

/-- A factory is one of the variables of its declaration, whatever follows that. -/
theorem mem_ofDeclaration {s : Stmt} {following : List Stmt} :
    f ∈ ofDeclaration matcher creation s following ↔
      f.following = following ∧ f.declaration = s ∧
        ∃ decl, s.declaration? = some decl ∧ f.held ∈ decl.vars ∧ f.held.init = some f.init ∧
          matcher.acceptsAny f.init.unparen creation = true := by
  unfold ofDeclaration
  cases found : s.declaration? with
  | none => simp
  | some decl =>
    simp only [List.mem_filterMap, Option.bind_eq_bind, Option.some.injEq, exists_eq_left']
    constructor
    · rintro ⟨held, mem, made⟩
      obtain ⟨init, hinit, made⟩ := Option.bind_eq_some_iff.mp made
      obtain ⟨_, guarded, made⟩ := Option.bind_eq_some_iff.mp made
      have accepted : matcher.acceptsAny init.unparen creation = true := by
        by_contra refused
        simp [refused] at guarded
      cases made
      exact ⟨rfl, rfl, mem, hinit, accepted⟩
    · obtain ⟨declaration, held, init, following'⟩ := f
      rintro ⟨rfl, rfl, mem, hinit, accepted⟩
      refine ⟨held, mem, ?_⟩
      dsimp only at hinit accepted
      simp [hinit, accepted]

/-- A factory of some statements stands at a place among them. -/
theorem mem_declaredIn {stmts : List Stmt} :
    f ∈ declaredIn matcher creation stmts ↔
      ∃ front s, stmts = front ++ s :: f.following ∧ f ∈ ofDeclaration matcher creation s f.following := by
  induction stmts with
  | nil => simp [declaredIn]
  | cons s stmts ih =>
    rw [declaredIn, List.mem_append, ih]
    constructor
    · rintro (here | ⟨front, s', rfl, later⟩)
      · have same := (mem_ofDeclaration.mp here).1
        subst same
        exact ⟨[], s, rfl, here⟩
      · exact ⟨s :: front, s', rfl, later⟩
    · rintro ⟨front, s', split, mem⟩
      cases front with
      | nil =>
        cases split
        exact .inl mem
      | cons first front =>
        cases split
        exact .inr ⟨front, s', rfl, mem⟩

/-- Among calls, no factory is declared. -/
theorem declaredIn_of_calls {stmts : List Stmt} (calls : ∀ s ∈ stmts, ∃ e, s.form = .expr e) :
    declaredIn matcher creation stmts = [] := by
  refine List.eq_nil_iff_forall_not_mem.mpr fun f mem => ?_
  obtain ⟨front, s, split, own⟩ := mem_declaredIn.mp mem
  obtain ⟨-, -, decl, isDecl, -⟩ := mem_ofDeclaration.mp own
  obtain ⟨e, isCall⟩ := calls s (split ▸ List.mem_append_right _ List.mem_cons_self)
  unfold Stmt.declaration? at isDecl
  rw [isCall] at isDecl
  cases isDecl

/-- What follows a factory follows those that are declared before it. -/
theorem pairwise_declaredIn (stmts : List Stmt) :
    (declaredIn matcher creation stmts).Pairwise fun f g => g.following <:+ f.following := by
  induction stmts with
  | nil => exact .nil
  | cons s stmts ih =>
    refine List.pairwise_append.mpr ⟨?_, ih, fun f hf g hg => ?_⟩
    · refine List.pairwise_of_forall_mem_list fun f hf g hg => ?_
      have same : g.following = f.following :=
        (mem_ofDeclaration.mp hg).1.trans (mem_ofDeclaration.mp hf).1.symm
      exact same ▸ List.suffix_refl _
    · obtain ⟨front, s', split, -⟩ := mem_declaredIn.mp hg
      rw [(mem_ofDeclaration.mp hf).1]
      exact ⟨front ++ [s'], by rw [split]; simp⟩

/-- The calls on a variable of one name, where no statement evaluates less. -/
theorem calls_subset {owner : Option Ty} {stmts stmts' : List Stmt} (name : g.held.name = f.held.name)
    (more : ∀ s ∈ stmts, ∃ s' ∈ stmts', (Node.stmt s).exprs ⊆ (Node.stmt s').exprs) :
    f.calls owner stmts ⊆ g.calls owner stmts' := by
  intro e mem
  obtain ⟨evaluated, receives⟩ := List.mem_filter.mp mem
  obtain ⟨s, hs, inside⟩ := List.mem_flatMap.mp evaluated
  obtain ⟨s', hs', subset⟩ := more s hs
  refine List.mem_filter.mpr ⟨List.mem_flatMap.mpr ⟨s', hs', subset inside⟩, ?_⟩
  unfold receiver at receives ⊢
  rwa [name]

/-- The statements of the methods and initializers of a class body. -/
theorem mem_classStmts {b : Block} {above : List Node} {s : Stmt} :
    s ∈ classStmts ⟨.block b :: above⟩ ↔ ∃ m ∈ b.stmts, Path.isExecutable m = true ∧
      ∃ body, .block body ∈ (Node.stmt m).children ∧ s ∈ body.stmts := by
  unfold classStmts Path.executedBodies
  simp only [Path.value?, List.head?_cons, List.mem_flatMap, List.mem_filter, List.mem_map]
  constructor
  · rintro ⟨_, ⟨m, ⟨hm, executable⟩, c, hc, rfl⟩, mem⟩
    cases c with
    | block body => exact ⟨m, hm, executable, body, hc, mem⟩
    | _ => cases mem
  · rintro ⟨m, hm, executable, body, hc, mem⟩
    exact ⟨_, ⟨m, ⟨hm, executable⟩, _, hc, rfl⟩, mem⟩

/-- The addition that configures a factory: in an initializer for a field, else behind the
statement `last` or the declaration. -/
def addition (f : Factory) (owner : Option Ty) (last : Option Stmt) (make : Fresh (List Stmt))
    (imports : List String) : Addition :=
  match owner with
  | some _ =>
    { anchor := f.declaration, tainted := f.init
      make := do
        let stmts ← make
        return [← mkFieldInitializer f.declaration stmts]
      imports := imports }
  | none => { anchor := last.getD f.declaration, tainted := f.init, make, imports }

theorem addition_note (f : Factory) (owner : Option Ty) (last : Option Stmt)
    (make : Fresh (List Stmt)) (imports : List String) :
    (f.addition owner last make imports).note =
      VisitM.fresh make >>= fun stmts => f.addConfiguration owner last stmts imports := by
  cases owner <;> rfl

theorem addition_anchor_mem {b : Block} {owner : Option Ty} {last : Option Stmt}
    {make : Fresh (List Stmt)} {imports : List String} (among : DeclaredAmong b.stmts f)
    (follows : owner = none → ∀ s ∈ last, s ∈ f.following) :
    (f.addition owner last make imports).anchor ∈ b.stmts := by
  cases owner with
  | some _ => exact among.declaration_mem
  | none =>
    cases last with
    | none => exact among.declaration_mem
    | some s => exact among.following_mem (follows rfl s rfl)

end Factory

/-! ## Hardening -/

/-- How the factories of one kind are hardened. -/
structure Hardening where
  /-- The settings at stake. -/
  Item : Type
  creation : List Signature
  /-- The calls that make settings. -/
  shapes : List Signature
  /-- What the calls on a factory leave open. -/
  leftOpen : List Expr → List Item
  /-- Makes a setting. -/
  make : Expr → Item → Fresh Stmt
  imports : List String

namespace Hardening

variable (H : Hardening)

/-- What a factory lacks. -/
def missing (path : Path) (f : Factory) : List H.Item :=
  H.leftOpen (f.calls path.bodyOwner? (f.surroundings path.bodyOwner? path))

/-- Makes some settings of a factory. -/
def mkSettings (f : Factory) (owner : Option Ty) (items : List H.Item) : Fresh (List Stmt) := do
  let read ← f.held.mkRead owner
  items.mapM (H.make read)

/-- What is to be written for a factory that lacks something. -/
def addition? (path : Path) (f : Factory) : Option Addition :=
  match H.missing path f with
  | [] => none
  | items =>
    let owner := path.bodyOwner?
    let last := f.lastSetter? owner .standard H.shapes (f.surroundings owner path)
    some (f.addition owner last (H.mkSettings f owner items) H.imports)

/-- What is to be written into a block. -/
def plan (b : Block) (path : Path) : List Addition :=
  (Factory.declaredIn .standard H.creation b.stmts).filterMap (H.addition? path)

/-- A statement that is a call on the factory, after which the setting is not left open. -/
def Closes (f : Factory) (owner : Option Ty) (item : H.Item) (s : Stmt) : Prop :=
  ∃ call, s.form = .expr call ∧ (f.receiver owner).isReceiverOf call = true ∧
    ∀ calls, call ∈ calls → item ∉ H.leftOpen calls

/-- A statement that is made for a setting of the factory. -/
def Made (f : Factory) (owner : Option Ty) (item : H.Item) (s : Stmt) : Prop :=
  ∃ next next', s = (H.make (f.held.mkRead owner next).1 item next').1

/-- What hardening relies on. -/
structure Lawful : Prop where
  /-- More calls leave less open. -/
  fewer : ∀ {calls calls' : List Expr}, calls ⊆ calls' → H.leftOpen calls' ⊆ H.leftOpen calls
  /-- What is made for a setting closes it. -/
  closes : ∀ {f : Factory} {owner : Option Ty} {item : H.Item} {s : Stmt},
    H.Made f owner item s → H.Closes f owner item s

/-- No declaration of the block initializes two factories, and no statement is there twice. -/
structure Single (b : Block) : Prop where
  distinct : (b.stmts.map (·.id)).Nodup
  single : ∀ s ∈ b.stmts, (Factory.ofDeclaration .standard H.creation s []).length ≤ 1

variable {H} {b : Block} {path : Path} {f g : Factory} {a : Addition}

theorem addition?_isSome : (H.addition? path f).isSome ↔ H.missing path f ≠ [] := by
  unfold addition?
  cases H.missing path f <;> simp

theorem anchor_mem (mem : f ∈ Factory.declaredIn .standard H.creation b.stmts)
    (found : H.addition? path f = some a) : a.anchor ∈ b.stmts := by
  unfold addition? at found
  split at found
  next => cases found
  next =>
    cases found
    exact Factory.addition_anchor_mem (Factory.declaredAmong_of_mem mem) Factory.lastSetter?_mem

/-- Notes what one factory lacks. -/
def protect (H : Hardening) (path : Path) (f : Factory) : PassM Unit Unit :=
  match H.missing path f with
  | [] => return ()
  | items => do
    let owner := path.bodyOwner?
    let stmts ← VisitM.fresh (H.mkSettings f owner items)
    f.addConfiguration owner (f.lastSetter? owner .standard H.shapes (f.surroundings owner path)) stmts
      H.imports

theorem protect_eq (path : Path) (f : Factory) :
    H.protect path f = (H.addition? path f).elim (pure ()) Addition.note := by
  unfold protect addition?
  cases H.missing path f with
  | nil => rfl
  | cons item items => exact (Factory.addition_note ..).symm

/-- A remedy that looks at the factories of each block, one after the other. -/
theorem appends {remedy : Remedy Unit} (enter : ∀ n, remedy.enter n = pure true)
    (leave : ∀ b, remedy.leave b = do
      let path ← VisitM.path
      (Factory.declaredIn .standard H.creation b.stmts).forM (H.protect path)) :
    remedy.Appends H.plan where
  enter := enter
  leave b := by
    rw [leave]
    refine bind_congr fun path => ?_
    unfold plan
    induction Factory.declaredIn .standard H.creation b.stmts with
    | nil => rfl
    | cons f fs ih =>
      rw [List.filterMap_cons]
      show H.protect path f >>= (fun _ => fs.forM (H.protect path)) = _
      rw [ih, protect_eq]
      cases H.addition? path f with
      | none => exact pure_bind _ _
      | some a => rfl
  anchors b above a mem := by
    obtain ⟨f, hf, found⟩ := List.mem_filterMap.mp mem
    exact anchor_mem hf found

/-! ## What is found again -/

/-- Among the additions for one statement, the one that counts is that of a factory
declared no earlier. -/
theorem exists_last {fs : List Factory} (ordered : fs.Pairwise fun f g => g.following <:+ f.following)
    {s : Stmt} (mem : f ∈ fs) (found : H.addition? path f = some a) (here : a.anchor.same s = true) :
    ∃ g ∈ fs, ∃ c, H.addition? path g = some c ∧ c.anchor.same s = true ∧
      Addition.last? (fs.filterMap (H.addition? path)) s = some c ∧ g.following <:+ f.following := by
  -- What counts among the later ones counts.
  have later {b c : Addition} {adds : List Addition} (last : Addition.last? adds s = some c) :
      Addition.last? (b :: adds) s = some c := by
    unfold Addition.last? at last ⊢
    rw [List.filter_cons]
    split
    · rw [List.getLast?_cons, last]
      rfl
    · exact last
  induction fs with
  | nil => cases mem
  | cons first fs ih =>
    obtain ⟨before, rest⟩ := List.pairwise_cons.mp ordered
    have skip {c : Addition} (last : Addition.last? (fs.filterMap (H.addition? path)) s = some c) :
        Addition.last? ((first :: fs).filterMap (H.addition? path)) s = some c := by
      rw [List.filterMap_cons]
      split
      · exact last
      · exact later last
    rcases List.mem_cons.mp mem with rfl | mem
    · cases last : Addition.last? (fs.filterMap (H.addition? path)) s with
      | some c =>
        obtain ⟨inside, at_⟩ := Addition.last?_mem last
        obtain ⟨g, hg, made⟩ := List.mem_filterMap.mp inside
        exact ⟨g, List.mem_cons_of_mem _ hg, c, made, at_, skip last, before g hg⟩
      | none =>
        refine ⟨f, List.mem_cons_self, a, found, here, ?_, List.suffix_refl _⟩
        unfold Addition.last? at last ⊢
        rw [List.filterMap_cons_some found, List.filter_cons, if_pos here,
          List.getLast?_eq_none_iff.mp last]
        rfl
    · obtain ⟨g, hg, c, made, at_, last, suffix⟩ := ih rest mem
      exact ⟨g, List.mem_cons_of_mem _ hg, c, made, at_, skip last, suffix⟩

/-- Settings are written behind the declaration, or behind a call on the local. -/
theorem anchor_cases (found : H.addition? path f = some a) :
    a.anchor = f.declaration ∨ path.bodyOwner? = none ∧ a.anchor ∈ f.following ∧
      ∃ e, a.anchor.expression? = some e ∧ e.callsLocal f.held.name = true := by
  unfold addition? at found
  split at found
  next => cases found
  next =>
    cases found
    cases owner : path.bodyOwner? with
    | some ty => exact .inl rfl
    | none =>
      cases last : f.lastSetter? none .standard H.shapes (f.surroundings none path) with
      | none => exact .inl rfl
      | some s =>
        obtain ⟨inside, setter⟩ := List.mem_filter.mp (List.mem_of_getLast? last)
        obtain ⟨e, isCall, calls⟩ := Option.any_eq_true _ _ |>.mp setter
        exact .inr ⟨rfl, inside, e, isCall, (Bool.and_eq_true_iff.mp calls).1⟩

/-- The settings of a local are written behind the last call that makes any. -/
theorem exists_behind (found : H.addition? path f = some a) (isLocal : path.bodyOwner? = none) :
    ∃ front back, f.declaration :: f.following = front ++ a.anchor :: back ∧
      ∀ s ∈ back, ∀ e, s.form = .expr e → e.callsLocal f.held.name = true →
        CallMatcher.standard.acceptsAny e H.shapes = false := by
  let makes (s : Stmt) : Bool := s.expression?.any fun e =>
    e.callsLocal f.held.name && CallMatcher.standard.acceptsAny e H.shapes
  have refused {s : Stmt} (no : makes s = false) (e : Expr) (isCall : s.form = .expr e)
      (calls : e.callsLocal f.held.name = true) :
      CallMatcher.standard.acceptsAny e H.shapes = false := by
    simpa [makes, Stmt.expression?, isCall, calls] using no
  have anchor : a.anchor = ((f.following.filter makes).getLast?).getD f.declaration := by
    unfold addition? at found
    split at found
    next => cases found
    next =>
      cases found
      rw [isLocal]
      rfl
  rw [anchor, List.getLast?_filter]
  cases last : f.following.reverse.find? makes with
  | none =>
    refine ⟨[], f.following, rfl, fun s mem => refused ?_⟩
    exact Bool.eq_false_iff.mpr (List.find?_eq_none.mp last s (List.mem_reverse.mpr mem))
  | some s =>
    obtain ⟨-, back, front, split, none_⟩ := List.find?_eq_some_iff_append.mp last
    refine ⟨f.declaration :: front.reverse, back.reverse, ?_, fun s mem => refused ?_⟩
    · rw [← List.reverse_reverse f.following, split]
      simp
    · exact (Bool.not_eq_true' _).mp (none_ s (List.mem_reverse.mp mem))

/-- Factories of one block whose settings are written behind one statement have one name. -/
theorem name_eq (single : H.Single b) (hf : f ∈ Factory.declaredIn .standard H.creation b.stmts)
    (hg : g ∈ Factory.declaredIn .standard H.creation b.stmts) {c : Addition}
    (found : H.addition? path f = some a) (found' : H.addition? path g = some c)
    (same : c.anchor = a.anchor) : g.held.name = f.held.name := by
  obtain ⟨front, s, split, own⟩ := Factory.mem_declaredIn.mp hf
  obtain ⟨front', s', split', own'⟩ := Factory.mem_declaredIn.mp hg
  obtain ⟨-, rfl, decl, isDecl, held⟩ := Factory.mem_ofDeclaration.mp own
  obtain ⟨-, rfl, decl', isDecl', held'⟩ := Factory.mem_ofDeclaration.mp own'
  -- A declaration is no call.
  have apart {t : Stmt} {d : Declaration Variable} {e : Expr} (isDecl : t.declaration? = some d)
      (isCall : t.expression? = some e) : False := by
    obtain ⟨id, form⟩ := t
    cases form <;> first | cases isDecl; done | cases isCall
  rcases anchor_cases found with at_ | ⟨-, -, e, isCall, calls⟩ <;>
    rcases anchor_cases found' with at_' | ⟨-, -, e', isCall', calls'⟩
  · have declared : g.declaration = f.declaration := at_'.symm.trans (same.trans at_)
    have inside : f.declaration ∈ b.stmts := split ▸ List.mem_append_right _ List.mem_cons_self
    have alone := single.single _ inside
    have first : { f with following := [] } ∈
        Factory.ofDeclaration .standard H.creation f.declaration [] :=
      Factory.mem_ofDeclaration.mpr ⟨rfl, rfl, decl, isDecl, held⟩
    have second : { g with following := [] } ∈
        Factory.ofDeclaration .standard H.creation f.declaration [] :=
      Factory.mem_ofDeclaration.mpr ⟨rfl, declared, decl', declared ▸ isDecl', held'⟩
    match Factory.ofDeclaration .standard H.creation f.declaration [], alone, first, second with
    | [one], _, first, second =>
      have same := (List.mem_singleton.mp second).trans (List.mem_singleton.mp first).symm
      exact congrArg (·.held.name) same
    | _ :: _ :: _, alone, _, _ => exact absurd alone (by simp)
  · rw [same, at_] at isCall'
    exact (apart isDecl isCall').elim
  · rw [← same, at_'] at isCall
    exact (apart isDecl' isCall).elim
  · rw [same] at isCall'
    cases isCall.symm.trans isCall'
    exact Option.some.inj ((eq_of_beq calls').symm.trans (eq_of_beq calls))

/-- A variable of the same name that is declared no earlier lacks no less. -/
theorem missing_subset (lawful : H.Lawful) (name : g.held.name = f.held.name)
    (suffix : g.following <:+ f.following) : H.missing path f ⊆ H.missing path g := by
  refine lawful.fewer (Factory.calls_subset name.symm fun s mem => ⟨s, ?_, fun _ h => h⟩)
  unfold Factory.surroundings at mem ⊢
  split at mem
  next field => rwa [if_pos field]
  next isLocal =>
    rw [if_neg isLocal]
    exact suffix.subset mem

/-- What is written for a factory: a statement for each setting that it lacks, in an
initializer if a field holds it. -/
def Writes (H : Hardening) (path : Path) (f : Factory) (ws : List Stmt) : Prop :=
  match path.bodyOwner? with
  | none => List.Forall₂ (H.Made f none) (H.missing path f) ws
  | some ty => ∃ init body, ws = [init] ∧ init.form = .block body ∧
      List.Forall₂ (H.Made f (some ty)) (H.missing path f) body.stmts

theorem mkSettings_made (f : Factory) (owner : Option Ty) (items : List H.Item) :
    (H.mkSettings f owner items).Gives (List.Forall₂ (H.Made f owner) items) := by
  intro next
  exact Fresh.Gives.mapM (fun item _ next' => ⟨next, next', rfl⟩) _

theorem writes_of_addition? (found : H.addition? path f = some a) (next : NodeId) :
    H.Writes path f (a.make next).1 := by
  unfold addition? at found
  split at found
  next => cases found
  next =>
    cases found
    unfold Writes
    cases owner : path.bodyOwner? with
    | none => exact mkSettings_made f none _ next
    | some ty => exact ⟨_, _, rfl, rfl, mkSettings_made f (some ty) _ next⟩

/-- A block that was hardened: what became of its statements, and what was written behind
each. -/
structure Hardens (H : Hardening) (b : Block) (above : List Node) (out : Block)
    (parts : List Appendage) : Prop where
  before : b.stmts = parts.map (·.old)
  after : out.stmts = parts.flatMap (·.stmts)
  visited : ∀ p ∈ parts, Node.Appended H.plan (.block b :: above) (.stmt p.old) (.stmt p.visited)
  written : ∀ p ∈ parts,
    Addition.Written (Addition.last? (H.plan b ⟨.block b :: above⟩) p.old) p.written

namespace Hardens

variable {out : Block} {above above' : List Node} {parts pre post : List Appendage} {p : Appendage}

/-- What is written behind a statement is written for a factory of the block. -/
theorem writes (h : H.Hardens b above out parts) (mem : p ∈ parts) :
    p.written = [] ∨ ∃ g ∈ Factory.declaredIn .standard H.creation b.stmts,
      H.Writes ⟨.block b :: above⟩ g p.written := by
  have written := h.written p mem
  cases last : Addition.last? (H.plan b ⟨.block b :: above⟩) p.old with
  | none =>
    rw [last] at written
    generalize p.written = ws at written ⊢
    cases written
    exact .inl rfl
  | some c =>
    rw [last] at written
    obtain ⟨g, hg, found⟩ := List.mem_filterMap.mp (Addition.last?_mem last).1
    refine .inr ⟨g, hg, ?_⟩
    generalize p.written = ws at written ⊢
    cases written with
    | made _ next => exact writes_of_addition? found next

/-- What is written is a call, or an initializer that holds calls. -/
theorem written_cases (h : H.Hardens b above out parts) (lawful : H.Lawful) (mem : p ∈ parts)
    {s : Stmt} (inside : s ∈ p.written) :
    (∃ e, s.form = .expr e) ∨ ∃ body, s.form = .block body ∧ ∀ t ∈ body.stmts, ∃ e, t.form = .expr e := by
  have calls {g : Factory} {owner : Option Ty} {items : List H.Item} {ws : List Stmt}
      (all : List.Forall₂ (H.Made g owner) items ws) : ∀ t ∈ ws, ∃ e, t.form = .expr e := by
    intro t ht
    obtain ⟨item, -, made⟩ := exists_of_forall₂ all ht
    obtain ⟨call, isCall, -⟩ := lawful.closes made
    exact ⟨call, isCall⟩
  rcases h.writes mem with nothing | ⟨g, -, writes⟩
  · rw [nothing] at inside
    cases inside
  · unfold Writes at writes
    split at writes
    next => exact .inl (calls writes s inside)
    next =>
      obtain ⟨init, body, one, isBlock, all⟩ := writes
      rw [one] at inside
      cases List.mem_singleton.mp inside
      exact .inr ⟨body, isBlock, calls all⟩

/-- A factory of the hardened block is one of the block before, with what was written
behind the statements that follow it. -/
theorem declared (h : H.Hardens b above out parts) (lawful : H.Lawful)
    (mem : f ∈ Factory.declaredIn .standard H.creation out.stmts) :
    ∃ pre p post, parts = pre ++ p :: post ∧ f.declaration = p.old ∧
      f.following = p.written ++ post.flatMap (·.stmts) ∧
      { f with following := post.map (·.old) } ∈ Factory.declaredIn .standard H.creation b.stmts := by
  obtain ⟨front, s, split, own⟩ := Factory.mem_declaredIn.mp mem
  obtain ⟨-, rfl, decl, isDecl, held⟩ := Factory.mem_ofDeclaration.mp own
  rw [h.after] at split
  obtain ⟨pre, p, post, front', back, rfl, here, -, following⟩ := exists_split_flatMap split
  have inside : p ∈ pre ++ p :: post := List.mem_append_right _ List.mem_cons_self
  -- The declaration is no statement that was written.
  cases front' with
  | cons first front' =>
    obtain ⟨-, rest⟩ := List.cons.inj here
    have written : f.declaration ∈ p.written := rest ▸ List.mem_append_right _ List.mem_cons_self
    unfold Stmt.declaration? at isDecl
    rcases h.written_cases lawful inside written with ⟨e, form⟩ | ⟨body, form, -⟩ <;>
      rw [form] at isDecl <;> cases isDecl
  | nil =>
    obtain ⟨visited, rfl⟩ := List.cons.inj here
    have became := h.visited p inside
    have same : p.visited = p.old := by
      have label : p.visited.form.blank = p.old.form.blank := Node.Label.stmt.inj became.label
      have isOld : ∃ decl, p.old.declaration? = some decl := by
        rw [← visited] at isDecl
        unfold Stmt.declaration? at isDecl ⊢
        revert label isDecl
        cases p.visited.form <;> cases p.old.form <;> simp [StmtForm.blank]
      obtain ⟨decl', isOld⟩ := isOld
      exact Node.stmt.inj (became.eq_of_idle (Node.idle_declaration isOld _))
    have old : f.declaration = p.old := visited.symm.trans same
    refine ⟨pre, p, post, rfl, old, following, Factory.mem_declaredIn.mpr ⟨pre.map (·.old), p.old, ?_, ?_⟩⟩
    · rw [h.before]
      simp
    · exact Factory.mem_ofDeclaration.mpr ⟨rfl, old, decl, old ▸ isDecl, held⟩

/-- Of the statements that may configure a factory, none evaluates less than before. -/
theorem surroundings (h : H.Hardens b above out (pre ++ p :: post)) (old : f.following = post.map (·.old))
    (new : g.following = p.written ++ post.flatMap (·.stmts)) (owner : Option Ty) :
    ∀ s ∈ f.surroundings owner ⟨.block b :: above⟩, ∃ s' ∈ g.surroundings owner ⟨.block out :: above'⟩,
      (Node.stmt s).exprs ⊆ (Node.stmt s').exprs := by
  intro s mem
  unfold Factory.surroundings at mem ⊢
  split at mem
  next field =>
    rw [if_pos field]
    obtain ⟨m, hm, executable, body, child, inside⟩ := Factory.mem_classStmts.mp mem
    rw [h.before] at hm
    obtain ⟨q, hq, rfl⟩ := List.mem_map.mp hm
    have became := h.visited q hq
    obtain ⟨c, hc, became'⟩ := became.child rfl child
    obtain ⟨body', rfl, stmts⟩ := became'.stmt
    obtain ⟨s', inside', appended⟩ := stmts s inside
    refine ⟨s', Factory.mem_classStmts.mpr ⟨q.visited, ?_, ?_, body', hc, inside'⟩, appended.exprs_subset⟩
    · rw [h.after]
      exact List.mem_flatMap.mpr ⟨q, hq, List.mem_cons_self⟩
    · rwa [Path.isExecutable_of_label became.label]
  next isLocal =>
    rw [if_neg isLocal, new]
    rw [old] at mem
    obtain ⟨q, hq, rfl⟩ := List.mem_map.mp mem
    have inside : q ∈ pre ++ p :: post := List.mem_append_right _ (List.mem_cons_of_mem _ hq)
    exact ⟨q.visited, List.mem_append_right _ (List.mem_flatMap.mpr ⟨q, hq, List.mem_cons_self⟩),
      (h.visited q inside).exprs_subset⟩

/-- Behind the statement that the settings of a factory are written behind stand those of a
factory of its name that lacks no less. -/
theorem writes_of_anchor (h : H.Hardens b above out parts) (lawful : H.Lawful) (single : H.Single b)
    (hf : f ∈ Factory.declaredIn .standard H.creation b.stmts)
    (found : H.addition? ⟨.block b :: above⟩ f = some a) (mem : p ∈ parts) (anchor : p.old = a.anchor) :
    ∃ g, g.held.name = f.held.name ∧
      H.missing ⟨.block b :: above⟩ f ⊆ H.missing ⟨.block b :: above⟩ g ∧
      H.Writes ⟨.block b :: above⟩ g p.written := by
  obtain ⟨g, hg, c, found', at_, last, suffix⟩ :=
    exists_last (Factory.pairwise_declaredIn b.stmts) hf found (beq_self_eq_true _)
  have same : c.anchor = a.anchor :=
    List.inj_on_of_nodup_map single.distinct (anchor_mem hg found') (anchor_mem hf found)
      (eq_of_beq at_)
  have name := name_eq single hf hg found found' same
  refine ⟨g, name, missing_subset lawful name suffix, ?_⟩
  have written := h.written p mem
  rw [anchor, show Addition.last? (H.plan b ⟨.block b :: above⟩) a.anchor = some c from last] at written
  generalize p.written = ws at written ⊢
  cases written with
  | made _ next => exact writes_of_addition? found' next

variable (above') in
/-- What a factory lacked is made by a statement that the next pass looks at. -/
theorem exists_closes (h : H.Hardens b above out (pre ++ p :: post)) (lawful : H.Lawful)
    (single : H.Single b) (hf : f ∈ Factory.declaredIn .standard H.creation b.stmts)
    (declared : f.declaration = p.old) (old : f.following = post.map (·.old))
    (new : g.following = p.written ++ post.flatMap (·.stmts)) {item : H.Item}
    (lacks : item ∈ H.missing ⟨.block b :: above⟩ f) :
    ∃ s ∈ g.surroundings (⟨.block b :: above⟩ : Path).bodyOwner? ⟨.block out :: above'⟩, ∃ g',
      g'.held.name = f.held.name ∧ H.Closes g' (⟨.block b :: above⟩ : Path).bodyOwner? item s := by
  obtain ⟨a, found⟩ := Option.isSome_iff_exists.mp
    (addition?_isSome.mpr (List.ne_nil_of_mem lacks))
  obtain ⟨q, hq, anchor⟩ : ∃ q ∈ p :: post, q.old = a.anchor := by
    rcases anchor_cases found with at_ | ⟨-, inside, -⟩
    · exact ⟨p, List.mem_cons_self, declared.symm.trans at_.symm⟩
    · rw [old] at inside
      obtain ⟨q, hq, at_⟩ := List.mem_map.mp inside
      exact ⟨q, List.mem_cons_of_mem _ hq, at_⟩
  have inside : q ∈ pre ++ p :: post := List.mem_append_right _ hq
  obtain ⟨g', name, more, writes⟩ := h.writes_of_anchor lawful single hf found inside anchor
  have lacks' := more lacks
  unfold Writes at writes
  cases owner : (⟨.block b :: above⟩ : Path).bodyOwner? with
  | none =>
    rw [owner] at writes
    obtain ⟨s, hs, made⟩ := exists_of_forall₂ writes.flip lacks'
    refine ⟨s, ?_, g', name, lawful.closes made⟩
    show s ∈ g.following
    rw [new]
    rcases List.mem_cons.mp hq with rfl | hq
    · exact List.mem_append_left _ hs
    · exact List.mem_append_right _ (List.mem_flatMap.mpr ⟨q, hq, List.mem_cons_of_mem _ hs⟩)
  | some ty =>
    rw [owner] at writes
    obtain ⟨init, body, one, form, all⟩ := writes
    obtain ⟨s, hs, made⟩ := exists_of_forall₂ all.flip lacks'
    refine ⟨s, Factory.mem_classStmts.mpr ⟨init, ?_, ?_, body, ?_, hs⟩, g', name, lawful.closes made⟩
    · rw [h.after]
      refine List.mem_flatMap.mpr ⟨q, inside, List.mem_cons_of_mem _ ?_⟩
      rw [one]
      exact List.mem_cons_self
    · unfold Path.isExecutable
      rw [form]
    · show _ ∈ init.children
      unfold Stmt.children
      rw [form]
      exact List.mem_cons_self

/-- A block that was hardened lacks nothing. -/
theorem plan_eq_nil (h : H.Hardens b above out parts) (lawful : H.Lawful) (single : H.Single b)
    (owner : (⟨.block out :: above'⟩ : Path).bodyOwner? = (⟨.block b :: above⟩ : Path).bodyOwner?) :
    H.plan out ⟨.block out :: above'⟩ = [] := by
  refine List.filterMap_eq_nil_iff.mpr fun g hg => ?_
  by_contra found
  have lacking := addition?_isSome.mp (Option.isSome_iff_ne_none.mpr found)
  obtain ⟨item, lacks⟩ := List.exists_mem_of_ne_nil _ lacking
  obtain ⟨pre, p, post, rfl, declared, new, hf⟩ := h.declared lawful hg
  have lacked : item ∈ H.missing ⟨.block b :: above⟩ { g with following := post.map (·.old) } := by
    unfold missing at lacks ⊢
    rw [owner] at lacks
    exact lawful.fewer (Factory.calls_subset rfl (h.surroundings rfl new _)) lacks
  obtain ⟨s, hs, g', name, call, form, receives, closed⟩ :=
    h.exists_closes above' (g := g) lawful single hf declared rfl new lacked
  refine closed _ (List.mem_filter.mpr ⟨List.mem_flatMap.mpr ⟨s, ?_, Node.mem_exprs_of_form form⟩, ?_⟩) lacks
  · rwa [owner]
  · rw [owner]
    unfold Factory.receiver at receives ⊢
    rwa [name] at receives

end Hardens

/-- There is nothing to write into what was written. -/
theorem Hardens.idle {out : Block} {above above' : List Node} {parts : List Appendage} {p : Appendage}
    (h : H.Hardens b above out parts) (lawful : H.Lawful) (mem : p ∈ parts) {s : Stmt}
    (inside : s ∈ p.written) : Node.Idle H.plan above' (.stmt s) := by
  rcases h.written_cases lawful mem inside with ⟨e, form⟩ | ⟨body, form, calls⟩
  · exact Node.idle_expression form _
  · refine .intro (fun b at_ => nomatch at_) fun c child => ?_
    have only : c = .block body := by
      obtain ⟨id, _⟩ := s
      cases form
      exact List.mem_singleton.mp child
    subst only
    refine .intro (fun b at_ => ?_) fun c child => ?_
    · cases at_
      unfold plan
      rw [Factory.declaredIn_of_calls calls]
      rfl
    · obtain ⟨t, ht, rfl⟩ := List.mem_map.mp child
      obtain ⟨e, isCall⟩ := calls t ht
      exact Node.idle_expression isCall _

/-- After hardening there is nothing left to write. -/
theorem idle_of_appended {above above' : List Node} {n out : Node} (lawful : H.Lawful)
    (h : Node.Appended H.plan above n out) (single : n.All fun m => ∀ b, m = .block b → H.Single b)
    (owner : (⟨out :: above'⟩ : Path).bodyOwner? = (⟨n :: above⟩ : Path).bodyOwner?) :
    Node.Idle H.plan above' out := by
  induction h generalizing above' with
  | @around above n out open_ pairs label before after visited kept ih =>
    refine .intro (fun b at_ => ?_) fun c mem => ?_
    · subst at_
      cases n with
      | block => cases open_
      | _ => cases label
    · rw [after] at mem
      obtain ⟨p, hp, rfl⟩ := List.mem_map.mp mem
      have child : p.1 ∈ n.children := before ▸ List.mem_map_of_mem hp
      exact ih p hp (single.child child) (Path.bodyOwner?_of_label label)
  | @block above b out parts isStatic before after visited written kept ih =>
    have hardens : H.Hardens b above out parts := ⟨before, after, visited, written⟩
    refine .intro (fun b' at_ => ?_) fun c mem => ?_
    · cases at_
      exact hardens.plan_eq_nil lawful (single.self b rfl) owner
    · obtain ⟨s, hs, rfl⟩ := List.mem_map.mp mem
      rw [after] at hs
      obtain ⟨p, hp, inside⟩ := List.mem_flatMap.mp hs
      rcases List.mem_cons.mp inside with rfl | inside
      · have child : Node.stmt p.old ∈ (Node.block b).children :=
          List.mem_map_of_mem (before ▸ List.mem_map_of_mem hp)
        exact ih p hp (single.child child) (Path.bodyOwner?_of_label (congrArg Node.Label.block isStatic))
      · exact hardens.idle lawful hp inside

end Hardening

end JavaMend
