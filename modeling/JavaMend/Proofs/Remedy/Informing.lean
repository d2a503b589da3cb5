import JavaMend.Proofs.Patch.Informed
import JavaMend.Proofs.Remedy.Apart
import JavaMend.Proofs.Remedy.Made

/-!
# What remedies ask imports for

Each remedy asks for the imports of what it writes, either as it notes a fix or as the fix is
applied. So its visits keep fixes and requests in step (`Remedy.Tells`), wherever the
nearest block and what stands below it name known classes only (`Told`).
-/

namespace JavaMend

variable {known : String → Prop}

/-! ## Makers -/

/-- What a static method of `Files` makes, as a file. -/
theorem Expr.mkToFile_placeable {method : MethodRef} {args : List Expr}
    (all : ∀ a ∈ args, a.NamesOnly known) (owner : ∀ fqn ∈ method.owner.fqn?, known fqn) :
    Fresh.Gives (do
      let made ← Expr.mkStaticCall method args
      return some (← Expr.mkCall made Jdk.pathToFile [])) fun new => ∀ e ∈ new, e.Placeable known := by
  refine (Expr.mkStaticCall_placeable all owner).bind fun made placeable => ?_
  refine (Expr.mkCall_placeable placeable.names (fun a none => (List.not_mem_nil none).elim) rfl).bind
    fun file placeable => .pure ?_
  rintro e ⟨⟩
  exact placeable

namespace TempDirectory

variable {create : Expr}

theorem mkParent_namesOnly (h : create.NamesOnly known) {dir : Expr}
    (found : directory? create = some dir) :
    (Expr.mkCall dir Jdk.fileToPath []).Gives (Expr.NamesOnly known) := by
  have mem : dir ∈ create.args := List.mem_of_getElem? (Option.filter_eq_some_iff.mp found).1
  exact (Expr.mkCall_placeable (h.arg mem) (fun a none => (List.not_mem_nil none).elim) rfl).mono
    fun _ placeable => placeable.names

theorem mkDirectory_placeable (files : known Fqn.files) (h : create.NamesOnly known) {name : Expr}
    (named : name.NamesOnly known) :
    (mkDirectory (directory? create) name).Gives fun new => ∀ e ∈ new, e.Placeable known := by
  have owner := Ty.named_known files
  cases found : directory? create with
  | none => exact Expr.mkToFile_placeable (List.forall_mem_singleton.mpr named) owner
  | some dir =>
    refine (mkParent_namesOnly h found).bind fun parent inside => ?_
    exact Expr.mkToFile_placeable
      (List.forall_mem_cons.mpr ⟨inside, List.forall_mem_singleton.mpr named⟩) owner

theorem replacement?_placeable (files : known Fqn.files) (h : create.NamesOnly known) :
    (replacement? create).Gives fun new => ∀ e ∈ new, e.Placeable known := by
  unfold replacement?
  split
  next start ending rest args =>
    have first : start.NamesOnly known := h.arg (by rw [args]; exact List.mem_cons_self)
    have second : ending.NamesOnly known :=
      h.arg (by rw [args]; exact List.mem_cons_of_mem _ List.mem_cons_self)
    show Fresh.Gives (if isNull ending then pure start >>= mkDirectory (directory? create)
      else Expr.mkAdd start ending >>= mkDirectory (directory? create)) _
    split
    · exact (Fresh.Gives.pure first).bind fun name named => mkDirectory_placeable files h named
    · exact (Expr.mkAdd_placeable first second).bind fun name placeable =>
        mkDirectory_placeable files h placeable.names
  next => exact .pure fun _ none => nomatch none

end TempDirectory

theorem TempFile.replacement?_placeable {create : Expr} (files : known Fqn.files)
    (h : create.NamesOnly known) :
    (replacement? create).Gives fun new => ∀ e ∈ new, e.Placeable known := by
  have owner := Ty.named_known files
  unfold replacement?
  split
  next start ending rest args =>
    have all : ∀ a ∈ [start, ending], a.NamesOnly known := fun a mem => h.arg <| by
      rw [args]
      exact List.mem_append_left rest mem
    cases found : TempDirectory.directory? create with
    | none => exact Expr.mkToFile_placeable all owner
    | some dir =>
      refine (TempDirectory.mkParent_namesOnly h found).bind fun parent inside => ?_
      exact Expr.mkToFile_placeable (List.forall_mem_cons.mpr ⟨inside, all⟩) owner
  next => exact .pure fun _ none => nomatch none

namespace PathTraversal

theorem PartialPath.mkCompleted_placeable {directory : Expr} (file : known Fqn.file)
    (h : directory.NamesOnly known) : (mkCompleted directory).Gives (Expr.Placeable known) :=
  (Expr.mkStaticField_firm (Ty.named_known file)).bind fun _ firm =>
    Expr.mkAdd_placeable h firm.sound.namesOnly

namespace Normalize

theorem splitPath?_placeable {path : Expr} (userInput : List NodeId) (file : known Fqn.file)
    (h : path.NamesOnly known) :
    (splitPath? path userInput).Gives fun new => ∀ e ∈ new, e.Placeable known := by
  have operands : ∀ o ∈ operandsOf path, o.NamesOnly known :=
    operandsOf_all (fun _ _ names mem => names.operand mem) h
  have joined {some : List Expr} (names : ∀ o ∈ some, o.NamesOnly known) :
      (mkConcatenation? some).Gives fun sum => ∀ e ∈ sum, e.NamesOnly known :=
    mkConcatenation?_all (fun _ _ first second =>
      (Expr.mkAdd_placeable first second).mono fun _ placeable => placeable.names) names
  refine splitPath?_gives
    (fun cut _ _ => joined fun o mem => operands o (List.mem_of_mem_take mem))
    (fun cut _ => joined fun o mem => operands o (List.mem_of_mem_drop mem))
    fun cut _ parent child constructor first second chosen => ?_
  refine Expr.mkCreate_placeable (List.forall_mem_cons.mpr ⟨first, List.forall_mem_singleton.mpr second⟩) ?_
  rw [constructorFor?_owner chosen]
  exact Ty.named_known file

/-- A creation with a file as its first argument names what it named before. -/
theorem withFile?_placeable {sink file : Expr} (h : sink.NamesOnly known) (names : file.NamesOnly known) :
    (withFile? sink file).Gives fun new => ∀ e ∈ new, e.Placeable known := by
  obtain ⟨id, ty, form⟩ := sink
  unfold withFile?
  dsimp only
  split
  next className first rest method =>
    refine fun next => ?_
    rintro e ⟨⟩
    refine ⟨Expr.namesOnly_iff.mpr ⟨fun ty mem => (Expr.namesOnly_iff.mp h).1 ty mem,
      List.forall_mem_cons.mpr ⟨names, fun a mem => ?_⟩⟩, fun no => nomatch no⟩
    exact h.operand (List.mem_cons_of_mem _ mem)
  next => exact .pure fun _ none => nomatch none

/-- Splitting a text that a file is made of names the class of files, for which no import is asked
for there; it is asked for where a stream is opened on a text. -/
theorem normalized?_placeable {e : Expr} {matcher : CallMatcher} (userInput : List NodeId)
    (file : matcher.acceptsAny e fileOfString = true → known Fqn.file) (h : e.NamesOnly known) :
    (normalized? matcher userInput e).Gives fun answer => ∀ new ∈ answer,
      new.1.Placeable fun fqn => known fqn ∨ fqn ∈ new.2 := by
  unfold normalized?
  split
  next => exact .pure fun _ none => nomatch none
  next path head =>
    have argument : path.NamesOnly known := h.arg (List.mem_of_mem_head? head)
    split
    next accepted =>
      refine (splitPath?_placeable userInput (file accepted) argument).bind fun split placeable =>
        .pure fun new mem => ?_
      obtain ⟨split, at_, rfl⟩ := Option.map_eq_some_iff.mp mem
      exact (placeable split at_).mono fun _ => .inl
    · -- Here the class of files is asked for.
      have asked : known Fqn.file ∨ Fqn.file ∈ [Fqn.file] := .inr (List.mem_singleton_self _)
      have widened : path.NamesOnly fun fqn => known fqn ∨ fqn ∈ [Fqn.file] :=
        argument.mono fun _ => .inl
      have finish {made : Expr} (names : made.NamesOnly fun fqn => known fqn ∨ fqn ∈ [Fqn.file]) :
          Fresh.Gives (do return (← withFile? e made).map fun sink => (sink, [Fqn.file]))
            fun answer => ∀ new ∈ answer, new.1.Placeable fun fqn => known fqn ∨ fqn ∈ new.2 := by
        refine (withFile?_placeable (h.mono fun _ => .inl) names).bind fun sink placeable =>
          .pure fun new mem => ?_
        obtain ⟨sink, at_, rfl⟩ := Option.map_eq_some_iff.mp mem
        exact placeable sink at_
      split
      · refine (splitPath?_placeable userInput asked widened).bind fun answer placeable => ?_
        cases answer with
        | some split => exact finish (placeable split rfl).names
        | none =>
          refine (Expr.mkCreate_placeable (List.forall_mem_singleton.mpr widened) ?_).bind
            fun whole placeable => finish placeable.names
          exact Ty.named_known asked
      · exact .pure fun _ none => nomatch none

end Normalize

end PathTraversal

/-! ## What is known about where a visit is -/

/-- Every node has the property, of the nearest block and of what stands below it. -/
def Told (P : Node → Prop) : List Node → Prop
  | [] => True
  | n :: above => n.All P ∧ (n.block? = none → Told P above)

section

variable {P : Node → Prop} {n c : Node} {path above : List Node}

theorem Told.child (h : Told P (n :: above)) (mem : c ∈ n.children) : Told P (c :: n :: above) :=
  ⟨h.1.child mem, fun _ => h⟩

theorem Told.of_front {front : List Node} (h : Told P (front ++ n :: above))
    (open_ : ∀ m ∈ front, m.block? = none) : n.All P := by
  induction front with
  | nil => exact h.1
  | cons m front ih =>
    exact ih (h.2 (open_ m List.mem_cons_self)) fun k mem => open_ k (List.mem_cons_of_mem _ mem)

theorem Told.anchor (h : Told P path) {anchor : Stmt} (found : (⟨path⟩ : Path).anchor? = some anchor) :
    (Node.stmt anchor).All P := by
  obtain ⟨front, b, above, split, open_⟩ := Path.anchor?_cases found
  dsimp only at split
  rw [split] at h
  exact h.of_front open_

theorem Told.stmt {b : Block} (h : Told P (.block b :: above)) {s : Stmt} (mem : s ∈ b.stmts) :
    (Node.stmt s).All P :=
  h.1.child (List.mem_map_of_mem mem)

end

section

variable {σ α : Type} {base : String → Prop} {mark : NodeId} {P : Node → Prop}
  {path above : List Node} {env : PassEnv}

/-- The visits of the remedy keep fixes and requests in step. -/
structure Remedy.Tells (base : String → Prop) (mark : NodeId) (P : Node → Prop) (remedy : Remedy σ) :
    Prop where
  enter : ∀ n above, Told P (n :: above) → Informs base mark (n :: above) (remedy.enter n)
  leave : ∀ b above, Told P (.block b :: above) →
    Informs base mark (.block b :: above) (remedy.leave b)

/-- A remedy that looks at expressions only. -/
theorem Informs.of_expr {look : Expr → PassM σ α} {other : α} {n : Node}
    (h : ∀ e, n = .expr e → Informs base mark path (look e)) :
    Informs base mark path (match n with
      | .expr e => look e
      | _ => Pure.pure other) := by
  cases n with
  | expr e => exact h e rfl
  | _ => exact .pure _

variable (names : ∀ m, P m → ∀ fqn ∈ m.named, base fqn)
include names

/-! ## Replacements -/

/-- A replacement asks for its imports as it is made. -/
theorem Informs.replaceHere (told : Told P path) {tainted new : Expr} {imports : List String}
    (placeable : new.Placeable fun fqn => base fqn ∨ fqn ∈ imports) :
    Informs base mark path (PassM.replaceHere tainted new imports : PassM σ Unit) := by
  unfold PassM.replaceHere
  refine .onPath ?_
  split
  next anchor found =>
    exact .bind (.noteFix (.replace ((told.anchor found).imp names) placeable))
      fun _ => .pure _
  next => exact .pure _

/-- The same, with the new expression made on the spot. -/
theorem Informs.replaceFresh (told : Told P path) {tainted : Expr} {imports : List String}
    {make : Fresh Expr} (grows : make.Grows)
    (gives : make.Gives (Expr.Placeable fun fqn => base fqn ∨ fqn ∈ imports)) :
    Informs base mark path (do PassM.replaceHere tainted (← VisitM.fresh make) imports : PassM σ Unit) :=
  .fresh grows fun start => .replaceHere names told (gives start)

theorem Random.tells : (Random.remedy env).Tells base mark P where
  enter n above told := by
    refine .of_expr fun e at_ => ?_
    subst at_
    split
    · refine .fresh (Expr.mkCreate_spends (fun _ => false) _ []).grows fun start =>
        .bind (.replaceHere names told (Expr.mkCreate_placeable ?_ ?_ start)) fun _ => .pure _
      · exact fun a none => (List.not_mem_nil none).elim
      · exact Ty.named_known (.inr (List.mem_singleton_self _))
    · exact .pure _
  leave _ _ _ := .pure _

theorem Cookie.inspect_informs {e : Expr} (told : Told P (.expr e :: above)) :
    Informs base mark (.expr e :: above) (Cookie.inspect env e) := by
  unfold Cookie.inspect
  refine .onPath ?_
  split
  next => exact .pure _
  next v _ =>
    split
    · split
      next => exact .pure _
      next anchor found =>
        refine .fresh (mkEnable_spends (fun _ => false) v).grows fun start => .bind ?_ fun _ => .pure _
        refine .noteFix (.of_written ((told.anchor found).imp names) rfl
          (List.forall_mem_singleton.mpr ?_))
        exact (mkEnable_sound v start).namesOnly
    · split
      · exact .modifyOwn _
      · exact .pure _

theorem Cookie.tells : (Cookie.remedy env).Tells base mark P where
  enter n above told := by
    refine .of_expr fun e at_ => ?_
    subst at_
    refine .bind .own fun marked => ?_
    split
    · refine .bind (.modifyOwn _) fun _ => .bind ?_ fun _ => .pure _
      unfold Cookie.turnAround
      split
      next arg _ =>
        exact .replaceFresh names told (Expr.mkBool_spends (fun _ => false) true).grows
          fun start => (Expr.mkBool_firm _ true start).placeable rfl
      next => exact .pure _
    · split
      · exact .bind (Cookie.inspect_informs names told) fun _ => .pure _
      · exact .pure _
  leave _ _ _ := .pure _

omit names in
theorem TempDirectory.belowClass_informs : Informs base mark path (belowClass : PassM σ Bool) :=
  .onPath (.pure _)

theorem TempFile.tells : (TempFile.remedy env).Tells base mark P where
  enter n above told := by
    unfold TempFile.remedy
    dsimp only
    split
    next block =>
      refine .bind TempDirectory.belowClass_informs fun below => ?_
      split
      · exact .pure _
      · exact .bind (.modifyOwn _) fun _ => .pure _
    next e =>
      refine .bind .own fun claimed => ?_
      split
      · unfold TempFile.checkCreation
        refine .onPath (.fresh (replacement?_spends (fun _ => false) e).grows fun start => ?_)
        split
        next new _ made =>
          refine .bind (.replaceHere names told ?_) fun _ => .pure _
          refine replacement?_placeable ?_ (told.1.imp fun m h fqn mem => .inl (names m h fqn mem)) start
            new made
          exact .inr (List.mem_singleton_self _)
        next => exact .pure _
      · exact .pure _
    next => exact .pure _
  leave _ _ _ := .pure _

omit names in
theorem Privileged.tells (remediation : String) :
    (Privileged.remedy env remediation).Tells base mark P where
  enter n above told := by
    unfold Privileged.remedy
    dsimp only
    split
    next => exact .bind (.onPath (.noteFinding _)) fun _ => .pure _
    next => exact .bind (.pure _) fun _ => .pure _
  leave _ _ _ := .pure _

/-! ## Removals -/

theorem Seed.tells : (Seed.remedy env).Tells base mark P where
  enter n above told := by
    unfold Seed.remedy
    dsimp only
    split
    next stmt =>
      refine .onPath ?_
      split
      next call _ =>
        split
        · refine .bind ?_ fun _ => .pure _
          exact .noteFix (.of_written (told.1.imp names) rfl
            fun s none => (List.not_mem_nil none).elim)
        · exact .pure _
      next => exact .pure _
    next => exact .pure _
  leave _ _ _ := .pure _

theorem TempDirectory.noteSite_informs {b : Block} {site : DirectorySite}
    (told : Told P (.block b :: above)) (among : SiteAmong env.matcher b.stmts site) :
    Informs base mark (.block b :: above) (noteSite site) := by
  have known (m : Node) (h : P m) (fqn : String) (mem : fqn ∈ m.named) :
      base fqn ∨ fqn ∈ [Fqn.files] := .inl (names m h fqn mem)
  have removed {stmt : Stmt} (mem : stmt ∈ b.stmts) : Informs base mark (.block b :: above)
      (PassM.noteFix ⟨stmt, site.create, none, .remove⟩ : PassM Unit Bool) :=
    .noteFix (.of_written ((told.stmt mem).imp names) rfl
      fun s none => (List.not_mem_nil none).elim)
  unfold noteSite
  refine .fresh (replacement?_spends (fun _ => false) site.create).grows fun start => ?_
  split
  next => exact .pure _
  next new made =>
    have stmt : site.createStmt.NamesOnly fun fqn => base fqn ∨ fqn ∈ [Fqn.files] :=
      (told.stmt among.createStmt).imp known
    refine .bind (.noteFix (.replace ((told.stmt among.createStmt).imp names) ?_)) fun _ =>
      .bind (removed among.deleteStmt) fun _ => .bind (removed among.mkdirStmt) fun _ => .pure _
    exact replacement?_placeable (.inr (List.mem_singleton_self _)) (stmt.below among.create) start
      new made

theorem TempDirectory.tells : (TempDirectory.remedy env).Tells base mark P where
  enter _ _ _ := .pure _
  leave b above told := by
    unfold TempDirectory.remedy
    dsimp only
    refine .bind TempDirectory.belowClass_informs fun below => ?_
    split
    · exact .pure _
    · exact .forM _ fun site mem => noteSite_informs names told (siteAmong_of_mem mem)

/-! ## Configurations -/

/-- Making a configuration and noting it, and asking for its imports. -/
theorem Factory.configure_informs {matcher : CallMatcher} {creation : List Signature} {f : Factory}
    {b : Block} {owner : Option Ty} {last : Option Stmt} {imports : List String}
    {make : Fresh (List Stmt)} (told : Told P (.block b :: above))
    (mem : f ∈ declaredIn matcher creation b.stmts)
    (follows : owner = none → ∀ s ∈ last, s ∈ f.following) (grows : make.Grows)
    (gives : make.Gives fun stmts => ∀ s ∈ stmts, s.Sound fun fqn => base fqn ∨ fqn ∈ imports) :
    Informs base mark (.block b :: above) (do
      let stmts ← VisitM.fresh make
      f.addConfiguration owner last stmts imports) := by
  have among := declaredAmong_of_mem mem
  have notes {anchor : Stmt} {stmts : List Stmt} (mem : anchor ∈ b.stmts)
      (sound : ∀ s ∈ stmts, s.Sound fun fqn => base fqn ∨ fqn ∈ imports) :
      Informs base mark (.block b :: above) (do
        if ← PassM.noteFix ⟨anchor, f.init, none, .insertAfter stmts⟩ then
          PassM.requestImports imports : PassM Unit Unit) := by
    refine .noteFix_requestImports (List.cons_ne_nil _ _) (.of_written ?_ rfl
      fun s mem => (sound s mem).namesOnly)
    exact (told.stmt mem).imp fun m h fqn mem => .inl (names m h fqn mem)
  refine .fresh grows fun start => ?_
  unfold addConfiguration
  cases owner with
  | some ty =>
    refine .fresh (mkFieldInitializer_spends (fun _ => false) f.declaration _).grows fun start' =>
      notes among.declaration_mem (List.forall_mem_singleton.mpr ?_)
    exact mkFieldInitializer_sound (gives start) start'
  | none =>
    refine notes ?_ (gives start)
    cases last with
    | none => exact among.declaration_mem
    | some s => exact among.following_mem (follows rfl s rfl)

theorem XmlInput.tells (dtdsRequired : Bool) : (XmlInput.remedy env dtdsRequired).Tells base mark P where
  enter _ _ _ := .pure _
  leave b above told := by
    refine .onPath (.forM _ fun f mem => ?_)
    unfold XmlInput.protect
    dsimp only
    split
    next => exact .pure _
    next =>
      refine Factory.configure_informs names told mem Factory.lastSetter?_mem ?_ ?_
      · exact (mkSettings_spends (fun _ => false) f _ _).grows
      · exact mkSettings_sound f _ _ (.inr (List.mem_singleton_self _))

theorem Transformer.tells : (Transformer.remedy env).Tells base mark P where
  enter _ _ _ := .pure _
  leave b above told := by
    refine .onPath (.forM _ fun f mem => ?_)
    unfold Transformer.protect
    dsimp only
    split
    next => exact .pure _
    next =>
      refine Factory.configure_informs names told mem Factory.lastSetter?_mem ?_ ?_
      · exact (mkSettings_spends (fun _ => false) f _ _).grows
      · exact mkSettings_sound f _ _ (.inr (List.mem_singleton_self _))

variable (text : base Fqn.string) (state : base Fqn.illegalStateException)

include text state in
theorem DocumentBuilder.protect_informs {dtdsRequired : Bool} {b : Block} {f : Factory}
    (told : Told P (.block b :: above)) (mem : f ∈ Factory.declaredIn env.matcher creation b.stmts)
    (facts : List (String × Fact)) (taken : List String) :
    Informs base mark (.block b :: above)
      (protect env dtdsRequired ⟨.block b :: above⟩ facts taken f) := by
  unfold DocumentBuilder.protect
  dsimp only
  split
  · exact .pure _
  · rw [← bind_assoc]
    refine .bind (Factory.configure_informs names told mem (fun _ => lastFeatureStmt?_mem) ?_ ?_)
      fun _ => .pure _
    · exact (mkSettings_spends (fun _ => false) f _ dtdsRequired _ _ _).grows
    · refine mkSettings_sound f _ dtdsRequired _ _ _ (.inl text) (.inr List.mem_cons_self) (.inl state)
        fun required => .inr (List.mem_cons_of_mem _ ?_)
      rw [if_pos required]
      exact List.mem_singleton_self _

include text state in
theorem DocumentBuilder.tells (dtdsRequired : Bool) :
    (DocumentBuilder.remedy env dtdsRequired).Tells base mark P where
  enter _ _ _ := .pure _
  leave b above told := by
    refine .onPath ?_
    split
    next => exact .pure _
    next =>
      exact .bind (.foldlM _ (fun f mem taken => protect_informs names text state told mem _ taken) _)
        fun _ => .pure _

/-! ## New members -/

/-- The members are noted one after the other, and the imports of all of them asked for at last. -/
theorem RandomString.addMembers_informs {b : Block} (told : Told P (.block b :: above)) (owner : Ty) :
    Informs base mark (.block b :: above) (addMembers env b owner) := by
  unfold RandomString.addMembers
  split
  · exact .pure _
  · refine .onPath ?_
    dsimp only
    split
    next call rest first last _ hfirst hlast =>
      generalize utilsFor _ = utils
      have generator : Fqn.secureRandom ∈ [Fqn.secureRandom, utils] := List.mem_cons_self
      have drawing : utils ∈ [Fqn.secureRandom, utils] :=
        List.mem_cons_of_mem _ (List.mem_singleton_self _)
      have writes {anchor : Stmt} {kind : FixKind} (mem : anchor ∈ b.stmts)
          (plain : kind.tag.onlyWrites = true)
          (written : ∀ s ∈ kind.written, s.Sound fun fqn => base fqn ∨ fqn ∈ [Fqn.secureRandom, utils]) :
          PendingFix.NamesOnly (fun fqn => base fqn ∨ fqn ∈ [Fqn.secureRandom, utils])
            ⟨anchor, call, none, kind⟩ :=
        .of_written ((told.stmt mem).imp fun m h fqn mem => .inl (names m h fqn mem)) plain
          fun s mem => (written s mem).namesOnly
      refine .fresh (mkHead_spends (fun _ => false) owner).grows fun start => ?_
      refine .noteFix_then (writes (List.mem_of_mem_head? hfirst) rfl
        (mkHead_sound owner (.inr generator) start)) fun known => ?_
      refine Informed.fresh_bind (mkMethod_spends (fun _ => false) owner utils).grows fun start' => ?_
      refine (Informed.noteFix ?_).bind fun _ => ?_
      · exact writes (List.mem_of_getLast? hlast) rfl
          (List.forall_mem_singleton.mpr (mkMethod_sound owner (.inr drawing) start'))
      · split
        next existing found =>
          have mem : existing ∈ b.stmts := by
            unfold loneField? at found
            exact List.mem_of_find?_eq_some found
          refine (Informed.noteFix ?_).bind fun _ => Informed.pay (List.cons_ne_nil _ _) _
          exact writes mem rfl fun s none => (List.not_mem_nil none).elim
        next => exact Informed.pay (List.cons_ne_nil _ _) _
    next => exact .pure _

theorem RandomString.tells : (RandomString.remedy env).Tells base mark P where
  enter n above told := by
    refine .of_expr fun e at_ => ?_
    subst at_
    split
    · refine .bind (.onPath ?_) fun _ => .pure _
      split
      next => exact .pure _
      next head body _ =>
        split
        · exact .pure _
        · refine .replaceFresh names told (Expr.mkLocalCall_spends (fun _ => false) _ []).grows
            fun start => (Expr.mkLocalCall_firm (fun a none => ?_) start).placeable rfl
          exact (List.not_mem_nil none).elim
    · exact .pure _
  leave b above told := by
    refine .onPath ?_
    split
    next owner _ => exact addMembers_informs names told owner
    next => exact .pure _

/-! ## Paths -/

namespace PathTraversal

theorem PartialPath.tells : (PartialPath.remedy env).Tells base mark P where
  enter n above told := by
    refine .of_expr fun e at_ => ?_
    subst at_
    split
    next directory found =>
      refine .bind ?_ fun _ => .pure _
      have reads : e.NamesOnly base := told.1.imp names
      exact .replaceFresh names told (mkCompleted_spends (fun _ => false) directory).grows
        (mkCompleted_placeable (.inr (List.mem_singleton_self _))
          ((reads.arg (directory_mem_args found)).mono fun _ => .inl))
    next => exact .bind (.pure _) fun _ => .pure _
  leave _ _ _ := .pure _

theorem Normalize.tells {userInput : List NodeId}
    (file : ∀ e, P (.expr e) → env.matcher.acceptsAny e fileOfString = true → base Fqn.file) :
    (Normalize.remedy env userInput).Tells base mark P where
  enter n above told := by
    refine .of_expr fun e at_ => ?_
    subst at_
    refine .fresh (normalized?_spends (fun _ => false) env.matcher userInput e).grows fun start =>
      .onPath ?_
    split
    next new imports _ made _ =>
      refine .bind (.replaceHere names told ?_) fun _ => .pure _
      exact normalized?_placeable userInput (file e (told.1 _ Node.mem_subtree_self))
        (told.1.imp names) start _ made
    next => exact .pure _
  leave _ _ _ := .pure _

theorem Guarding.noteConstruction_informs {settings : PathSettings} {e parent : Expr}
    (told : Told P (.expr e :: above)) (reads : parent.NamesOnly base) :
    Informs base mark (.expr e :: above) (noteConstruction settings e parent) := by
  unfold noteConstruction
  refine .onPath (.fresh (fixFor?_spends settings _ e parent).grows fun start => ?_)
  split
  next anchor tainted directory kind found made =>
    refine .bind (.noteFix ?_) fun noted => ?_
    · rcases fixFor?_cases made with ⟨v, variant, -, rfl, rfl, -, rfl⟩ | ⟨-, rfl, rfl, ending, rfl⟩
      · refine ⟨(told.anchor found).imp names, fun _ => ⟨?_, ?_⟩, fun s none => ?_, ?_⟩
        · exact (Variable.mkRead_firm base v none start).sound.namesOnly
        · rintro _ ⟨⟩
          exact reads
        · exact (List.not_mem_nil none).elim
        · rintro _ _ ⟨⟩
      · refine ⟨(told.anchor found).imp names, fun _ => ⟨told.1.imp names, ?_⟩, fun s none => ?_, ?_⟩
        · rintro _ ⟨⟩
        · exact (List.not_mem_nil none).elim
        · rintro _ _ ⟨⟩
    · split
      · exact .modifyOwn _
      · exact .pure _
  next => exact .pure _

theorem Guarding.tells {settings : PathSettings} {children : List NodeId} :
    (Guarding.remedy env settings children).Tells base mark P where
  enter n above told := by
    refine .of_expr fun e at_ => ?_
    subst at_
    split
    next parent child isConstruction =>
      have reads : e.NamesOnly base := told.1.imp names
      have directory : parent.NamesOnly base := by
        unfold parentAndChild? at isConstruction
        split at isConstruction
        · split at isConstruction
          next args =>
            cases isConstruction
            exact reads.arg (by rw [args]; exact List.mem_cons_self)
          next => cases isConstruction
        · split at isConstruction
          · obtain ⟨receiver, on, rest⟩ := Option.bind_eq_some_iff.mp isConstruction
            obtain ⟨first, -, at_⟩ := Option.bind_eq_some_iff.mp rest
            cases at_
            exact reads.receiver on
          · cases isConstruction
      refine .onPath ?_
      split
      · exact .bind (noteConstruction_informs names told directory) fun _ => .pure _
      · exact .bind (.pure _) fun _ => .pure _
    next => exact .bind (.pure _) fun _ => .pure _
  leave _ _ _ := .pure _

end PathTraversal

end

end JavaMend
